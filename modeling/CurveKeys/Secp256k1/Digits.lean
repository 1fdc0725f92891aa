import CurveKeys.Digits
import CurveKeys.Secp256k1.Scalar.Basic

/-!
Signed digits of scalars. In the non-adjacent form every digit is -1, 0 or 1 and no two
neighbours are both non-zero. In the signed base 16 every digit but the last lies between -8 and 7.
-/

namespace CurveKeys.Secp256k1

inductive SignedBit where
  | minus
  | zero
  | plus
deriving DecidableEq

namespace SignedBit

def toInt : SignedBit → Int
  | minus => -1
  | zero => 0
  | plus => 1

end SignedBit

namespace Naf

/-- Recodes bits from the lowest up. A one bit below another becomes -1 and carries, so that the
digit above it turns to zero. The carry out of the last bit is returned. -/
def recode : Bool → List Bool → List SignedBit × Bool
  | carry, [] => ([], carry)
  | carry, b :: r =>
    let (digit, next) : SignedBit × Bool :=
      match carry, b with
      | true, true => (.zero, true)
      | false, false => (.zero, false)
      | _, _ => if r.headD false then (.minus, true) else (.plus, false)
    let (rest, out) := recode next r
    (digit :: rest, out)

/-- The non-adjacent form of a big-endian integer, the lowest digit first. There are eight digits
for each byte, and eight more when the last digit carries. -/
def ofBytes (k : Bytes) : List SignedBit :=
  let (digits, carry) := recode false (Digits.bits k.reverse)
  if carry then digits ++ [.plus, .zero, .zero, .zero, .zero, .zero, .zero, .zero] else digits

end Naf

/-- The 33 signed base 16 digits of a scalar below `2 ^ 128`, the lowest one first. The last carry
is a digit of its own. -/
def signedRadix16Half (k : Scalar) : List Int8 :=
  let (digits, carry) := Digits.recentre 0 (Digits.nibbles (k.toBytes.toList.drop 16).reverse)
  digits ++ [carry]

end CurveKeys.Secp256k1
