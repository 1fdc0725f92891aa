import CurveKeys.Digits
import CurveKeys.Edwards25519.Scalar.Basic

/-!
Signed digits of scalars, the lowest one first. In the non-adjacent form of width `w` a digit that
is not zero is odd, is below `2 ^ (w - 1)` in absolute value, and is followed by `w - 1` zeros. In
the signed base 16 every digit but the last lies between -8 and 7.
-/

namespace CurveKeys.Edwards25519.Digits

/-- The integer spelled by bits. -/
def bitsToNat : List Bool → Nat
  | [] => 0
  | b :: r => b.toNat + 2 * bitsToNat r

/-- Recodes bits, one digit to a bit. A window of `w` bits with the carry is taken where its value
is odd; a value in the upper half is lowered by `2 ^ w` and carries. The `skip` bits of a window
already taken have the digit zero. -/
def recode (w : Nat) : Nat → Nat → List Bool → List Int8
  | _, _, [] => []
  | carry, skip + 1, _ :: r => 0 :: recode w carry skip r
  | carry, 0, b :: r =>
    let window := carry + bitsToNat ((b :: r).take w)
    if window % 2 = 0 then 0 :: recode w carry 0 r
    else if window < 1 <<< (w - 1) then Int8.ofNat window :: recode w 0 (w - 1) r
    else Int8.ofInt (window - (1 <<< w : Nat)) :: recode w 1 (w - 1) r

/-- The 256 digits of the non-adjacent form of width `w`. -/
def nonAdjacent (w : Nat) (s : Scalar) : List Int8 :=
  recode w 0 0 (Digits.bits s.bytes.toList)

/-- A width outside of the range for which digits fit a byte. -/
structure WidthError where

def WidthError.message (_ : WidthError) : String := "NAF width must be in 2..=8"

/-- The non-adjacent form, of a width between 2 and 8. -/
def nonAdjacentForm (w : Nat) (s : Scalar) : Except WidthError (List Int8) :=
  if 2 ≤ w ∧ w ≤ 8 then .ok (nonAdjacent w s) else .error ⟨⟩

/-- The 64 digits of the signed base 16. The last one takes the carry as it is. -/
def signedRadix16 (s : Scalar) : List Int8 :=
  let digits := Digits.nibbles s.bytes.toList
  let (low, carry) := Digits.recentre 0 (digits.take 63)
  low ++ (digits.drop 63).map (· + carry)

end CurveKeys.Edwards25519.Digits
