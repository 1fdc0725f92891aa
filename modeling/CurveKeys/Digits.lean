import CurveKeys.Bytes

/-!
Digits of integers, the lowest one first: the bits and the nibbles of bytes, the integer that
signed digits spell, and the recentring of base 16 digits around zero.
-/

namespace CurveKeys.Digits

/-- The integer spelled by digits in a base. -/
def value (base : Int) : List Int → Int
  | [] => 0
  | d :: r => d + base * value base r

/-- The eight bits of a byte. -/
def bitsOfByte (x : UInt8) : List Bool :=
  [0, 1, 2, 3, 4, 5, 6, 7].map fun i => x >>> i &&& 1 == 1

/-- The bits of a little-endian string. -/
def bits (b : Bytes) : List Bool := b.flatMap bitsOfByte

/-- The two base 16 digits of a byte. -/
def nibblesOfByte (x : UInt8) : List Int8 := [(x &&& 15).toInt8, (x >>> 4).toInt8]

/-- The base 16 digits of a little-endian string. -/
def nibbles (b : Bytes) : List Int8 := b.flatMap nibblesOfByte

/-- Recentres base 16 digits from the lowest up: a digit of 8 or more, with the carry, loses 16
and carries one. The carry out of the last digit is returned. -/
def recentre : Int8 → List Int8 → List Int8 × Int8
  | carry, [] => ([], carry)
  | carry, d :: r =>
    let sum := d + carry
    let up := (sum + 8) >>> 4
    let (rest, out) := recentre up r
    ((sum - up <<< 4) :: rest, out)

end CurveKeys.Digits
