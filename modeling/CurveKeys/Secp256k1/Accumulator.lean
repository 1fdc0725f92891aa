import CurveKeys.Secp256k1.Limbs

/-!
A running sum of 64-bit products in three 32-bit limbs, and the column-by-column product of two
limb lists that it serves. A column's low limb is final once every product of its weight has been
added, and the rest is carried into the next column.
-/

namespace CurveKeys.Secp256k1

structure Accumulator where
  c0 : UInt32
  c1 : UInt32
  c2 : UInt32
deriving DecidableEq

namespace Accumulator

def zero : Accumulator := ⟨0, 0, 0⟩

def toNat (a : Accumulator) : Nat :=
  Limbs.toNat [a.c0, a.c1, a.c2]

/-- One when a sum came out smaller than one of its terms, so when the addition wrapped. -/
@[inline] def wrapped (sum term : UInt32) : UInt32 :=
  if sum < term then 1 else 0

/-- The middle limb can wrap twice, once for the high half of `v` and once for the carry. -/
def add (a : Accumulator) (v : UInt64) : Accumulator :=
  let lo := v.toUInt32
  let hi := (v >>> 32).toUInt32
  let c0 := a.c0 + lo
  let carry := wrapped c0 lo
  let c1 := a.c1 + hi
  let c1' := c1 + carry
  ⟨c0, c1', a.c2 + wrapped c1 hi + wrapped c1' carry⟩

def mulAdd (a : Accumulator) (x y : UInt32) : Accumulator :=
  a.add (x.toUInt64 * y.toUInt64)

/-- The low limb, final for its column. -/
def low (a : Accumulator) : UInt32 := a.c0

/-- What is left of the sum above its low limb. -/
def shift (a : Accumulator) : Accumulator := ⟨a.c1, a.c2, 0⟩

/-- Adds the products of the limbs that stand at equal positions. -/
def dot : Accumulator → List UInt32 → List UInt32 → Accumulator
  | acc, x :: xs, y :: ys => dot (acc.mulAdd x y) xs ys
  | acc, _, _ => acc

/-- The lowest `width` limbs of `acc + low + a * b`, and what is left above them. The limbs of `b`
already passed wait in `passed`, the latest one first, so that each column is one dot product. -/
def columns : Nat → Accumulator → (low a passed b : List UInt32) → List UInt32 × Accumulator
  | 0, acc, _, _, _, _ => ([], acc)
  | width + 1, acc, low, a, passed, y :: b =>
    let sum := (acc.add (low.headD 0).toUInt64).dot a (y :: passed)
    let (rest, last) := columns width sum.shift low.tail a (y :: passed) b
    (sum.low :: rest, last)
  | width + 1, acc, low, a, passed, [] =>
    let sum := (acc.add (low.headD 0).toUInt64).dot a.tail passed
    let (rest, last) := columns width sum.shift low.tail a.tail passed []
    (sum.low :: rest, last)

/-- The lowest `width` limbs of `low + a * b`, and what is left above them. -/
def mulColumns (width : Nat) (low a b : List UInt32) : List UInt32 × Accumulator :=
  columns width zero low a [] b

end Accumulator

end CurveKeys.Secp256k1
