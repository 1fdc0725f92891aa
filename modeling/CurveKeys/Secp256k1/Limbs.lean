/-!
Numbers as lists of 32-bit limbs, least significant limb first: their value, their order, and
addition and subtraction with the carry or borrow that leaves the top limb.
-/

namespace CurveKeys.Secp256k1.Limbs

def toNat : List UInt32 → Nat
  | [] => 0
  | x :: r => x.toNat + 0x100000000 * toNat r

/-- Orders two numbers of equally many limbs; the highest limb that differs decides. -/
def compare : List UInt32 → List UInt32 → Ordering
  | x :: xs, y :: ys => (compare xs ys).then (Ord.compare x y)
  | _, _ => .eq

/-- The limbs of `a + b + carry` and the carry out of the last limb. -/
def addCarry : UInt64 → List UInt32 → List UInt32 → List UInt32 × UInt64
  | carry, x :: xs, y :: ys =>
    let t := x.toUInt64 + y.toUInt64 + carry
    let (rest, out) := addCarry (t >>> 32) xs ys
    (t.toUInt32 :: rest, out)
  | carry, _, _ => ([], carry)

/-- The limbs of `a - b - borrow` modulo the width, and the borrow out of the last limb. -/
def subBorrow : UInt64 → List UInt32 → List UInt32 → List UInt32 × UInt64
  | borrow, x :: xs, y :: ys =>
    let t := x.toUInt64 - (y.toUInt64 + borrow)
    let (rest, out) := subBorrow (t >>> 63) xs ys
    (t.toUInt32 :: rest, out)
  | borrow, _, _ => ([], borrow)

/-- Moves every limb down by `n < 32` bits, taking the vacated bits from the next limb. -/
def shiftRight (n : UInt32) : List UInt32 → List UInt32
  | [] => []
  | [x] => [x >>> n]
  | x :: y :: r =>
    (if n = 0 then x else x >>> n ||| y <<< (32 - n)) :: shiftRight n (y :: r)

/-- The bit of weight `2 ^ i`. -/
def bit (l : List UInt32) (i : Nat) : Bool :=
  l.getD (i / 32) 0 >>> UInt32.ofNat (i % 32) &&& 1 = 1

theorem length_addCarry (c : UInt64) (a b : List UInt32) :
    (addCarry c a b).1.length = min a.length b.length := by
  induction a generalizing c b with
  | nil => simp [addCarry]
  | cons x xs ih => cases b <;> simp [addCarry, ih]

theorem length_subBorrow (c : UInt64) (a b : List UInt32) :
    (subBorrow c a b).1.length = min a.length b.length := by
  induction a generalizing c b with
  | nil => simp [subBorrow]
  | cons x xs ih => cases b <;> simp [subBorrow, ih]

end CurveKeys.Secp256k1.Limbs
