import CurveKeys.Secp256k1.Accumulator
import CurveKeys.Secp256k1.Scalar.Basic

/-!
Products of scalars. A product of sixteen limbs is folded three times, each time replacing the
part `h * 2 ^ 256` above the low eight limbs by `h` times the small number `2 ^ 256 - n`, until one
subtraction of the order `n` is enough.
-/

namespace CurveKeys.Secp256k1.Scalar

/-- The sixteen limbs of the product of two numbers of eight limbs. -/
def mulWide (a b : List UInt32) : List UInt32 := (Accumulator.mulColumns 16 [] a b).1

/-- The limbs of `2 ^ 256` less the order. -/
def orderComplement : List UInt32 := [0x2FC9BEBF, 0x402DA173, 0x50B75FC4, 0x45512319, 1]

theorem toNat_orderComplement : Limbs.toNat orderComplement + order = 1 <<< 256 := by decide

/-- Replaces the limbs above the eighth by their product with the order's complement. -/
def fold (width : Nat) (l : List UInt32) : List UInt32 × Accumulator :=
  Accumulator.mulColumns width (l.take 8) (l.drop 8) orderComplement

/-- 512 bits fold to 385, those to 258, and those to less than twice the order. -/
def reduceWide (l : List UInt32) : Scalar :=
  let r := (fold 9 (fold 9 (fold 13 l).1).1).1
  ofOverflow (r.take 8) (r.getD 8 0 != 0)

def mul (a b : Scalar) : Scalar := reduceWide (mulWide a.limbs b.limbs)

def square (a : Scalar) : Scalar := a.mul a

/-- The product divided by `2 ^ shift` and rounded to the nearest integer, halves going up;
`shift` is at least 256. -/
def mulShift (a b : Scalar) (shift : Nat) : Scalar :=
  let product := mulWide a.limbs b.limbs
  let quotient :=
    ofLimbs (Limbs.shiftRight (UInt32.ofNat (shift % 32)) (product.drop (shift / 32)))
  if Limbs.bit product (shift - 1) then quotient.add one else quotient

/-- The powers `x, x * a, …`, as many as `n`. -/
def powersFrom (a x : Scalar) : Nat → List Scalar
  | 0 => []
  | n + 1 => x :: powersFrom a (x.mul a) n

/-- The four-bit digits of a number, the most significant one first. -/
def nibbles (l : List UInt32) : List Nat :=
  l.reverse.flatMap fun x =>
    [28, 24, 20, 16, 12, 8, 4, 0].map fun s => (x >>> s &&& 15).toNat

/-- The limbs of the order less two, the exponent of the inversion. -/
def inverseExponent : List UInt32 :=
  [0xD036413F, 0xBFD25E8C, 0xAF48A03B, 0xBAAEDCE6, 0xFFFFFFFE, 0xFFFFFFFF, 0xFFFFFFFF, 0xFFFFFFFF]

theorem toNat_inverseExponent : Limbs.toNat inverseExponent = order - 2 := by decide

/-- The power `a ^ (n - 2)` by windows of four bits: the inverse of `a`, and zero for zero. -/
def invert (a : Scalar) : Scalar :=
  let powers := one :: powersFrom a a 15
  (nibbles inverseExponent).foldl
    (fun acc d => acc.square.square.square.square.mul (powers.getD d one)) one

end CurveKeys.Secp256k1.Scalar
