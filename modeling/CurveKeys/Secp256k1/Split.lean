import CurveKeys.Secp256k1.Scalar.Multiply
import CurveKeys.Select

/-!
Splitting a scalar along the eigenvalue `lambda` of the curve's endomorphism. Both halves are
short, up to sign, because they are what is left of `(k, 0)` after the nearest point of a lattice
with a short basis `(a₁, b₁)`, `(a₂, b₂)` has been taken away.
-/

namespace CurveKeys.Secp256k1

namespace Scalar

def minusLambda : Scalar :=
  ⟨[0xB51283CF, 0xE0CFC810, 0x8EC739C2, 0xA880B9FC,
    0x77ED9BA4, 0x5AD9E3FD, 0x3FA3CF1F, 0xAC9C52B3], rfl⟩

def minusB1 : Scalar :=
  ⟨[0x0ABFE4C3, 0x6F547FA9, 0x010E8828, 0xE4437ED6, 0, 0, 0, 0], rfl⟩

/-- The negative of `b₂` modulo the order. -/
def minusB2 : Scalar :=
  ⟨[0x3DB1562C, 0xD765CDA8, 0x0774346D, 0x8A280AC5,
    0xFFFFFFFE, 0xFFFFFFFF, 0xFFFFFFFF, 0xFFFFFFFF], rfl⟩

/-- The quotient `2 ^ 384 * b₂ / n`, rounded. -/
def g1 : Scalar :=
  ⟨[0x45DBB031, 0xE893209A, 0x71E8CA7F, 0x3DAA8A14,
    0x9284EB15, 0xE86C90E4, 0xA7D46BCD, 0x3086D221], rfl⟩

/-- The quotient `2 ^ 384 * -b₁ / n`, rounded. -/
def g2 : Scalar :=
  ⟨[0x8AC47F71, 0x1571B4AE, 0x9DF506C6, 0x221208AC,
    0x0ABFE4C4, 0x6F547FA9, 0x010E8828, 0xE4437ED6], rfl⟩

/-- Halves `(k₁, k₂)` with `k₁ + k₂ * lambda = k` modulo the order. -/
def split (k : Scalar) : Scalar × Scalar :=
  let c1 := (k.mulShift g1 384).mul minusB1
  let c2 := (k.mulShift g2 384).mul minusB2
  let k2 := c1.add c2
  (k.add (k2.mul minusLambda), k2)

/-- The smaller of a scalar and its negative, and whether the negative was taken. -/
def absolute (k : Scalar) : Scalar × Bool :=
  (select k k.negate k.isHigh, k.isHigh)

end Scalar

end CurveKeys.Secp256k1
