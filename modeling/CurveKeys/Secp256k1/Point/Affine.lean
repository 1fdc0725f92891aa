import CurveKeys.Select
import CurveKeys.Secp256k1.Field.Root

/-!
Points of the curve `y² = x³ + 7` in affine coordinates, which are always normalized. The point at
infinity is written `(0, 0)`, which does not satisfy the equation.
-/

namespace CurveKeys.Secp256k1

structure AffinePoint where
  x : FieldElement
  y : FieldElement
deriving DecidableEq

namespace AffinePoint

def identity : AffinePoint := ⟨.zero, .zero⟩

/-- The base point of the group. -/
def generator : AffinePoint where
  x := ⟨0x2F81798, 0x0A056C5, 0x28D959F, 0x36CB738, 0x3029BFC, 0x3A1C2C1, 0x206295C, 0x2EEB156,
    0x27EF9DC, 0x1E6F99⟩
  y := ⟨0x310D4B8, 0x1F423FE, 0x14199C4, 0x1229A15, 0x0FD17B4, 0x384422A, 0x24FBFC0, 0x3119576,
    0x27726A3, 0x120EB6⟩

theorem toNat_generator_x : generator.x.toNat =
    0x79BE667EF9DCBBAC55A06295CE870B07029BFCDB2DCE28D959F2815B16F81798 := by decide

theorem toNat_generator_y : generator.y.toNat =
    0x483ADA7726A3C4655DA4FBFC0E1108A8FD17B448A68554199C47D08FFB10D4B8 := by decide

/-- The constant term of the curve equation. -/
def seven : FieldElement := .ofUInt32 7

def isIdentity (p : AffinePoint) : Bool := p.x.isZero && p.y.isZero

def isOnCurve (p : AffinePoint) : Bool :=
  let rhs := (p.x.square.mul p.x).add seven
  ((p.y.square.negate 1).add rhs).isZeroResidue

/-- The point with these coordinates, if it is on the curve. -/
def ofCoordinates? (x y : FieldElement) : Option AffinePoint :=
  let p : AffinePoint := ⟨x.normalize, y.normalize⟩
  if p.isOnCurve then some p else none

/-- The second coordinate of the given parity over the first coordinate `x`, if there is one. -/
def yOf? (x : FieldElement) (odd : Bool) : Option FieldElement :=
  ((x.square.mul x).add seven).sqrt?.map fun root =>
    let y := root.normalize
    select y (y.negate 1).normalize (y.isOdd != odd)

/-- The point over a first coordinate whose second coordinate has the given parity. -/
def decompress? (x : FieldElement) (odd : Bool) : Option AffinePoint :=
  let x := x.normalize
  (yOf? x odd).map fun y => ⟨x, y⟩

def negate (p : AffinePoint) : AffinePoint := ⟨p.x, (p.y.negate 1).normalize⟩

end AffinePoint

end CurveKeys.Secp256k1
