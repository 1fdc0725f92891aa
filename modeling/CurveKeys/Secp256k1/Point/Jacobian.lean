import CurveKeys.Secp256k1.Point.Affine

/-!
Points of the curve in Jacobian coordinates: `(X, Y, Z)` stands for `(X / Z², Y / Z³)`, and for the
point at infinity when `Z` is zero. All coordinates have magnitude 1. Addition and doubling come
in a form without branches and in a form that returns early on the special cases.
-/

namespace CurveKeys.Secp256k1

structure JacobianPoint where
  x : FieldElement
  y : FieldElement
  z : FieldElement

namespace JacobianPoint

def identity : JacobianPoint := ⟨.zero, .one, .zero⟩

def generator : JacobianPoint := ⟨AffinePoint.generator.x, AffinePoint.generator.y, .one⟩

/-- The pair `(0, 0)` becomes the point at infinity. -/
def ofAffine (p : AffinePoint) : JacobianPoint :=
  if p.isIdentity then identity else ⟨p.x, p.y, .one⟩

/-- The point at infinity becomes `(0, 0)`. -/
def toAffine (p : JacobianPoint) : AffinePoint :=
  let zinv := p.z.invert
  let zinv2 := zinv.square
  ⟨(p.x.mul zinv2).normalize, ((p.y.mul zinv2).mul zinv).normalize⟩

def isIdentity (p : JacobianPoint) : Bool := p.z.isZeroResidue

def negate (p : JacobianPoint) : JacobianPoint := { p with y := (p.y.negate 1).normalizeWeak }

/-- A cube root of unity in the field, other than one. -/
def beta : FieldElement :=
  ⟨0x19501EE, 0x25B0A1C, 0x0995C13, 0x1D44BD6, 0x19CF049, 0x30D0D3A, 0x24479EA, 0x01C41B9,
    0x22B657C, 0x1EBA5A⟩

theorem beta_mul_beta_mul_beta :
    beta.toNat * beta.toNat * beta.toNat % FieldElement.prime = 1 := by decide

/-- The endomorphism `(x, y) ↦ (βx, y)`, which multiplies by an eigenvalue modulo the order. -/
def endomorphism (p : JacobianPoint) : JacobianPoint := { p with x := p.x.mul beta }

/-- The double of a point. The point at infinity doubles to itself, since `Z₃ = 2 Y Z`. -/
def double (p : JacobianPoint) : JacobianPoint :=
  let a := p.x.square
  let b := p.y.square
  let c := b.square
  let cross := ((p.x.add b).square.add (a.negate 1)).add (c.negate 1)
  let d := cross.normalizeWeak.double
  let e := a.mulInt 3
  let f := e.square
  let x := (f.add (d.double.negate 4)).normalizeWeak
  let y := ((e.mul (d.add (x.negate 1))).add ((c.mulInt 8).negate 8)).normalizeWeak
  let z := (p.y.mul p.z).double.normalizeWeak
  ⟨x, y, z⟩

/-- Returns early on the point at infinity. -/
def doubleVar (p : JacobianPoint) : JacobianPoint :=
  if p.isIdentity then identity else p.double

/-- The sum by the generic formulas, and whether the differences of the first and of the second
coordinates, brought to a common denominator, vanish. If both do the formulas do not apply. -/
def addFormula (p q : JacobianPoint) : JacobianPoint × Bool × Bool :=
  let z1z1 := p.z.square
  let z2z2 := q.z.square
  let u1 := p.x.mul z2z2
  let u2 := q.x.mul z1z1
  let s1 := (p.y.mul q.z).mul z2z2
  let s2 := (q.y.mul p.z).mul z1z1
  let h := u2.add (u1.negate 1)
  let rHalf := s2.add (s1.negate 1)
  let i := h.double.square
  let j := h.mul i
  let r := rHalf.double
  let v := u1.mul i
  let x := ((r.square.add (j.negate 1)).add (v.double.negate 2)).normalizeWeak
  let y := ((r.mul (v.add (x.negate 1))).add ((s1.mul j).double.negate 2)).normalizeWeak
  let z := (((p.z.add q.z).square.add (z1z1.negate 1)).add (z2z2.negate 1)).mul h
  (⟨x, y, z⟩, h.isZeroResidue, rHalf.isZeroResidue)

/-- The sum of any two points. Opposite points need no case: the generic formulas give `Z₃ = 0`. -/
def add (p q : JacobianPoint) : JacobianPoint :=
  let (sum, sameX, sameY) := addFormula p q
  let sum := select sum p.double (sameX && sameY)
  let sum := select sum q p.isIdentity
  select sum p q.isIdentity

/-- The sum of any two points, branching on the special cases. -/
def addVar (p q : JacobianPoint) : JacobianPoint :=
  if p.isIdentity then q
  else if q.isIdentity then p
  else
    let (sum, sameX, sameY) := addFormula p q
    if sameX then
      if sameY then p.double else identity
    else
      sum

def sub (p q : JacobianPoint) : JacobianPoint := p.add q.negate

/-- Decides whether two coordinate triples stand for the same point. -/
def same (p q : JacobianPoint) : Bool :=
  let z1z1 := p.z.square
  let z2z2 := q.z.square
  let x1 := p.x.mul z2z2
  let x2 := q.x.mul z1z1
  let y1 := (p.y.mul z2z2).mul q.z
  let y2 := (q.y.mul z1z1).mul p.z
  let sameX := ((x1.negate 1).add x2).isZeroResidue
  let sameY := ((y1.negate 1).add y2).isZeroResidue
  (p.isIdentity && q.isIdentity) || (!p.isIdentity && !q.isIdentity && sameX && sameY)

instance : BEq JacobianPoint := ⟨same⟩

end JacobianPoint

end CurveKeys.Secp256k1
