import CurveKeys.Edwards25519.Point.Basic

/-!
Sums and doubles of points, through coordinate forms that each serve one step. A sum comes out
completed, as `((X : Z), (Y : T))`; a double starts from projective coordinates `(X : Y : Z)`; the
second operand of a sum is kept prepared, in projective or affine form.
-/

namespace CurveKeys.Edwards25519

/-- The point with `x = X / Z` and `y = Y / T`. -/
structure CompletedPoint where
  x : FieldElement
  y : FieldElement
  z : FieldElement
  t : FieldElement

/-- The point with `x = X / Z` and `y = Y / Z`. -/
structure ProjectivePoint where
  x : FieldElement
  y : FieldElement
  z : FieldElement

/-- The values `Y + X`, `Y - X`, `Z` and `2 d T` of an extended point. -/
structure PreparedPoint where
  yPlusX : FieldElement
  yMinusX : FieldElement
  z : FieldElement
  t2d : FieldElement

/-- The values `y + x`, `y - x` and `2 d x y` of a point. -/
structure PreparedAffine where
  yPlusX : FieldElement
  yMinusX : FieldElement
  t2d : FieldElement

namespace CompletedPoint

def toExtended (p : CompletedPoint) : Point :=
  ⟨p.x.mul p.t, p.y.mul p.z, p.z.mul p.t, p.x.mul p.y⟩

def toProjective (p : CompletedPoint) : ProjectivePoint :=
  ⟨p.x.mul p.t, p.y.mul p.z, p.z.mul p.t⟩

end CompletedPoint

namespace ProjectivePoint

def identity : ProjectivePoint := ⟨.zero, .one, .one⟩

def ofExtended (p : Point) : ProjectivePoint := ⟨p.x, p.y, p.z⟩

def toExtended (p : ProjectivePoint) : Point :=
  ⟨p.x.mul p.z, p.y.mul p.z, p.z.square, p.x.mul p.y⟩

def double (p : ProjectivePoint) : CompletedPoint :=
  let xx := p.x.square
  let yy := p.y.square
  let zz := p.z.square
  let y := yy.add xx
  let z := yy.sub xx
  ⟨(p.x.add p.y).square.sub y, y, z, (zz.add zz).sub z⟩

/-- The double taken `k` times. -/
def doubleTimes (p : ProjectivePoint) : Nat → ProjectivePoint
  | 0 => p
  | k + 1 => p.double.toProjective.doubleTimes k

end ProjectivePoint

namespace PreparedPoint

def identity : PreparedPoint := ⟨.one, .one, .one, .zero⟩

def ofExtended (p : Point) : PreparedPoint :=
  ⟨p.y.add p.x, p.y.sub p.x, p.z, p.t.mul .twiceD⟩

def negate (q : PreparedPoint) : PreparedPoint := ⟨q.yMinusX, q.yPlusX, q.z, q.t2d.negate⟩

/-- The sum `p + q`. -/
def addTo (q : PreparedPoint) (p : Point) : CompletedPoint :=
  let pp := (p.y.add p.x).mul q.yPlusX
  let mm := (p.y.sub p.x).mul q.yMinusX
  let tt := p.t.mul q.t2d
  let zz := p.z.mul q.z
  let zz2 := zz.add zz
  ⟨pp.sub mm, pp.add mm, zz2.add tt, zz2.sub tt⟩

/-- The difference `p - q`. -/
def subFrom (q : PreparedPoint) (p : Point) : CompletedPoint :=
  let pp := (p.y.add p.x).mul q.yMinusX
  let mm := (p.y.sub p.x).mul q.yPlusX
  let tt := p.t.mul q.t2d
  let zz := p.z.mul q.z
  let zz2 := zz.add zz
  ⟨pp.sub mm, pp.add mm, zz2.sub tt, zz2.add tt⟩

end PreparedPoint

namespace PreparedAffine

def identity : PreparedAffine := ⟨.one, .one, .zero⟩

def ofExtended (p : Point) : PreparedAffine :=
  let zinv := p.z.invert
  ⟨(p.y.add p.x).mul zinv, (p.y.sub p.x).mul zinv, (p.t.mul .twiceD).mul zinv⟩

def negate (q : PreparedAffine) : PreparedAffine := ⟨q.yMinusX, q.yPlusX, q.t2d.negate⟩

/-- The sum `p + q`. -/
def addTo (q : PreparedAffine) (p : Point) : CompletedPoint :=
  let pp := (p.y.add p.x).mul q.yPlusX
  let mm := (p.y.sub p.x).mul q.yMinusX
  let tt := p.t.mul q.t2d
  let z2 := p.z.add p.z
  ⟨pp.sub mm, pp.add mm, z2.add tt, z2.sub tt⟩

/-- The difference `p - q`. -/
def subFrom (q : PreparedAffine) (p : Point) : CompletedPoint :=
  let pp := (p.y.add p.x).mul q.yMinusX
  let mm := (p.y.sub p.x).mul q.yPlusX
  let tt := p.t.mul q.t2d
  let z2 := p.z.add p.z
  ⟨pp.sub mm, pp.add mm, z2.sub tt, z2.add tt⟩

end PreparedAffine

namespace Point

def add (p q : Point) : Point := ((PreparedPoint.ofExtended q).addTo p).toExtended

def sub (p q : Point) : Point := ((PreparedPoint.ofExtended q).subFrom p).toExtended

def double (p : Point) : Point := (ProjectivePoint.ofExtended p).double.toExtended

end Point

end CurveKeys.Edwards25519
