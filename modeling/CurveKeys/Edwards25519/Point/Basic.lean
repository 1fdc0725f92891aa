import CurveKeys.Edwards25519.Error
import CurveKeys.Edwards25519.Field.Root

/-!
Points of the curve `-x² + y² = 1 + d x² y²` in extended coordinates `(X : Y : Z : T)`, with
`x = X / Z`, `y = Y / Z` and `x y = T / Z`, and their encoding in 32 bytes: `y`, with the parity of
`x` in the top bit. Decoding accepts a `y` that is not reduced and a set top bit where `x = 0`.
-/

namespace CurveKeys.Edwards25519

structure Point where
  x : FieldElement
  y : FieldElement
  z : FieldElement
  t : FieldElement

namespace Point

def identity : Point := ⟨.zero, .one, .one, .zero⟩

/-- The base point, with `y = 4 / 5` and even `x`. -/
def generator : Point where
  x := ⟨1738742601995546, 1146398526822698, 2070867633025821, 562264141797630, 587772402128613⟩
  y := ⟨1801439850948184, 1351079888211148, 450359962737049, 900719925474099, 1801439850948198⟩
  z := .one
  t := ⟨1841354044333475, 16398895984059, 755974180946558, 900171276175154, 1821297809914039⟩

/-- The square of `x` is `(y² - 1) / (d y² + 1)`. -/
def ofBytes (b : Vector UInt8 32) : Except Error Point :=
  let y := FieldElement.ofBytes b
  let y2 := y.square
  let u := y2.sub .one
  let v := (y2.mul .d).add .one
  let (root, wasSquare) := FieldElement.sqrtRatio u v
  if wasSquare then
    let x := root.negateIf (Bytes.byteAt b 31 >>> 7 == 1)
    .ok ⟨x, y, .one, x.mul y⟩
  else
    .error .invalidPoint

def toBytes (p : Point) : Vector UInt8 32 :=
  let zinv := p.z.invert
  let x := p.x.mul zinv
  let b := (p.y.mul zinv).toBytes
  b.setIfInBounds 31 (Bytes.byteAt b 31 ||| (if x.isNegative then 0x80 else 0))

def negate (p : Point) : Point := { p with x := p.x.negate, t := p.t.negate }

/-- Decides whether two coordinate lists stand for the same point. -/
def same (p q : Point) : Bool :=
  p.x.mul q.z == q.x.mul p.z && p.y.mul q.z == q.y.mul p.z

instance : BEq Point := ⟨same⟩

def isIdentity (p : Point) : Bool := p == identity

end Point

end CurveKeys.Edwards25519
