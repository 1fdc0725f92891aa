import CurveKeys.Edwards25519.Field.Multiply

/-!
Inverses and square roots of quotients. Both are powers whose exponents begin with 250 one bits.
-/

namespace CurveKeys.Edwards25519.FieldElement

/-- The powers `a ^ 11` and `a ^ (2 ^ 250 - 1)`. -/
def onesPowers (a : FieldElement) : FieldElement × FieldElement :=
  let z2 := a.square
  let z9 := (z2.squareTimes 2).mul a
  let z11 := z9.mul z2
  let x5 := z11.square.mul z9
  let x10 := (x5.squareTimes 5).mul x5
  let x20 := (x10.squareTimes 10).mul x10
  let x40 := (x20.squareTimes 20).mul x20
  let x50 := (x40.squareTimes 10).mul x10
  let x100 := (x50.squareTimes 50).mul x50
  let x200 := (x100.squareTimes 100).mul x100
  (z11, (x200.squareTimes 50).mul x50)

/-- The power `a ^ (p - 2)`: the inverse of `a`, and zero for zero. -/
def invert (a : FieldElement) : FieldElement :=
  let (z11, x250) := a.onesPowers
  (x250.squareTimes 5).mul z11

/-- The power `a ^ ((p - 5) / 8)`, from which square roots are made. -/
def rootPower (a : FieldElement) : FieldElement :=
  (a.onesPowers.2.squareTimes 2).mul a

/-- The non-negative square root of `u / v`, and whether there is one. If there is none, the root
is that of `sqrt(-1) * u / v`. A quotient by zero counts as zero, with a root only for `u = 0`. -/
def sqrtRatio (u v : FieldElement) : FieldElement × Bool :=
  let v2 := v.square
  let uv3 := u.mul (v2.mul v)
  let uv7 := uv3.mul v2.square
  let r := uv3.mul uv7.rootPower
  let check := v.mul r.square
  let minusU := u.negate
  let correct := check == u
  let flipped := check == minusU
  let flippedRoot := check == minusU.mul sqrtMinusOne
  let r := select r (r.mul sqrtMinusOne) (flipped || flippedRoot)
  (r.abs, correct || flipped)

end CurveKeys.Edwards25519.FieldElement
