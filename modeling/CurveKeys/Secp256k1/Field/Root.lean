import CurveKeys.Secp256k1.Field.Multiply

/-!
Inverses and square roots as powers of an element. Both exponents end in short patterns after 223
one bits, so they share the powers whose exponents are blocks of ones.
-/

namespace CurveKeys.Secp256k1.FieldElement

/-- The powers with exponents of 2, 22 and 223 one bits. -/
structure OnesPowers where
  x2 : FieldElement
  x22 : FieldElement
  x223 : FieldElement

def onesPowers (a : FieldElement) : OnesPowers :=
  let x2 := a.square.mul a
  let x3 := x2.square.mul a
  let x6 := (x3.squareTimes 3).mul x3
  let x9 := (x6.squareTimes 3).mul x3
  let x11 := (x9.squareTimes 2).mul x2
  let x22 := (x11.squareTimes 11).mul x11
  let x44 := (x22.squareTimes 22).mul x22
  let x88 := (x44.squareTimes 44).mul x44
  let x176 := (x88.squareTimes 88).mul x88
  let x220 := (x176.squareTimes 44).mul x44
  ⟨x2, x22, (x220.squareTimes 3).mul x3⟩

/-- The power `a ^ (p - 2)`: the inverse of `a`, and zero for zero. In binary the exponent is 223
ones, a zero, 22 ones and `0000101101`. -/
def invert (a : FieldElement) : FieldElement :=
  let w := a.onesPowers
  let high := (w.x223.squareTimes 23).mul w.x22
  let middle := (((high.squareTimes 5).mul a).squareTimes 3).mul w.x2
  (middle.squareTimes 2).mul a

/-- The power `a ^ ((p + 1) / 4)` if its square is `a`, that is, if `a` has a square root. -/
def sqrt? (a : FieldElement) : Option FieldElement :=
  let w := a.onesPowers
  let high := (w.x223.squareTimes 23).mul w.x22
  let root := ((high.squareTimes 6).mul w.x2).squareTimes 2
  if ((root.square.negate 1).add a).isZeroResidue then some root else none

end CurveKeys.Secp256k1.FieldElement
