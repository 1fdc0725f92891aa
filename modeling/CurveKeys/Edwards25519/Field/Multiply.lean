import CurveKeys.Edwards25519.Field.Basic
import CurveKeys.UInt128

/-!
Products modulo `2 ^ 255 - 19`. A product of limbs that lands above bit 255 comes back multiplied
by 19; the five column sums fit 128 bits and are carried back to 51.
-/

namespace CurveKeys.Edwards25519.FieldElement

/-- Carries five column sums into limbs. -/
def ofColumns (r0 r1 r2 r3 r4 : UInt128) : FieldElement :=
  (FieldElement.mk (r0.low51 + r4.high51 * 19) (r1.low51 + r0.high51) (r2.low51 + r1.high51)
    (r3.low51 + r2.high51) (r4.low51 + r3.high51)).carry

def mul (a b : FieldElement) : FieldElement :=
  let w1 := b.l1 * 19
  let w2 := b.l2 * 19
  let w3 := b.l3 * 19
  let w4 := b.l4 * 19
  let r0 := UInt128.product a.l0 b.l0 + UInt128.product a.l1 w4 + UInt128.product a.l2 w3 +
    UInt128.product a.l3 w2 + UInt128.product a.l4 w1
  let r1 := UInt128.product a.l0 b.l1 + UInt128.product a.l1 b.l0 + UInt128.product a.l2 w4 +
    UInt128.product a.l3 w3 + UInt128.product a.l4 w2
  let r2 := UInt128.product a.l0 b.l2 + UInt128.product a.l1 b.l1 + UInt128.product a.l2 b.l0 +
    UInt128.product a.l3 w4 + UInt128.product a.l4 w3
  let r3 := UInt128.product a.l0 b.l3 + UInt128.product a.l1 b.l2 + UInt128.product a.l2 b.l1 +
    UInt128.product a.l3 b.l0 + UInt128.product a.l4 w4
  let r4 := UInt128.product a.l0 b.l4 + UInt128.product a.l1 b.l3 + UInt128.product a.l2 b.l2 +
    UInt128.product a.l3 b.l1 + UInt128.product a.l4 b.l0
  ofColumns r0 r1 r2 r3 r4

/-- The product of an element with itself, with equal products of limbs taken once. -/
def square (a : FieldElement) : FieldElement :=
  let d0 := a.l0 * 2
  let d1 := a.l1 * 2
  let w1 := a.l1 * 38
  let w2 := a.l2 * 38
  let w3 := a.l3 * 38
  let v3 := a.l3 * 19
  let v4 := a.l4 * 19
  let r0 := UInt128.product a.l0 a.l0 + UInt128.product w1 a.l4 + UInt128.product w2 a.l3
  let r1 := UInt128.product d0 a.l1 + UInt128.product w2 a.l4 + UInt128.product v3 a.l3
  let r2 := UInt128.product d0 a.l2 + UInt128.product a.l1 a.l1 + UInt128.product w3 a.l4
  let r3 := UInt128.product d0 a.l3 + UInt128.product d1 a.l2 + UInt128.product v4 a.l4
  let r4 := UInt128.product d0 a.l4 + UInt128.product d1 a.l3 + UInt128.product a.l2 a.l2
  ofColumns r0 r1 r2 r3 r4

/-- The power `a ^ (2 ^ k)`. -/
def squareTimes (a : FieldElement) : Nat → FieldElement
  | 0 => a
  | k + 1 => a.square.squareTimes k

end CurveKeys.Edwards25519.FieldElement
