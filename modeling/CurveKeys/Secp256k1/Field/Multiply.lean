import CurveKeys.Secp256k1.Field.Basic

/-!
Products of field elements. The schoolbook columns of two elements of magnitude at most 8 fit
64-bit words and are carried down to twenty terms of 26 bits. The ten high terms start at bit 260
and fold back by `2 ^ 260 = 16 * (2 ^ 32 + 977)`; what is then still above bit 256 folds once more.
-/

namespace CurveKeys.Secp256k1

/-- The integer `t0 + 2 ^ 26 * t1 + …` of a product, with every term but the last below `2 ^ 26`. -/
structure ProductTerms where
  t0 : UInt64
  t1 : UInt64
  t2 : UInt64
  t3 : UInt64
  t4 : UInt64
  t5 : UInt64
  t6 : UInt64
  t7 : UInt64
  t8 : UInt64
  t9 : UInt64
  t10 : UInt64
  t11 : UInt64
  t12 : UInt64
  t13 : UInt64
  t14 : UInt64
  t15 : UInt64
  t16 : UInt64
  t17 : UInt64
  t18 : UInt64
  t19 : UInt64
deriving DecidableEq

namespace ProductTerms

/-- The terms from the lowest to the highest. -/
def terms (t : ProductTerms) : List UInt64 :=
  [t.t0, t.t1, t.t2, t.t3, t.t4, t.t5, t.t6, t.t7, t.t8, t.t9, t.t10, t.t11, t.t12, t.t13, t.t14,
    t.t15, t.t16, t.t17, t.t18, t.t19]

def toNat (t : ProductTerms) : Nat := t.terms.foldr (fun x n => x.toNat + 0x4000000 * n) 0

end ProductTerms

namespace FieldElement

@[inline] def limbProduct (x y : UInt32) : UInt64 := x.toUInt64 * y.toUInt64

/-- The schoolbook columns, each carried into the next. -/
def mulTerms (a b : FieldElement) : ProductTerms :=
  let c0 := limbProduct a.l0 b.l0
  let c1 := c0 >>> 26 + limbProduct a.l0 b.l1 + limbProduct a.l1 b.l0
  let c2 := c1 >>> 26 + limbProduct a.l0 b.l2 + limbProduct a.l1 b.l1 + limbProduct a.l2 b.l0
  let c3 := c2 >>> 26 + limbProduct a.l0 b.l3 + limbProduct a.l1 b.l2 + limbProduct a.l2 b.l1 +
    limbProduct a.l3 b.l0
  let c4 := c3 >>> 26 + limbProduct a.l0 b.l4 + limbProduct a.l1 b.l3 + limbProduct a.l2 b.l2 +
    limbProduct a.l3 b.l1 + limbProduct a.l4 b.l0
  let c5 := c4 >>> 26 + limbProduct a.l0 b.l5 + limbProduct a.l1 b.l4 + limbProduct a.l2 b.l3 +
    limbProduct a.l3 b.l2 + limbProduct a.l4 b.l1 + limbProduct a.l5 b.l0
  let c6 := c5 >>> 26 + limbProduct a.l0 b.l6 + limbProduct a.l1 b.l5 + limbProduct a.l2 b.l4 +
    limbProduct a.l3 b.l3 + limbProduct a.l4 b.l2 + limbProduct a.l5 b.l1 + limbProduct a.l6 b.l0
  let c7 := c6 >>> 26 + limbProduct a.l0 b.l7 + limbProduct a.l1 b.l6 + limbProduct a.l2 b.l5 +
    limbProduct a.l3 b.l4 + limbProduct a.l4 b.l3 + limbProduct a.l5 b.l2 +
    limbProduct a.l6 b.l1 + limbProduct a.l7 b.l0
  let c8 := c7 >>> 26 + limbProduct a.l0 b.l8 + limbProduct a.l1 b.l7 + limbProduct a.l2 b.l6 +
    limbProduct a.l3 b.l5 + limbProduct a.l4 b.l4 + limbProduct a.l5 b.l3 +
    limbProduct a.l6 b.l2 + limbProduct a.l7 b.l1 + limbProduct a.l8 b.l0
  let c9 := c8 >>> 26 + limbProduct a.l0 b.l9 + limbProduct a.l1 b.l8 + limbProduct a.l2 b.l7 +
    limbProduct a.l3 b.l6 + limbProduct a.l4 b.l5 + limbProduct a.l5 b.l4 +
    limbProduct a.l6 b.l3 + limbProduct a.l7 b.l2 + limbProduct a.l8 b.l1 + limbProduct a.l9 b.l0
  let c10 := c9 >>> 26 + limbProduct a.l1 b.l9 + limbProduct a.l2 b.l8 + limbProduct a.l3 b.l7 +
    limbProduct a.l4 b.l6 + limbProduct a.l5 b.l5 + limbProduct a.l6 b.l4 +
    limbProduct a.l7 b.l3 + limbProduct a.l8 b.l2 + limbProduct a.l9 b.l1
  let c11 := c10 >>> 26 + limbProduct a.l2 b.l9 + limbProduct a.l3 b.l8 + limbProduct a.l4 b.l7 +
    limbProduct a.l5 b.l6 + limbProduct a.l6 b.l5 + limbProduct a.l7 b.l4 +
    limbProduct a.l8 b.l3 + limbProduct a.l9 b.l2
  let c12 := c11 >>> 26 + limbProduct a.l3 b.l9 + limbProduct a.l4 b.l8 + limbProduct a.l5 b.l7 +
    limbProduct a.l6 b.l6 + limbProduct a.l7 b.l5 + limbProduct a.l8 b.l4 + limbProduct a.l9 b.l3
  let c13 := c12 >>> 26 + limbProduct a.l4 b.l9 + limbProduct a.l5 b.l8 + limbProduct a.l6 b.l7 +
    limbProduct a.l7 b.l6 + limbProduct a.l8 b.l5 + limbProduct a.l9 b.l4
  let c14 := c13 >>> 26 + limbProduct a.l5 b.l9 + limbProduct a.l6 b.l8 + limbProduct a.l7 b.l7 +
    limbProduct a.l8 b.l6 + limbProduct a.l9 b.l5
  let c15 := c14 >>> 26 + limbProduct a.l6 b.l9 + limbProduct a.l7 b.l8 + limbProduct a.l8 b.l7 +
    limbProduct a.l9 b.l6
  let c16 := c15 >>> 26 + limbProduct a.l7 b.l9 + limbProduct a.l8 b.l8 + limbProduct a.l9 b.l7
  let c17 := c16 >>> 26 + limbProduct a.l8 b.l9 + limbProduct a.l9 b.l8
  let c18 := c17 >>> 26 + limbProduct a.l9 b.l9
  ⟨c0 &&& 0x3FFFFFF, c1 &&& 0x3FFFFFF, c2 &&& 0x3FFFFFF, c3 &&& 0x3FFFFFF, c4 &&& 0x3FFFFFF,
    c5 &&& 0x3FFFFFF, c6 &&& 0x3FFFFFF, c7 &&& 0x3FFFFFF, c8 &&& 0x3FFFFFF, c9 &&& 0x3FFFFFF,
    c10 &&& 0x3FFFFFF, c11 &&& 0x3FFFFFF, c12 &&& 0x3FFFFFF, c13 &&& 0x3FFFFFF, c14 &&& 0x3FFFFFF,
    c15 &&& 0x3FFFFFF, c16 &&& 0x3FFFFFF, c17 &&& 0x3FFFFFF, c18 &&& 0x3FFFFFF, c18 >>> 26⟩

/-- The factors that bring terms from bit 260 down: 16 times 977, 16 times 64 one limb higher, and
both together for the topmost term. -/
def foldLow : UInt64 := 15632

@[inherit_doc foldLow]
def foldHigh : UInt64 := 1024

@[inherit_doc foldLow]
def foldTop : UInt64 := 68719492368

/-- An element of magnitude 1 with the residue of the terms. -/
def ofTerms (t : ProductTerms) : FieldElement :=
  let v0 := t.t0 + t.t10 * foldLow
  let v1 := v0 >>> 26 + t.t1 + t.t11 * foldLow + t.t10 * foldHigh
  let v2 := v1 >>> 26 + t.t2 + t.t12 * foldLow + t.t11 * foldHigh
  let v3 := v2 >>> 26 + t.t3 + t.t13 * foldLow + t.t12 * foldHigh
  let v4 := v3 >>> 26 + t.t4 + t.t14 * foldLow + t.t13 * foldHigh
  let v5 := v4 >>> 26 + t.t5 + t.t15 * foldLow + t.t14 * foldHigh
  let v6 := v5 >>> 26 + t.t6 + t.t16 * foldLow + t.t15 * foldHigh
  let v7 := v6 >>> 26 + t.t7 + t.t17 * foldLow + t.t16 * foldHigh
  let v8 := v7 >>> 26 + t.t8 + t.t18 * foldLow + t.t17 * foldHigh
  let v9 := v8 >>> 26 + t.t9 + t.t18 * foldHigh + t.t19 * foldTop
  let excess := v9 >>> 22
  let d0 := (v0 &&& 0x3FFFFFF) + excess * 977
  let d1 := d0 >>> 26 + (v1 &&& 0x3FFFFFF) + excess * 64
  let d2 := d1 >>> 26 + (v2 &&& 0x3FFFFFF)
  ⟨(d0 &&& 0x3FFFFFF).toUInt32, (d1 &&& 0x3FFFFFF).toUInt32, d2.toUInt32,
    (v3 &&& 0x3FFFFFF).toUInt32, (v4 &&& 0x3FFFFFF).toUInt32, (v5 &&& 0x3FFFFFF).toUInt32,
    (v6 &&& 0x3FFFFFF).toUInt32, (v7 &&& 0x3FFFFFF).toUInt32, (v8 &&& 0x3FFFFFF).toUInt32,
    (v9 &&& 0x3FFFFF).toUInt32⟩

/-- The product of elements of magnitude at most 8; it has magnitude 1. -/
def mul (a b : FieldElement) : FieldElement := ofTerms (mulTerms a b)

def square (a : FieldElement) : FieldElement := a.mul a

/-- The power `a ^ (2 ^ k)`. -/
def squareTimes (a : FieldElement) : Nat → FieldElement
  | 0 => a
  | k + 1 => a.square.squareTimes k

end FieldElement

end CurveKeys.Secp256k1
