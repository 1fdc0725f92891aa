/-!
The prime field of secp256k1. An element is ten limbs of 26 bits, the last one of 22, stored in
32-bit words; the room left in a word lets sums go without carrying. An element has magnitude `m`
when no limb exceeds `2 * m` times its nominal maximum. Several limb lists stand for the same
residue, and `normalize` picks the canonical one.
-/

namespace CurveKeys.Secp256k1

structure FieldElement where
  l0 : UInt32
  l1 : UInt32
  l2 : UInt32
  l3 : UInt32
  l4 : UInt32
  l5 : UInt32
  l6 : UInt32
  l7 : UInt32
  l8 : UInt32
  l9 : UInt32
deriving DecidableEq

namespace FieldElement

/-- The limbs from the lowest to the highest. -/
def limbs (a : FieldElement) : List UInt32 :=
  [a.l0, a.l1, a.l2, a.l3, a.l4, a.l5, a.l6, a.l7, a.l8, a.l9]

/-- The integer that the limbs spell, in general neither reduced nor below `2 ^ 256`. -/
def toNat (a : FieldElement) : Nat := a.limbs.foldr (fun x n => x.toNat + 0x4000000 * n) 0

/-- The modulus of the field. -/
def prime : Nat := 0xFFFFFFFFFFFFFFFFFFFFFFFFFFFFFFFFFFFFFFFFFFFFFFFFFFFFFFFEFFFFFC2F

theorem prime_eq : prime = 1 <<< 256 - 1 <<< 32 - 977 := by decide

def zero : FieldElement := ⟨0, 0, 0, 0, 0, 0, 0, 0, 0, 0⟩

def one : FieldElement := ⟨1, 0, 0, 0, 0, 0, 0, 0, 0, 0⟩

def ofUInt32 (v : UInt32) : FieldElement :=
  ⟨v &&& 0x3FFFFFF, v >>> 26, 0, 0, 0, 0, 0, 0, 0, 0⟩

def ofUInt64 (v : UInt64) : FieldElement :=
  ⟨v.toUInt32 &&& 0x3FFFFFF, (v >>> 26).toUInt32 &&& 0x3FFFFFF, (v >>> 52).toUInt32,
    0, 0, 0, 0, 0, 0, 0⟩

/-- The sum limb by limb; magnitudes add. -/
def add (a b : FieldElement) : FieldElement :=
  ⟨a.l0 + b.l0, a.l1 + b.l1, a.l2 + b.l2, a.l3 + b.l3, a.l4 + b.l4,
    a.l5 + b.l5, a.l6 + b.l6, a.l7 + b.l7, a.l8 + b.l8, a.l9 + b.l9⟩

def addInt (a : FieldElement) (v : UInt32) : FieldElement := { a with l0 := a.l0 + v }

/-- The product with a small integer, limb by limb; the magnitude is multiplied. -/
def mulInt (a : FieldElement) (v : UInt32) : FieldElement :=
  ⟨a.l0 * v, a.l1 * v, a.l2 * v, a.l3 * v, a.l4 * v,
    a.l5 * v, a.l6 * v, a.l7 * v, a.l8 * v, a.l9 * v⟩

def double (a : FieldElement) : FieldElement := a.mulInt 2

/-- The multiple `2 * (magnitude + 1)` of the modulus less the element. An element of at most the
given magnitude has no limb above that multiple's, and the result has magnitude one more. -/
def negate (a : FieldElement) (magnitude : UInt32) : FieldElement :=
  let m := 2 * (magnitude + 1)
  ⟨0x3FFFC2F * m - a.l0, 0x3FFFFBF * m - a.l1, 0x3FFFFFF * m - a.l2, 0x3FFFFFF * m - a.l3,
    0x3FFFFFF * m - a.l4, 0x3FFFFFF * m - a.l5, 0x3FFFFFF * m - a.l6,
    0x3FFFFFF * m - a.l7, 0x3FFFFFF * m - a.l8, 0x3FFFFF * m - a.l9⟩

/-- Adds `x * (2 ^ 256 - p)` to the two lowest limbs and carries through to the last. -/
def addCorrection (a : FieldElement) (x : UInt32) : FieldElement :=
  let t0 := a.l0 + x * 977
  let t1 := a.l1 + x <<< 6 + t0 >>> 26
  let t2 := a.l2 + t1 >>> 26
  let t3 := a.l3 + t2 >>> 26
  let t4 := a.l4 + t3 >>> 26
  let t5 := a.l5 + t4 >>> 26
  let t6 := a.l6 + t5 >>> 26
  let t7 := a.l7 + t6 >>> 26
  let t8 := a.l8 + t7 >>> 26
  let t9 := a.l9 + t8 >>> 26
  ⟨t0 &&& 0x3FFFFFF, t1 &&& 0x3FFFFFF, t2 &&& 0x3FFFFFF, t3 &&& 0x3FFFFFF, t4 &&& 0x3FFFFFF,
    t5 &&& 0x3FFFFFF, t6 &&& 0x3FFFFFF, t7 &&& 0x3FFFFFF, t8 &&& 0x3FFFFFF, t9⟩

/-- Brings the magnitude to 1: what stands above bit 256 is folded into the low limbs. -/
def normalizeWeak (a : FieldElement) : FieldElement :=
  { a with l9 := a.l9 &&& 0x3FFFFF }.addCorrection (a.l9 >>> 22)

/-- True of a weakly normalized element that is the modulus or more, which includes any that
reaches bit 256. -/
def overflows (a : FieldElement) : Bool :=
  let mid := a.l2 &&& a.l3 &&& a.l4 &&& a.l5 &&& a.l6 &&& a.l7 &&& a.l8
  let sum := a.l0 + 977
  let low := a.l1 + sum >>> 26 + 64
  a.l9 >>> 22 != 0 || (a.l9 == 0x3FFFFF && mid == 0x3FFFFFF && 0x3FFFFFF < low)

/-- The canonical limbs of the residue, which is below the modulus. -/
def normalize (a : FieldElement) : FieldElement :=
  let w := a.normalizeWeak
  if w.overflows then
    let c := w.addCorrection 1
    { c with l9 := c.l9 &&& 0x3FFFFF }
  else
    w

/-- Decides whether the residue is zero. After a weak normalization only the limbs of zero and
those of the modulus stand for it. -/
def isZeroResidue (a : FieldElement) : Bool :=
  let t := a.normalizeWeak
  let bits := t.l0 ||| t.l1 ||| t.l2 ||| t.l3 ||| t.l4 ||| t.l5 ||| t.l6 ||| t.l7 ||| t.l8 ||| t.l9
  let ones := (t.l0 ^^^ 0x3D0) &&& (t.l1 ^^^ 0x40) &&& t.l2 &&& t.l3 &&& t.l4 &&& t.l5 &&& t.l6 &&&
    t.l7 &&& t.l8 &&& (t.l9 ^^^ 0x3C00000)
  bits == 0 || ones == 0x3FFFFFF

/-- Of a normalized element. -/
def isZero (a : FieldElement) : Bool := a == zero

/-- Parity, of a normalized element. -/
def isOdd (a : FieldElement) : Bool := a.l0 &&& 1 == 1

/-- The modulus of the field less the order of the group. -/
def primeMinusOrder : FieldElement :=
  ⟨0x3C9BAEE, 0x3685C8B, 0x1FC4402, 0x06542DD, 0x1455123, 0, 0, 0, 0, 0⟩

/-- Compares two limb lists of one length, highest limb first; the first that differs decides. -/
def notBelow : List UInt32 → List UInt32 → Bool
  | x :: xs, y :: ys => x > y || (x == y && notBelow xs ys)
  | _, _ => true

/-- Of a normalized element: is it at least the modulus less the group order? -/
def isAtLeastPrimeMinusOrder (a : FieldElement) : Bool :=
  notBelow a.limbs.reverse primeMinusOrder.limbs.reverse

end FieldElement

end CurveKeys.Secp256k1
