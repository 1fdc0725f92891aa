import CurveKeys.Bytes
import CurveKeys.Select

/-!
The field of integers modulo `2 ^ 255 - 19`, in five limbs of 51 bits. Between operations every
limb is below `2 ^ 52`; several limb lists stand for the same residue, and `reduce` picks the one
below the modulus. Equality compares residues.
-/

namespace CurveKeys.Edwards25519

structure FieldElement where
  l0 : UInt64
  l1 : UInt64
  l2 : UInt64
  l3 : UInt64
  l4 : UInt64

namespace FieldElement

/-- The integer that the limbs spell, in general not reduced. -/
def toNat (a : FieldElement) : Nat :=
  [a.l0, a.l1, a.l2, a.l3, a.l4].foldr (fun x n => x.toNat + 0x8000000000000 * n) 0

/-- The modulus of the field. -/
def prime : Nat := 0x7FFFFFFFFFFFFFFFFFFFFFFFFFFFFFFFFFFFFFFFFFFFFFFFFFFFFFFFFFFFFFED

theorem prime_eq : prime = 1 <<< 255 - 19 := by decide

def zero : FieldElement := ⟨0, 0, 0, 0, 0⟩

def one : FieldElement := ⟨1, 0, 0, 0, 0⟩

def minusOne : FieldElement :=
  ⟨2251799813685228, 2251799813685247, 2251799813685247,
    2251799813685247, 2251799813685247⟩

/-- The non-negative square root of -1. -/
def sqrtMinusOne : FieldElement :=
  ⟨1718705420411056, 234908883556509, 2233514472574048,
    2117202627021982, 765476049583133⟩

/-- The constant of the curve equation, `-121665 / 121666`. -/
def d : FieldElement :=
  ⟨929955233495203, 466365720129213, 1662059464998953,
    2033849074728123, 1442794654840575⟩

/-- Twice the constant of the curve equation. -/
def twiceD : FieldElement :=
  ⟨1859910466990425, 932731440258426, 1072319116312658,
    1815898335770999, 633789495995903⟩

theorem toNat_minusOne : minusOne.toNat = prime - 1 := by decide

theorem sqrtMinusOne_mul_sqrtMinusOne :
    (sqrtMinusOne.toNat * sqrtMinusOne.toNat + 1) % prime = 0 := by decide

theorem d_mul : (121666 * d.toNat + 121665) % prime = 0 := by decide

theorem toNat_twiceD : twiceD.toNat = 2 * d.toNat % prime := by decide

/-- The part of a word that stays in its limb. -/
@[inline] def low (x : UInt64) : UInt64 := x &&& 0x7FFFFFFFFFFFF

/-- The part of a word that is carried. -/
@[inline] def high (x : UInt64) : UInt64 := x >>> 51

/-- Carries each limb into the next, and the last into the first by `2 ^ 255 = 19`. The carries
are taken before any is added, so a carry moves by one limb only. -/
def carry (a : FieldElement) : FieldElement :=
  ⟨low a.l0 + high a.l4 * 19, low a.l1 + high a.l0, low a.l2 + high a.l1, low a.l3 + high a.l2,
    low a.l4 + high a.l3⟩

/-- The limbs of the residue below the modulus. After carrying, the modulus has to be taken away
once at most: exactly when adding 19 reaches bit 255. -/
def reduce (a : FieldElement) : FieldElement :=
  let a := a.carry
  let c := high (a.l4 + high (a.l3 + high (a.l2 + high (a.l1 + high (a.l0 + 19)))))
  let t0 := a.l0 + 19 * c
  let t1 := a.l1 + high t0
  let t2 := a.l2 + high t1
  let t3 := a.l3 + high t2
  let t4 := a.l4 + high t3
  ⟨low t0, low t1, low t2, low t3, low t4⟩

def add (a b : FieldElement) : FieldElement :=
  (FieldElement.mk (a.l0 + b.l0) (a.l1 + b.l1) (a.l2 + b.l2) (a.l3 + b.l3) (a.l4 + b.l4)).carry

/-- Twice the modulus is added first, so that no limb falls below zero. -/
def sub (a b : FieldElement) : FieldElement :=
  (FieldElement.mk (a.l0 + 0xFFFFFFFFFFFDA - b.l0) (a.l1 + 0xFFFFFFFFFFFFE - b.l1)
    (a.l2 + 0xFFFFFFFFFFFFE - b.l2) (a.l3 + 0xFFFFFFFFFFFFE - b.l3)
    (a.l4 + 0xFFFFFFFFFFFFE - b.l4)).carry

def negate (a : FieldElement) : FieldElement := zero.sub a

/-- Eight bytes from position `i` on, the least significant one first. -/
def word (b : Vector UInt8 32) (i : Nat) : UInt64 :=
  let x (k : Nat) : UInt64 := (Bytes.byteAt b (i + k)).toUInt64
  x 0 ||| x 1 <<< 8 ||| x 2 <<< 16 ||| x 3 <<< 24 ||| x 4 <<< 32 ||| x 5 <<< 40 ||| x 6 <<< 48 |||
    x 7 <<< 56

/-- The little-endian integer without its top bit; it may be the modulus or more. -/
def ofBytes (b : Vector UInt8 32) : FieldElement :=
  ⟨low (word b 0), low (word b 6 >>> 3), low (word b 12 >>> 6), low (word b 19 >>> 1),
    low (word b 24 >>> 12)⟩

/-- The canonical little-endian encoding. -/
def toBytes (a : FieldElement) : Vector UInt8 32 :=
  let t := a.reduce
  #v[t.l0.toUInt8, (t.l0 >>> 8).toUInt8, (t.l0 >>> 16).toUInt8, (t.l0 >>> 24).toUInt8,
    (t.l0 >>> 32).toUInt8, (t.l0 >>> 40).toUInt8, (t.l0 >>> 48 ||| t.l1 <<< 3).toUInt8,
    (t.l1 >>> 5).toUInt8, (t.l1 >>> 13).toUInt8, (t.l1 >>> 21).toUInt8, (t.l1 >>> 29).toUInt8,
    (t.l1 >>> 37).toUInt8, (t.l1 >>> 45 ||| t.l2 <<< 6).toUInt8, (t.l2 >>> 2).toUInt8,
    (t.l2 >>> 10).toUInt8, (t.l2 >>> 18).toUInt8, (t.l2 >>> 26).toUInt8, (t.l2 >>> 34).toUInt8,
    (t.l2 >>> 42).toUInt8, (t.l2 >>> 50 ||| t.l3 <<< 1).toUInt8, (t.l3 >>> 7).toUInt8,
    (t.l3 >>> 15).toUInt8, (t.l3 >>> 23).toUInt8, (t.l3 >>> 31).toUInt8, (t.l3 >>> 39).toUInt8,
    (t.l3 >>> 47 ||| t.l4 <<< 4).toUInt8, (t.l4 >>> 4).toUInt8, (t.l4 >>> 12).toUInt8,
    (t.l4 >>> 20).toUInt8, (t.l4 >>> 28).toUInt8, (t.l4 >>> 36).toUInt8, (t.l4 >>> 44).toUInt8]

/-- Do two limb lists stand for the same residue? -/
def same (a b : FieldElement) : Bool := a.toBytes == b.toBytes

instance : BEq FieldElement := ⟨same⟩

def isZero (a : FieldElement) : Bool := a == zero

/-- Is the residue odd? Of a residue and its negative, both not zero, one is. -/
def isNegative (a : FieldElement) : Bool := Bytes.byteAt a.toBytes 0 &&& 1 == 1

def negateIf (a : FieldElement) (flag : Bool) : FieldElement := select a a.negate flag

/-- The one of the residue and its negative that is not negative. -/
def abs (a : FieldElement) : FieldElement := a.negateIf a.isNegative

/-- Exchanges the two elements when the flag is set. -/
def swapIf (a b : FieldElement) (flag : Bool) : FieldElement × FieldElement :=
  (select a b flag, select b a flag)

end FieldElement

end CurveKeys.Edwards25519
