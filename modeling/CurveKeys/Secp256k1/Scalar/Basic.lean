import CurveKeys.Bytes
import CurveKeys.Secp256k1.Limbs

/-!
Integers modulo the order of the secp256k1 group, in eight limbs. Every operation takes and
returns canonical values, those below the order; sums and differences need one correction.
-/

namespace CurveKeys.Secp256k1

structure Scalar where
  limbs : List UInt32
  length_limbs : limbs.length = 8
deriving DecidableEq

namespace Scalar

def toNat (a : Scalar) : Nat := Limbs.toNat a.limbs

/-- The scalar of the eight lowest limbs; a shorter list is filled with zeros. -/
def ofLimbs (l : List UInt32) : Scalar :=
  ⟨(l ++ List.replicate 8 0).take 8, by simp⟩

def zero : Scalar := ⟨[0, 0, 0, 0, 0, 0, 0, 0], rfl⟩

def one : Scalar := ⟨[1, 0, 0, 0, 0, 0, 0, 0], rfl⟩

/-- The order of the group. -/
def order : Nat := 0xFFFFFFFFFFFFFFFFFFFFFFFFFFFFFFFEBAAEDCE6AF48A03BBFD25E8CD0364141

def orderLimbs : List UInt32 :=
  [0xD0364141, 0xBFD25E8C, 0xAF48A03B, 0xBAAEDCE6, 0xFFFFFFFE, 0xFFFFFFFF, 0xFFFFFFFF, 0xFFFFFFFF]

/-- Half of the order, rounded down. -/
def halfOrderLimbs : List UInt32 :=
  [0x681B20A0, 0xDFE92F46, 0x57A4501D, 0x5D576E73, 0xFFFFFFFF, 0xFFFFFFFF, 0xFFFFFFFF, 0x7FFFFFFF]

theorem toNat_orderLimbs : Limbs.toNat orderLimbs = order := by decide

theorem toNat_halfOrderLimbs : Limbs.toNat halfOrderLimbs = order / 2 := by decide

def ofUInt32 (v : UInt32) : Scalar := ⟨[v, 0, 0, 0, 0, 0, 0, 0], rfl⟩

def ofUInt64 (v : UInt64) : Scalar :=
  ⟨[v.toUInt32, (v >>> 32).toUInt32, 0, 0, 0, 0, 0, 0], rfl⟩

/-- Subtracts the order once if the value, with `carry` as the bit above its limbs, reaches it. -/
def ofOverflow (limbs : List UInt32) (carry : Bool) : Scalar :=
  if carry || Limbs.compare limbs orderLimbs != .lt then
    ofLimbs (Limbs.subBorrow 0 limbs orderLimbs).1
  else
    ofLimbs limbs

/-- The limb spelled by four bytes, the most significant one first. -/
def limbOfBytes (b3 b2 b1 b0 : UInt8) : UInt32 :=
  b3.toUInt32 <<< 24 ||| b2.toUInt32 <<< 16 ||| b1.toUInt32 <<< 8 ||| b0.toUInt32

/-- The limbs of a big-endian string, four bytes to a limb. -/
def limbsOfBytes (b : Vector UInt8 32) : List UInt32 :=
  [28, 24, 20, 16, 12, 8, 4, 0].map fun i =>
    limbOfBytes (Bytes.byteAt b i) (Bytes.byteAt b (i + 1)) (Bytes.byteAt b (i + 2))
      (Bytes.byteAt b (i + 3))

/-- The big-endian integer modulo the order, and whether it was the order or more. -/
def reduceBytes (b : Vector UInt8 32) : Scalar × Bool :=
  let limbs := limbsOfBytes b
  (ofOverflow limbs false, Limbs.compare limbs orderLimbs != .lt)

/-- The first 32 bytes of a string of any length, read as by `reduceBytes`. -/
def reduceSlice (b : Bytes) : Scalar × Bool := reduceBytes (b.window 32)

/-- Accepts canonical encodings only. -/
def ofBytes? (b : Vector UInt8 32) : Option Scalar :=
  let (s, overflow) := reduceBytes b
  if overflow then none else some s

def bytesOfLimb (x : UInt32) : Bytes :=
  [(x >>> 24).toUInt8, (x >>> 16).toUInt8, (x >>> 8).toUInt8, x.toUInt8]

/-- The big-endian encoding. -/
def toBytes (a : Scalar) : Vector UInt8 32 :=
  Bytes.window 32 (a.limbs.reverse.flatMap bytesOfLimb)

def isZero (a : Scalar) : Bool := a == zero

def isOdd (a : Scalar) : Bool := Limbs.bit a.limbs 0

/-- True of the values above half the order. -/
def isHigh (a : Scalar) : Bool := Limbs.compare a.limbs halfOrderLimbs == .gt

def add (a b : Scalar) : Scalar :=
  let (sum, carry) := Limbs.addCarry 0 a.limbs b.limbs
  ofOverflow sum (carry != 0)

/-- Zero is its own negative; any other value is taken from the order. -/
def negate (a : Scalar) : Scalar :=
  if a.isZero then zero else ofLimbs (Limbs.subBorrow 0 orderLimbs a.limbs).1

def sub (a b : Scalar) : Scalar := a.add b.negate

end Scalar

end CurveKeys.Secp256k1
