import CurveKeys.Edwards25519.Error
import CurveKeys.Edwards25519.Scalar.Limbs

/-!
Integers modulo the order of the base point, kept as their canonical little-endian encoding. Every
operation is one fused product and sum.
-/

namespace CurveKeys.Edwards25519

structure Scalar where
  bytes : Vector UInt8 32
deriving DecidableEq

namespace Scalar

def toNat (a : Scalar) : Nat := Bytes.toNatLE a.bytes.toList

def zero : Scalar := ⟨Vector.replicate 32 0⟩

def one : Scalar := ⟨Bytes.window 32 (Bytes.ofNatLE 32 1)⟩

/-- The little-endian bytes of the order. -/
def orderBytes : Bytes := Bytes.ofNatLE 32 Limbs.order

def minusOne : Scalar := ⟨Bytes.window 32 (Bytes.ofNatLE 32 (Limbs.order - 1))⟩

/-- The borrow out of the top byte of a difference of two little-endian strings. -/
def borrowOut : UInt16 → Bytes → Bytes → UInt16
  | borrow, x :: xs, y :: ys => borrowOut ((x.toUInt16 - y.toUInt16 - borrow) >>> 15) xs ys
  | borrow, _, _ => borrow

def isBelowOrder (b : Vector UInt8 32) : Bool := borrowOut 0 b.toList orderBytes != 0

/-- Accepts canonical encodings only. -/
def ofCanonical (b : Vector UInt8 32) : Except Error Scalar :=
  if isBelowOrder b then .ok ⟨b⟩ else .error .nonCanonicalScalar

/-- The little-endian integer modulo the order. -/
def ofWide (b : Vector UInt8 64) : Scalar := ⟨Limbs.reduce (Limbs.load 24 b.toList)⟩

@[inherit_doc ofWide]
def ofBytes (b : Vector UInt8 32) : Scalar :=
  ⟨Limbs.reduce (Limbs.load 24 (b.toList ++ List.replicate 32 0))⟩

/-- Clears the three lowest bits and the top bit and sets the bit below it. -/
def clamp (b : Vector UInt8 32) : Vector UInt8 32 :=
  (b.setIfInBounds 0 (Bytes.byteAt b 0 &&& 248)).setIfInBounds 31 (Bytes.byteAt b 31 &&& 127 ||| 64)

/-- The clamped integer modulo the order. -/
def ofClamped (b : Vector UInt8 32) : Scalar := ofBytes (clamp b)

def ofUInt64 (v : UInt64) : Scalar := ⟨Bytes.window 32 (Bytes.ofNatLE 32 v.toNat)⟩

/-- Draws 64 bytes; the scalar is returned with the bytes that are left. -/
def random? (tape : Bytes) : Option (Scalar × Bytes) :=
  (Bytes.exactly 64 (tape.take 64)).map fun b => (ofWide b, tape.drop 64)

/-- The value `a * b + c`. -/
def mulAdd (a b c : Scalar) : Scalar :=
  let limbs (s : Scalar) := Limbs.load 12 s.bytes.toList
  let sum := Limbs.addProduct (limbs a) (limbs b) (limbs c ++ List.replicate 12 0)
  ⟨Limbs.reduce (Limbs.run Limbs.productSteps sum)⟩

def add (a b : Scalar) : Scalar := mulAdd a one b

def sub (a b : Scalar) : Scalar := mulAdd b minusOne a

def mul (a b : Scalar) : Scalar := mulAdd a b zero

def negate (a : Scalar) : Scalar := mulAdd a minusOne zero

def isZero (a : Scalar) : Bool := a == zero

end Scalar

end CurveKeys.Edwards25519
