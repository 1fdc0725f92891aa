import CurveKeys.Secp256k1.PublicKey

/-!
Secret keys: scalars other than zero.
-/

namespace CurveKeys.Secp256k1

structure SecretKey where
  scalar : Scalar
deriving DecidableEq

namespace SecretKey

def ofScalar (k : Scalar) : Except Error SecretKey :=
  if k.isZero then .error .zeroSecretKey else .ok ⟨k⟩

/-- The big-endian integer modulo the order. -/
def ofBytes (b : Vector UInt8 32) : Except Error SecretKey := ofScalar (Scalar.reduceBytes b).1

/-- The first 32 bytes of a string of any length, reduced modulo the order. -/
def ofSlice (b : Bytes) : Except Error SecretKey := ofScalar (Scalar.reduceSlice b).1

/-- Draws 32 bytes at a time until they spell an integer between 1 and the order. The key is
returned with the bytes that are left; there is none if too few bytes are left before that. -/
def random? (tape : Bytes) : Option (SecretKey × Bytes) :=
  if _ : tape.length < 32 then
    none
  else
    let (k, overflow) := Scalar.reduceSlice tape
    if overflow || k.isZero then random? (tape.drop 32) else some (⟨k⟩, tape.drop 32)
termination_by tape.length
decreasing_by simp; omega

def toBytes (k : SecretKey) : Vector UInt8 32 := k.scalar.toBytes

/-- The multiple of the base point by the key. -/
def publicKey (k : SecretKey) : PublicKey := ⟨(JacobianPoint.mulBase k.scalar).toAffine⟩

/-- The description that keeps the scalar to itself. -/
def description : String := "SecretKey \x7b .. \x7d"

end SecretKey

end CurveKeys.Secp256k1
