import CurveKeys.Edwards25519.VerifyingKey

/-!
Ed25519 secret keys and signing. The hash of the seed gives the clamped secret scalar and the bytes
that nonces are derived from; the seed decides everything, so keys are compared by it.
-/

namespace CurveKeys.Edwards25519

structure SigningKey where
  seed : Vector UInt8 32
  scalar : Scalar
  nonceBytes : Vector UInt8 32
  verifyingKey : VerifyingKey

namespace SigningKey

instance : BEq SigningKey := ⟨fun a b => a.seed == b.seed⟩

def ofSeedWith (hash : WideHash) (seed : Vector UInt8 32) : SigningKey :=
  let h := (hash seed.toList).toList
  let scalar := Scalar.ofClamped (Bytes.window 32 h)
  ⟨seed, scalar, Bytes.window 32 (h.drop 32), .ofPoint (Point.mulBase scalar)⟩

def ofSeed (seed : Vector UInt8 32) : SigningKey := ofSeedWith Sha512.hash seed

def ofSlice (b : Bytes) (hash : WideHash := Sha512.hash) : Except Error SigningKey :=
  match Bytes.exactly 32 b with
  | some seed => .ok (ofSeedWith hash seed)
  | none => .error .invalidLength

/-- Draws a seed of 32 bytes; the key is returned with the bytes that are left. -/
def random? (tape : Bytes) (hash : WideHash := Sha512.hash) : Option (SigningKey × Bytes) :=
  (Bytes.exactly 32 (tape.take 32)).map fun seed => (ofSeedWith hash seed, tape.drop 32)

/-- The key of a seed that is followed by its public key. -/
def ofKeypair (b : Vector UInt8 64) (hash : WideHash := Sha512.hash) : Except Error SigningKey :=
  let key := ofSeedWith hash (Bytes.window 32 b.toList)
  if key.verifyingKey.bytes.toList == b.toList.drop 32 then .ok key
  else .error .mismatchedPublicKey

/-- Reads a seed alone, a seed and its public key, or both and the public key once more. -/
def ofForms (b : Bytes) (hash : WideHash := Sha512.hash) : Except Error SigningKey :=
  if b.length = 32 then ofSlice b hash
  else if b.length = 64 then ofKeypair (Bytes.window 64 b) hash
  else if b.length = 96 then
    if (b.drop 32).take 32 == b.drop 64 then ofKeypair (Bytes.window 64 b) hash
    else .error .mismatchedPublicKey
  else
    .error .invalidLength

/-- The seed and the public key. -/
def toKeypair (key : SigningKey) : Bytes := key.seed.toList ++ key.verifyingKey.bytes.toList

def signWith (hash : WideHash) (key : SigningKey) (message : Bytes) : Signature :=
  let nonce := Scalar.ofWide (hash (key.nonceBytes.toList ++ message))
  let r := (Point.mulBase nonce).toBytes
  let k := challenge hash r key.verifyingKey.bytes message
  ⟨r, (Scalar.mulAdd k key.scalar nonce).bytes⟩

def sign (key : SigningKey) (message : Bytes) : Signature := key.signWith Sha512.hash message

end SigningKey

end CurveKeys.Edwards25519
