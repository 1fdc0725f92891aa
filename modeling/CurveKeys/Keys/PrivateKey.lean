import CurveKeys.Edwards25519.SigningKey
import CurveKeys.Keys.PublicKey
import CurveKeys.Secp256k1.Sign

/-!
Private keys tagged by their algorithm, read from and written to the raw form of each. RSA keys are
carried along without being understood.
-/

namespace CurveKeys.Keys

inductive PrivateKey where
  | rsa (bytes : Bytes)
  | ed25519 (key : Edwards25519.SigningKey)
  | secp256k1 (key : Secp256k1.SecretKey)
  | ecdsa (key : P256.SecretKey)

namespace PrivateKey

def keyType : PrivateKey → KeyType
  | rsa _ => .rsa
  | ed25519 _ => .ed25519
  | secp256k1 _ => .secp256k1
  | ecdsa _ => .ecdsa

/-- The seed and its public key, the scalar, or the document. -/
def raw : PrivateKey → Bytes
  | rsa bytes => bytes
  | ed25519 key => key.toKeypair
  | secp256k1 key => key.toBytes.toList
  | ecdsa key => key.toDocument

/-- Keys are equal when their types and their raw forms are. -/
instance : BEq PrivateKey := ⟨fun a b => a.keyType == b.keyType && a.raw == b.raw⟩

def ofRaw (t : KeyType) (b : Bytes) (hashes : Hashes := .standard) : Except Error PrivateKey :=
  match t with
  | .rsa => .ok (rsa b)
  | .ed25519 => ((Edwards25519.SigningKey.ofForms b hashes.wide).map ed25519).mapError .ed25519
  | .secp256k1 =>
    match Bytes.exactly 32 b with
    | some b => ((Secp256k1.SecretKey.ofBytes b).map secp256k1).mapError .secp256k1
    | none => .error (.secp256k1 .invalidLength)
  | .ecdsa =>
    match P256.SecretKey.ofDocument? b with
    | some key => .ok (ecdsa key)
    | none => .error .backend

/-- The bytes of a signature, if a nonce gave one. -/
def ofSigned (t : KeyType) : Option Bytes → Except Error Bytes
  | some signature => .ok signature
  | none => .error (.nonceExhausted t)

/-- The raw signature of 64 bytes, or the signature in DER. -/
def sign (key : PrivateKey) (message : Bytes) (hashes : Hashes := .standard) :
    Except Error Bytes :=
  match key with
  | rsa _ => .error (.unsupported .rsa)
  | ed25519 key => .ok (key.signWith hashes.wide message).toBytes
  | secp256k1 key =>
    ofSigned .secp256k1 ((key.signMessage message hashes.short hashes.mac).map (·.toDer.bytes))
  | ecdsa key => ofSigned .ecdsa ((key.sign? message).map (·.toDer))

def publicKey : PrivateKey → Except Error PublicKey
  | rsa _ => .error (.unsupported .rsa)
  | ed25519 key => .ok (.ed25519 key.verifyingKey)
  | secp256k1 key => .ok (.secp256k1 key.publicKey)
  | ecdsa key =>
    match key.publicKey? with
    | some key => .ok (.ecdsa key)
    | none => .error .backend

/-- A key drawn from random bytes, with the bytes that are left; none if there were too few. -/
def ofDrawn {α : Type} (tag : α → PrivateKey) : Option (α × Bytes) → Except Error PrivateKey
  | some (key, _) => .ok (tag key)
  | none => .error .randomnessExhausted

/-- A key of the given type from random bytes. -/
def random (t : KeyType) (tape : Bytes) (hashes : Hashes := .standard) :
    Except Error PrivateKey :=
  match t with
  | .rsa => .error (.unsupported .rsa)
  | .ed25519 => ofDrawn ed25519 (Edwards25519.SigningKey.random? tape hashes.wide)
  | .secp256k1 => ofDrawn secp256k1 (Secp256k1.SecretKey.random? tape)
  | .ecdsa => ofDrawn ecdsa (P256.SecretKey.random? tape)

/-- A description that keeps the secret to itself; the other types have none. -/
def description? : PrivateKey → Option String
  | rsa _ => some "Rsa(RsaPrivateKey \x7b .. \x7d)"
  | secp256k1 _ =>
    some ("Secp256k1(Secp256k1PrivateKey(" ++ Secp256k1.SecretKey.description ++ "))")
  | _ => none

end PrivateKey

end CurveKeys.Keys
