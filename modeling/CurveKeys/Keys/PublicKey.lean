import CurveKeys.Edwards25519.VerifyingKey
import CurveKeys.Keys.Error
import CurveKeys.P256.Ecdsa
import CurveKeys.Secp256k1.Der

/-!
Public keys tagged by their algorithm, read from and written to the raw form of each. RSA keys are
carried along without being understood.
-/

namespace CurveKeys.Keys

/-- The hashes that the two curves sign with. The engine for P-256 brings its own. -/
structure Hashes where
  wide : Edwards25519.WideHash
  short : Secp256k1.ShortHash
  mac : Mac

/-- SHA-512, SHA-256, and HMAC with SHA-256. -/
def Hashes.standard : Hashes := ⟨Sha512.hash, Sha256.hash, Hmac.sha256⟩

inductive PublicKey where
  | rsa (bytes : Bytes)
  | ed25519 (key : Edwards25519.VerifyingKey)
  | secp256k1 (key : Secp256k1.PublicKey)
  | ecdsa (key : P256.PublicKey)

namespace PublicKey

def keyType : PublicKey → KeyType
  | rsa _ => .rsa
  | ed25519 _ => .ed25519
  | secp256k1 _ => .secp256k1
  | ecdsa _ => .ecdsa

/-- The encoding as read, the compressed point, or the document. -/
def raw : PublicKey → Bytes
  | rsa bytes => bytes
  | ed25519 key => key.bytes.toList
  | secp256k1 key => key.toCompressed
  | ecdsa key => key.toDocument

/-- Keys are equal when their types and their raw forms are. -/
instance : BEq PublicKey := ⟨fun a b => a.keyType == b.keyType && a.raw == b.raw⟩

def ofRaw (t : KeyType) (b : Bytes) : Except Error PublicKey :=
  match t with
  | .rsa => .ok (rsa b)
  | .ed25519 => ((Edwards25519.VerifyingKey.ofSlice b).map ed25519).mapError .ed25519
  | .secp256k1 => ((Secp256k1.PublicKey.ofBytes b).map secp256k1).mapError .secp256k1
  | .ecdsa =>
    match P256.PublicKey.ofDocument? b with
    | some key => .ok (ecdsa key)
    | none => .error .backend

/-- The verdict on a signature; a signature that cannot be read is an error. -/
def verify (key : PublicKey) (message signature : Bytes) (hashes : Hashes := .standard) :
    Except Error Bool :=
  match key with
  | rsa _ => .error (.unsupported .rsa)
  | ed25519 key =>
    match Edwards25519.Signature.ofBytes signature with
    | .ok g => .ok (key.verifyWith hashes.wide message g)
    | .error e => .error (.ed25519 e)
  | secp256k1 key =>
    match Secp256k1.Signature.ofDer signature with
    | .ok g => .ok (g.verifyMessage message key hashes.short)
    | .error e => .error (.secp256k1 e)
  | ecdsa key =>
    match P256.Signature.ofDer? signature with
    | some g => .ok (key.verify message g)
    | none => .error .backend

end PublicKey

end CurveKeys.Keys
