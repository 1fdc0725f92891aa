import CurveKeys.Keys.Log
import CurveKeys.Keys.PrivateKey

/-!
Generating and decoding tagged keys, with the log records that these leave. A generation is
recorded before it begins, a refusal after the fact; successful decoding leaves no record.
-/

namespace CurveKeys.Keys

/-- The outcome of an operation, and the log records it leaves. -/
structure Logged (α : Type) where
  outcome : Except Error α
  records : List Log.Record

namespace Logged

/-- Records the refusal of a key, if it was refused. -/
def ofDecoding {α : Type} (t : KeyType) (half : String) (outcome : Except Error α) : Logged α :=
  match outcome with
  | .ok _ => ⟨outcome, []⟩
  | .error e =>
    ⟨outcome, [⟨.debug, "rejected " ++ t.name ++ " " ++ half ++ " key: " ++ e.message⟩]⟩

end Logged

def decodePrivate (t : KeyType) (raw : Bytes) (hashes : Hashes := .standard) :
    Logged PrivateKey :=
  .ofDecoding t "private" (PrivateKey.ofRaw t raw hashes)

def decodePublic (t : KeyType) (raw : Bytes) : Logged PublicKey :=
  .ofDecoding t "public" (PublicKey.ofRaw t raw)

/-- A private key from random bytes, and its public key. -/
def generatePair (t : KeyType) (tape : Bytes) (hashes : Hashes := .standard) :
    Logged (PrivateKey × PublicKey) where
  outcome := do
    let key ← PrivateKey.random t tape hashes
    let publicKey ← key.publicKey
    return (key, publicKey)
  records := [⟨.trace, "generating " ++ t.name ++ " key pair"⟩]

end CurveKeys.Keys
