import CurveKeys.Hash.Generator
import CurveKeys.Secp256k1.Scalar.Basic

/-!
Deterministic nonces. The secret key and the message hash seed one stream of blocks; the blocks
that spell an integer between 1 and the group order are the nonces, in order, and a caller that has
to refuse some of them asks for a later one.
-/

namespace CurveKeys.Secp256k1.Nonce

/-- What the generator is seeded with. The key and the hash are brought to 32 bytes each; extra
data counts only with 32 bytes and a version only with 16, and a version without extra data
follows 32 zeros. -/
def seed (key hash extra version : Bytes) : Bytes :=
  let extra :=
    if extra.length = 32 then extra
    else if version.length = 16 then List.replicate 32 0
    else []
  let version := if version.length = 16 then version else []
  (key.window 32).toList ++ (hash.window 32).toList ++ extra ++ version

/-- A block as a nonce, which is read without reduction. -/
def ofBlock? (block : Vector UInt8 32) : Option Scalar :=
  let (k, overflow) := Scalar.reduceBytes block
  if overflow || k.isZero then none else some k

/-- The nonce with index `skip` for a key and a hash, within a budget of blocks. -/
def generate (mac : Mac) (budget : Nat) (key hash extra version : Bytes) (skip : Nat) :
    Option Scalar :=
  Generator.search mac ofBlock? budget skip (Generator.start mac (seed key hash extra version))

/-- The nonces by a keyed hash, which is HMAC with SHA-256. The budget is out of reach. -/
def deterministic (key hash extra version : Bytes) (skip : Nat) (mac : Mac := Hmac.sha256) :
    Option Scalar :=
  generate mac 0x10000000000000000 key hash extra version skip

end CurveKeys.Secp256k1.Nonce
