import CurveKeys.Der
import CurveKeys.Hash.Generator
import CurveKeys.P256.Key

/-!
Signatures over P-256 on the SHA-256 hash of a message, with deterministic nonces, in DER. The
second component is left as it comes out, and either of its signs is accepted.
-/

namespace CurveKeys.P256

structure Signature where
  r : Nat
  s : Nat
deriving DecidableEq

namespace Signature

def toDer (g : Signature) : Bytes := Der.pair (Bytes.ofNatBE 32 g.r) (Bytes.ofNatBE 32 g.s)

/-- Both components have to lie between 1 and the order. -/
def ofDer? (b : Bytes) : Option Signature := do
  let (r, s) ← Der.integerPair? b
  return ⟨← scalar? r, ← scalar? s⟩

end Signature

/-- The nonce for a secret key and a hash; the budget of blocks is out of reach. -/
def nonce? (key : SecretKey) (hash : Vector UInt8 32) : Option Nat :=
  let seed := Bytes.ofNatBE 32 key.scalar ++ hash.toList
  Generator.search Hmac.sha256 (fun block => scalar? block.toList) 0x10000000000000000 0
    (Generator.start Hmac.sha256 seed)

def SecretKey.sign? (key : SecretKey) (message : Bytes) : Option Signature := do
  let hash := Sha256.hash message
  let k ← nonce? key hash
  let (x, _) ← (Point.generator.mul k).toAffine?
  let r := x % order
  let s := inverse order k * (Bytes.toNatBE hash.toList + r * key.scalar) % order
  guard (r ≠ 0 ∧ s ≠ 0)
  return ⟨r, s⟩

def PublicKey.verify (key : PublicKey) (message : Bytes) (g : Signature) : Bool :=
  let e := Bytes.toNatBE (Sha256.hash message).toList
  let w := inverse order g.s
  let p := (Point.generator.mul (e * w % order)).add (key.toPoint.mul (g.r * w % order))
  match p.toAffine? with
  | some (x, _) => x % order == g.r
  | none => false

end CurveKeys.P256
