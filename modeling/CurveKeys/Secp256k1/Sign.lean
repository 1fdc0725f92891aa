import CurveKeys.Secp256k1.Nonce
import CurveKeys.Secp256k1.Recovery
import CurveKeys.Secp256k1.SecretKey

/-!
Signing a hash. Each nonce gives a signature unless one of its components comes out zero, and then
the next nonce is tried. The second component is made low; this negates the nonce
point, so the parity that the recovery identifier records flips with it.
-/

namespace CurveKeys.Secp256k1

namespace Signature

/-- The signature by secret `d` on integer `e` with nonce `k`, unless a component is zero. -/
def withNonce? (d e k : Scalar) : Option (Signature × RecoveryId) :=
  let p := (JacobianPoint.mulBase k).toAffine
  let (r, xReduced) := Scalar.reduceBytes p.x.toBytes
  if r.isZero then none
  else
    let s := k.invert.mul (e.add (d.mul r))
    if s.isZero then none
    else some (normalize ⟨r, s⟩, ⟨p.y.isOdd != s.isHigh, xReduced⟩)

/-- What an attempt gives with the first nonce it accepts. The nonces are tried from index `i` on,
as many as the budget. -/
def firstAccepted {α : Type} (nonce : Nat → Option Scalar) (attempt? : Scalar → Option α) :
    Nat → Nat → Option α
  | 0, _ => none
  | budget + 1, i => do
    let k ← nonce i
    match attempt? k with
    | some signed => some signed
    | none => firstAccepted nonce attempt? budget (i + 1)

/-- The signature by secret `d` on integer `e` with the first nonce that gives one. -/
def signWith (nonce : Nat → Option Scalar) (d e : Scalar) (budget i : Nat) :
    Option (Signature × RecoveryId) :=
  firstAccepted nonce (withNonce? d e) budget i

end Signature

namespace SecretKey

/-- Signs a hash. The nonces are counted in 32 bits, the first as one, which leaves `2 ^ 32 - 1`
attempts. -/
def signRecoverable (key : SecretKey) (hash : Bytes) (mac : Mac := Hmac.sha256) :
    Option (Signature × RecoveryId) :=
  Signature.signWith (fun i => Nonce.deterministic key.toBytes.toList hash [] [] i mac)
    key.scalar (Signature.hashScalar hash) 0xFFFFFFFF 0

def sign (key : SecretKey) (hash : Bytes) (mac : Mac := Hmac.sha256) : Option Signature :=
  (key.signRecoverable hash mac).map (·.1)

/-- Signs the hash of a message. -/
def signMessage (key : SecretKey) (message : Bytes) (hash : ShortHash := Sha256.hash)
    (mac : Mac := Hmac.sha256) : Option Signature :=
  key.sign (hash message).toList mac

/-- Signs a hash in the compact form. -/
def signCompact (key : SecretKey) (hash : Bytes) (compressed : Bool)
    (mac : Mac := Hmac.sha256) : Option Bytes :=
  (key.signRecoverable hash mac).map fun (g, id) => g.toCompact id compressed

end SecretKey

end CurveKeys.Secp256k1
