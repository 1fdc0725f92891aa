import CurveKeys.Secp256k1.Signature

/-!
Recovery of the public key from a signature. The recovery identifier says which of the up to four
points with first coordinate `r` modulo the order was the nonce point; the compact form carries it
in a header byte before the fixed-width signature.
-/

namespace CurveKeys.Secp256k1

structure RecoveryId where
  /-- The parity of the nonce point's second coordinate. -/
  yOdd : Bool
  /-- Whether the nonce point's first coordinate was the order or more. -/
  xReduced : Bool
deriving DecidableEq

namespace RecoveryId

def toByte (id : RecoveryId) : UInt8 :=
  (if id.xReduced then 2 else 0) + (if id.yOdd then 1 else 0)

/-- The identifier of a number below 4, from its two bits. -/
def ofByte (b : UInt8) : Except Error RecoveryId :=
  if b < 4 then .ok ⟨b &&& 1 ≠ 0, b &&& 2 ≠ 0⟩ else .error .invalidRecoveryCode

end RecoveryId

namespace Signature

/-- The first coordinate of the nonce point. -/
def nonceX (g : Signature) (id : RecoveryId) : Except Error FieldElement :=
  let x := toField g.r
  if id.xReduced then
    if x.isAtLeastPrimeMinusOrder then .error .recoveredROverflow
    else .ok (x.add orderElement).normalize
  else
    .ok x

/-- The key `Q` with `r * Q = s * R - e * G` for the nonce point `R` and the hash's integer `e`. -/
def recover (g : Signature) (hash : Bytes) (id : RecoveryId) : Except Error PublicKey :=
  if g.r.isZero then .error (.zeroComponent .r)
  else if g.s.isZero then .error (.zeroComponent .s)
  else do
    let x ← g.nonceX id
    match AffinePoint.decompress? x id.yOdd with
    | none => .error .noSquareRoot
    | some nonce =>
      let w := g.r.invert
      let u1 := ((hashScalar hash).mul w).negate
      let u2 := g.s.mul w
      let q := (JacobianPoint.mulBaseVar u1).addVar ((JacobianPoint.ofAffine nonce).mulVar u2)
      if q.isIdentity then .error .recoveredInfinity else PublicKey.ofAffine q.toAffine

/-- A header byte of 27, the identifier, and 4 more for a compressed key; then the fixed-width
form. -/
def toCompact (g : Signature) (id : RecoveryId) (compressed : Bool) : Bytes :=
  (27 + id.toByte + (if compressed then 4 else 0)) :: g.toBytes

/-- Recovers the key from a compact signature; also says whether its header asks for the
compressed form of the key. -/
def recoverCompact (compact hash : Bytes) : Except Error (PublicKey × Bool) :=
  match compact with
  | [] => .error .invalidLength
  | header :: body =>
    if body.length ≠ 64 then .error .invalidLength
    else if header < 27 ∨ 35 ≤ header then .error .invalidRecoveryCode
    else do
      let code := header - 27
      let id ← RecoveryId.ofByte (code &&& 3)
      let g ← ofBytes body
      let key ← g.recover hash id
      .ok (key, code &&& 4 ≠ 0)

end Signature

end CurveKeys.Secp256k1
