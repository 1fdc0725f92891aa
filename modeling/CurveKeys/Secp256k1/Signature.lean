import CurveKeys.Hash.Sha256
import CurveKeys.Secp256k1.PublicKey

/-!
Signatures: pairs of scalars `r` and `s`. A signature on a hash holds for a public key when the
point made from all three has `r` for its first coordinate modulo the order; the coordinate is
compared without leaving Jacobian form.
-/

namespace CurveKeys.Secp256k1

/-- A hash of 32 bytes. -/
abbrev ShortHash := Bytes → Vector UInt8 32

structure Signature where
  r : Scalar
  s : Scalar
deriving DecidableEq

namespace Signature

/-- A big-endian component, which must be at least 1 and below the order. -/
def component (c : Component) (b : Bytes) : Except Error Scalar :=
  let (v, overflow) := Scalar.reduceSlice b
  if 32 < b.length || overflow then .error (.overflowsOrder c)
  else if v.isZero then .error (.zeroComponent c)
  else .ok v

/-- Both components in 32 bytes each. -/
def ofBytes (b : Bytes) : Except Error Signature :=
  if b.length = 64 then do
    let r ← component .r (b.take 32)
    let s ← component .s (b.drop 32)
    .ok ⟨r, s⟩
  else
    .error .invalidLength

def toBytes (g : Signature) : Bytes := g.r.toBytes.toList ++ g.s.toBytes.toList

/-- The equivalent signature whose second component is at most half the order. -/
def normalize (g : Signature) : Signature := { g with s := select g.s g.s.negate g.s.isHigh }

/-- The integer that a hash stands for: its first 32 bytes, modulo the order. -/
def hashScalar (hash : Bytes) : Scalar := (Scalar.reduceSlice hash).1

/-- The group order as a field element. -/
def orderElement : FieldElement :=
  FieldElement.pack (Bytes.window 32 (Bytes.ofNatBE 32 Scalar.order))

/-- A scalar, which is below the modulus, as a field element. -/
def toField (k : Scalar) : FieldElement := (FieldElement.reduceBytes k.toBytes).1

/-- Is the first coordinate of a point other than infinity congruent to `r` modulo the order? The
coordinate is `r` itself or, if `r` is small enough, `r` plus the order. -/
def matchesX (p : JacobianPoint) (r : FieldElement) : Bool :=
  let z2 := p.z.square
  let x := p.x.normalize
  (r.mul z2).normalize == x ||
    (!r.isAtLeastPrimeMinusOrder && ((r.add orderElement).mul z2).normalize == x)

def verify (g : Signature) (hash : Bytes) (key : PublicKey) : Bool :=
  if g.r.isZero || g.s.isZero then
    false
  else
    let w := g.s.invert
    let u1 := (hashScalar hash).mul w
    let u2 := g.r.mul w
    let p := (JacobianPoint.mulBaseVar u1).addVar (key.toJacobian.mulVar u2)
    !p.isIdentity && matchesX p (toField g.r)

/-- Verifies a signature on the hash of a message. -/
def verifyMessage (g : Signature) (message : Bytes) (key : PublicKey)
    (hash : ShortHash := Sha256.hash) : Bool :=
  g.verify (hash message).toList key

/-- The fixed-width form in upper-case hexadecimal. -/
def toText (g : Signature) : String := Hex.encode .upper g.toBytes

def ofText : String → Except (TextError Error) Signature := TextError.read 64 ofBytes

end Signature

end CurveKeys.Secp256k1
