import CurveKeys.Bytes
import CurveKeys.P256.Curve

/-!
P-256 keys and their documents. A secret key is a PKCS #8 document that holds the public point as
well, a public key is a SubjectPublicKeyInfo document; both are read only in the form in which they
are written, of all the forms that the two formats allow.
-/

namespace CurveKeys.P256

structure PublicKey where
  x : Nat
  y : Nat
deriving DecidableEq

structure SecretKey where
  scalar : Nat
deriving DecidableEq

/-- A big-endian integer between 1 and the order. -/
def scalar? (b : Bytes) : Option Nat :=
  let v := b.toNatBE
  if 0 < v ∧ v < order then some v else none

namespace PublicKey

def toPoint (k : PublicKey) : Point := ⟨k.x, k.y, 1⟩

/-- The tag of the uncompressed form and both coordinates. -/
def toUncompressed (k : PublicKey) : Bytes :=
  4 :: (Bytes.ofNatBE 32 k.x ++ Bytes.ofNatBE 32 k.y)

/-- Everything in the document before the point. -/
def header : Bytes :=
  [0x30, 0x59, 0x30, 0x13, 0x06, 0x07, 0x2A, 0x86, 0x48, 0xCE, 0x3D, 0x02, 0x01, 0x06, 0x08, 0x2A,
   0x86, 0x48, 0xCE, 0x3D, 0x03, 0x01, 0x07, 0x03, 0x42, 0x00]

def toDocument (k : PublicKey) : Bytes := header ++ k.toUncompressed

def ofDocument? (b : Bytes) : Option PublicKey :=
  let x := Bytes.toNatBE ((b.drop 27).take 32)
  let y := Bytes.toNatBE (b.drop 59)
  let key : PublicKey := ⟨x, y⟩
  if x < prime ∧ y < prime ∧ Point.isOnCurve x y ∧ key.toDocument = b then some key else none

end PublicKey

namespace SecretKey

/-- The multiple of the base point by the key; none only for a multiple of the order. -/
def publicKey? (k : SecretKey) : Option PublicKey :=
  (Point.generator.mul k.scalar).toAffine?.map fun (x, y) => ⟨x, y⟩

/-- Draws 32 bytes at a time until they spell an integer between 1 and the order. The key is
returned with the bytes that are left; there is none if too few bytes are left before that. -/
def random? (tape : Bytes) : Option (SecretKey × Bytes) :=
  if _ : tape.length < 32 then none
  else
    match scalar? (tape.take 32) with
    | some k => some (⟨k⟩, tape.drop 32)
    | none => random? (tape.drop 32)
termination_by tape.length
decreasing_by simp; omega

/-- Everything in the document before the secret scalar. -/
def header : Bytes :=
  [0x30, 0x81, 0x87, 0x02, 0x01, 0x00, 0x30, 0x13, 0x06, 0x07, 0x2A, 0x86, 0x48, 0xCE, 0x3D, 0x02,
   0x01, 0x06, 0x08, 0x2A, 0x86, 0x48, 0xCE, 0x3D, 0x03, 0x01, 0x07, 0x04, 0x6D, 0x30, 0x6B, 0x02,
   0x01, 0x01, 0x04, 0x20]

/-- What stands between the secret scalar and the public point. -/
def middle : Bytes := [0xA1, 0x44, 0x03, 0x42, 0x00]

def toDocument (k : SecretKey) : Bytes :=
  header ++ Bytes.ofNatBE 32 k.scalar ++ middle ++ (k.publicKey?.map (·.toUncompressed)).getD []

def ofDocument? (b : Bytes) : Option SecretKey := do
  let k ← scalar? ((b.drop 36).take 32)
  let key : SecretKey := ⟨k⟩
  guard (key.toDocument = b)
  return key

end SecretKey

end CurveKeys.P256
