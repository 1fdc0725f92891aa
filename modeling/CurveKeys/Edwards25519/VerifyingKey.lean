import CurveKeys.Edwards25519.Multiple
import CurveKeys.Edwards25519.Signature
import CurveKeys.Hash.Sha512

/-!
Ed25519 public keys and verification. A key keeps the encoding it was read from, which is what the
challenge commits to and what keys are compared by. A signature holds when `S` is canonical and
`R` is the encoding of `S B - k A`. The hash is a parameter; SHA-512 is the usual one.
-/

namespace CurveKeys.Edwards25519

/-- A hash of 64 bytes. -/
abbrev WideHash := Bytes → Vector UInt8 64

/-- The challenge `k` that binds commitment, key and message. -/
def challenge (hash : WideHash) (r a : Vector UInt8 32) (message : Bytes) : Scalar :=
  .ofWide (hash (r.toList ++ a.toList ++ message))

structure VerifyingKey where
  bytes : Vector UInt8 32
  point : Point

namespace VerifyingKey

instance : BEq VerifyingKey := ⟨fun a b => a.bytes == b.bytes⟩

def ofPoint (p : Point) : VerifyingKey := ⟨p.toBytes, p⟩

def ofBytes (b : Vector UInt8 32) : Except Error VerifyingKey := do
  let p ← Point.ofBytes b
  .ok ⟨b, p⟩

def ofSlice (b : Bytes) : Except Error VerifyingKey :=
  match Bytes.exactly 32 b with
  | some b => ofBytes b
  | none => .error .invalidLength

def verifyWith (hash : WideHash) (key : VerifyingKey) (message : Bytes) (g : Signature) : Bool :=
  Bytes.byteAt g.s 31 &&& 0xE0 == 0 &&
    match Scalar.ofCanonical g.s with
    | .error _ => false
    | .ok s =>
      let k := challenge hash g.r key.bytes message
      (Point.doubleMulBase k key.point.negate s).toBytes == g.r

def verify (key : VerifyingKey) (message : Bytes) (g : Signature) : Bool :=
  key.verifyWith Sha512.hash message g

/-- The encoding in lower-case hexadecimal. -/
def toText (key : VerifyingKey) : String := Hex.encode .lower key.bytes.toList

def ofText : String → Except (TextError Error) VerifyingKey := TextError.read 32 ofSlice

end VerifyingKey

end CurveKeys.Edwards25519
