import CurveKeys.Secp256k1.Error
import CurveKeys.Secp256k1.Field.Bytes
import CurveKeys.Secp256k1.Multiple
import CurveKeys.Text.Fixed

/-!
Public keys: points of the curve other than the point at infinity. A key is read from 33 bytes,
which give the first coordinate and the parity of the second, or from 65 bytes with both
coordinates, whose tag may name the parity as well.
-/

namespace CurveKeys.Secp256k1

structure PublicKey where
  point : AffinePoint
deriving DecidableEq

namespace PublicKey

/-- A coordinate in 32 big-endian bytes, which must be below the modulus. -/
def coordinate (b : Bytes) : Except Error FieldElement :=
  let (v, overflow) := FieldElement.reduceSlice b
  if overflow then .error .coordinateOverflow else .ok v

def ofCompressed (tag : UInt8) (x : Bytes) : Except Error PublicKey :=
  if tag = 2 ∨ tag = 3 then do
    let x ← coordinate x
    match AffinePoint.decompress? x (tag = 3) with
    | some p => .ok ⟨p⟩
    | none => .error .noSquareRoot
  else
    .error .invalidPublicKeyPrefix

def ofUncompressed (tag : UInt8) (x y : Bytes) : Except Error PublicKey :=
  if tag = 4 ∨ tag = 6 ∨ tag = 7 then do
    let x ← coordinate x
    let y ← coordinate y
    if tag ≠ 4 ∧ y.isOdd ≠ decide (tag = 7) then
      .error .mismatchedParity
    else
      match AffinePoint.ofCoordinates? x y with
      | some p => .ok ⟨p⟩
      | none => .error .notOnCurve
  else
    .error .invalidPublicKeyPrefix

/-- Reads the compressed, the uncompressed and the hybrid form. -/
def ofBytes : Bytes → Except Error PublicKey
  | [] => .error .invalidLength
  | tag :: body =>
    if body.length = 32 then ofCompressed tag body
    else if body.length = 64 then ofUncompressed tag (body.take 32) (body.drop 32)
    else .error .invalidLength

/-- The point at infinity is no key. -/
def ofAffine (p : AffinePoint) : Except Error PublicKey :=
  if p.isIdentity then .error .notOnCurve else .ok ⟨p⟩

/-- The tag of the parity of the second coordinate, and the first coordinate. -/
def toCompressed (k : PublicKey) : Bytes :=
  (if k.point.y.isOdd then 3 else 2) :: k.point.x.toBytes.toList

def toUncompressed (k : PublicKey) : Bytes :=
  4 :: (k.point.x.toBytes.toList ++ k.point.y.toBytes.toList)

def toJacobian (k : PublicKey) : JacobianPoint := .ofAffine k.point

/-- The compressed form in upper-case hexadecimal. -/
def toText (k : PublicKey) : String := Hex.encode .upper k.toCompressed

def ofText : String → Except (TextError Error) PublicKey := TextError.read 33 ofBytes

end PublicKey

end CurveKeys.Secp256k1
