import CurveKeys.Bytes
import CurveKeys.Secp256k1.Field.Basic

/-!
Field elements as 32 big-endian bytes. Limbs of 26 bits and bytes of 8 meet at every alignment, so
each limb gathers whole bytes and the parts of at most two more, and each byte comes from one limb
or from two neighbours.
-/

namespace CurveKeys.Secp256k1.FieldElement

/-- The limbs of the integer as given, which may be the modulus or more. -/
def pack (b : Vector UInt8 32) : FieldElement :=
  let x (i : Nat) : UInt32 := (Bytes.byteAt b i).toUInt32
  ⟨x 31 ||| x 30 <<< 8 ||| x 29 <<< 16 ||| (x 28 &&& 3) <<< 24,
    x 28 >>> 2 ||| x 27 <<< 6 ||| x 26 <<< 14 ||| (x 25 &&& 15) <<< 22,
    x 25 >>> 4 ||| x 24 <<< 4 ||| x 23 <<< 12 ||| (x 22 &&& 63) <<< 20,
    x 22 >>> 6 ||| x 21 <<< 2 ||| x 20 <<< 10 ||| x 19 <<< 18,
    x 18 ||| x 17 <<< 8 ||| x 16 <<< 16 ||| (x 15 &&& 3) <<< 24,
    x 15 >>> 2 ||| x 14 <<< 6 ||| x 13 <<< 14 ||| (x 12 &&& 15) <<< 22,
    x 12 >>> 4 ||| x 11 <<< 4 ||| x 10 <<< 12 ||| (x 9 &&& 63) <<< 20,
    x 9 >>> 6 ||| x 8 <<< 2 ||| x 7 <<< 10 ||| x 6 <<< 18,
    x 5 ||| x 4 <<< 8 ||| x 3 <<< 16 ||| (x 2 &&& 3) <<< 24,
    x 2 >>> 2 ||| x 1 <<< 6 ||| x 0 <<< 14⟩

/-- The residue of the big-endian integer, and whether the integer was the modulus or more. -/
def reduceBytes (b : Vector UInt8 32) : FieldElement × Bool :=
  let raw := pack b
  (raw.normalize, raw.overflows)

/-- The first 32 bytes of a string of any length, read as by `reduceBytes`. -/
def reduceSlice (b : Bytes) : FieldElement × Bool := reduceBytes (b.window 32)

/-- Accepts canonical encodings only. -/
def ofBytes? (b : Vector UInt8 32) : Option FieldElement :=
  let raw := pack b
  if raw.overflows then none else some raw

/-- The big-endian encoding of a normalized element. -/
def toBytes (a : FieldElement) : Vector UInt8 32 :=
  #v[(a.l9 >>> 14).toUInt8, (a.l9 >>> 6).toUInt8, (a.l8 >>> 24 ||| a.l9 <<< 2).toUInt8,
    (a.l8 >>> 16).toUInt8, (a.l8 >>> 8).toUInt8, a.l8.toUInt8, (a.l7 >>> 18).toUInt8,
    (a.l7 >>> 10).toUInt8, (a.l7 >>> 2).toUInt8, (a.l6 >>> 20 ||| a.l7 <<< 6).toUInt8,
    (a.l6 >>> 12).toUInt8, (a.l6 >>> 4).toUInt8, (a.l5 >>> 22 ||| a.l6 <<< 4).toUInt8,
    (a.l5 >>> 14).toUInt8, (a.l5 >>> 6).toUInt8, (a.l4 >>> 24 ||| a.l5 <<< 2).toUInt8,
    (a.l4 >>> 16).toUInt8, (a.l4 >>> 8).toUInt8, a.l4.toUInt8, (a.l3 >>> 18).toUInt8,
    (a.l3 >>> 10).toUInt8, (a.l3 >>> 2).toUInt8, (a.l2 >>> 20 ||| a.l3 <<< 6).toUInt8,
    (a.l2 >>> 12).toUInt8, (a.l2 >>> 4).toUInt8, (a.l1 >>> 22 ||| a.l2 <<< 4).toUInt8,
    (a.l1 >>> 14).toUInt8, (a.l1 >>> 6).toUInt8, (a.l0 >>> 24 ||| a.l1 <<< 2).toUInt8,
    (a.l0 >>> 16).toUInt8, (a.l0 >>> 8).toUInt8, a.l0.toUInt8]

end CurveKeys.Secp256k1.FieldElement
