import CurveKeys.Der
import CurveKeys.Secp256k1.Signature

/-!
Signatures in DER: a sequence of two non-negative integers. Reading reports the first fault in a
fixed order; lengths come before contents, and the bytes of both integers before their values.
-/

namespace CurveKeys.Secp256k1

/-- An encoded signature. -/
structure DerSignature where
  bytes : Bytes
deriving DecidableEq

def DerSignature.description (d : DerSignature) : String :=
  "DerSignature(" ++ Hex.encode .lower d.bytes ++ ")"

/-- The error for a fault in the integer of a component. -/
def Error.ofFault (c : Component) : Der.IntegerFault → Error
  | .wrongTag => .notInteger c
  | .noContent => .zeroLength c
  | .negative => .negative c
  | .padded => .excessivePadding c

namespace Signature

/-- The value of an integer's content as a component of a signature. -/
def derComponent (c : Component) (content : Bytes) : Except Error Scalar :=
  component c (content.dropWhile (· == 0))

/-- Reads the two integers, given the tag and the length of the first one. -/
def ofDerIntegers (rTag : UInt8) (rLength : Nat) (rest : Bytes) : Except Error Signature :=
  match rest.drop rLength with
  | [] => .error .missingSTag
  | [_] => .error .missingSLength
  | sTag :: sLength :: s =>
    let r := rest.take rLength
    if s.length ≠ sLength.toNat then .error .badSLength
    else
      match Der.integerFault? rTag r, Der.integerFault? sTag s with
      | some fault, _ => .error (.ofFault .r fault)
      | none, some fault => .error (.ofFault .s fault)
      | none, none => do
        let r ← derComponent .r r
        let s ← derComponent .s s
        .ok ⟨r, s⟩

/-- Accepts 8 to 72 bytes of DER with both components between 1 and the order. -/
def ofDer (b : Bytes) : Except Error Signature :=
  if b.length < 8 then .error .signatureTooShort
  else if 72 < b.length then .error .signatureTooLong
  else
    match b with
    | tag :: length :: rTag :: rLength :: rest =>
      if tag ≠ Der.sequenceTag then .error .noSequenceTag
      else if length.toNat ≠ b.length - 2 then .error .badSequenceLength
      else ofDerIntegers rTag rLength.toNat rest
    | _ => .error .signatureTooShort

/-- The encoding of the equivalent signature with a low second component. -/
def toDer (g : Signature) : DerSignature :=
  let g := g.normalize
  ⟨Der.pair g.r.toBytes.toList g.s.toBytes.toList⟩

end Signature

end CurveKeys.Secp256k1
