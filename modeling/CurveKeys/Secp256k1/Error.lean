import CurveKeys.ErrorKind

/-!
Why an encoding of a secp256k1 key or signature is refused, or a key cannot be recovered.
-/

namespace CurveKeys.Secp256k1

/-- The two integers of a signature. -/
inductive Component where
  | r
  | s
deriving DecidableEq

def Component.name : Component → String
  | r => "R"
  | s => "S"

inductive Error where
  | invalidLength
  | signatureTooShort
  | signatureTooLong
  | noSequenceTag
  | badSequenceLength
  | missingSTag
  | missingSLength
  | badSLength
  | notInteger (c : Component)
  | zeroLength (c : Component)
  | negative (c : Component)
  | excessivePadding (c : Component)
  | invalidPublicKeyPrefix
  | invalidRecoveryCode
  | zeroComponent (c : Component)
  | overflowsOrder (c : Component)
  | zeroSecretKey
  | coordinateOverflow
  | notOnCurve
  | noSquareRoot
  | mismatchedParity
  | recoveredROverflow
  | recoveredInfinity
deriving DecidableEq

namespace Error

def kind : Error → ErrorKind
  | invalidLength | signatureTooShort | signatureTooLong | noSequenceTag | badSequenceLength
  | missingSTag | missingSLength | badSLength | notInteger _ | zeroLength _ | negative _
  | excessivePadding _ | invalidPublicKeyPrefix | invalidRecoveryCode => .malformed
  | zeroComponent _ | overflowsOrder _ | zeroSecretKey | coordinateOverflow | notOnCurve
  | noSquareRoot | mismatchedParity | recoveredROverflow | recoveredInfinity => .invalid

def reason : Error → String
  | invalidLength => "input length is invalid"
  | signatureTooShort => "signature is too short"
  | signatureTooLong => "signature is too long"
  | noSequenceTag => "signature has no sequence tag"
  | badSequenceLength => "signature sequence length does not match"
  | missingSTag => "signature is missing the S type tag"
  | missingSLength => "signature is missing the S length"
  | badSLength => "signature S length is invalid"
  | notInteger c => "signature " ++ c.name ++ " is not an integer"
  | zeroLength c => "signature " ++ c.name ++ " has zero length"
  | negative c => "signature " ++ c.name ++ " is negative"
  | excessivePadding c => "signature " ++ c.name ++ " has excessive padding"
  | invalidPublicKeyPrefix => "public key prefix is invalid"
  | invalidRecoveryCode => "signature recovery code is invalid"
  | zeroComponent c => "signature " ++ c.name ++ " is zero"
  | overflowsOrder c => "signature " ++ c.name ++ " is not less than the group order"
  | zeroSecretKey => "secret key is zero"
  | coordinateOverflow => "coordinate is not less than the field prime"
  | notOnCurve => "point is not on the curve"
  | noSquareRoot => "x coordinate has no square root on the curve"
  | mismatchedParity => "hybrid public key parity does not match"
  | recoveredROverflow => "recovered R overflows the field prime"
  | recoveredInfinity => "recovered public key is the point at infinity"

/-- The kind of the error and its reason. -/
def message (e : Error) : String := e.kind.name ++ " " ++ e.reason

end Error

end CurveKeys.Secp256k1
