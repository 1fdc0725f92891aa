import CurveKeys.ErrorKind

/-!
Why an encoding of an edwards25519 point, scalar or key is refused.
-/

namespace CurveKeys.Edwards25519

inductive Error where
  | invalidLength
  | invalidPoint
  | nonCanonicalScalar
  | mismatchedPublicKey
deriving DecidableEq

namespace Error

def kind : Error → ErrorKind
  | invalidLength => .malformed
  | invalidPoint | nonCanonicalScalar | mismatchedPublicKey => .invalid

def reason : Error → String
  | invalidLength => "input length is invalid"
  | invalidPoint => "point encoding is invalid"
  | nonCanonicalScalar => "scalar is not canonical"
  | mismatchedPublicKey => "public key does not match secret key"

/-- The kind of the error and its reason. -/
def message (e : Error) : String := e.kind.name ++ ": " ++ e.reason

end Error

end CurveKeys.Edwards25519
