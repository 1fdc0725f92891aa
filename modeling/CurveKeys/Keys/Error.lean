import CurveKeys.Edwards25519.Error
import CurveKeys.Keys.KeyType
import CurveKeys.Secp256k1.Error

/-!
Why a tagged key is refused or an operation on it fails. An error of one of the curves is carried
along; everything that goes wrong with a P-256 key is one error.
-/

namespace CurveKeys.Keys

inductive Error where
  | ed25519 (cause : Edwards25519.Error)
  | secp256k1 (cause : Secp256k1.Error)
  | backend
  | unsupported (t : KeyType)
  | unknownKeyType (number : Int)
  | unknownKeyName
  /-- The source of random bytes ran dry. -/
  | randomnessExhausted
  /-- No nonce within the budget gave a signature. -/
  | nonceExhausted (t : KeyType)
deriving DecidableEq

namespace Error

def kind : Error → ErrorKind
  | ed25519 e => e.kind
  | secp256k1 e => e.kind
  | backend => .malformed
  | unsupported _ | unknownKeyType _ | unknownKeyName => .unsupported
  | randomnessExhausted | nonceExhausted _ => .invalid

/-- The error of a curve that is carried along, in words. -/
def source? : Error → Option String
  | ed25519 e => some e.message
  | secp256k1 e => some e.message
  | _ => none

def message (e : Error) : String :=
  match e with
  | ed25519 cause => "ed25519: " ++ cause.message
  | secp256k1 cause => "secp256k1: " ++ cause.message
  | backend => e.kind.name ++ ": rejected by the P-256 backend"
  | unsupported t => e.kind.name ++ ": operation not available for " ++ t.name ++ " keys"
  | unknownKeyType n => e.kind.name ++ ": unknown key type " ++ toString n
  | unknownKeyName => e.kind.name ++ ": unknown key type name"
  | randomnessExhausted => "rng exhausted"
  | nonceExhausted t => e.kind.name ++ ": no nonce for " ++ t.name ++ " signature"

end Error

namespace KeyType

def ofNumber (n : Int) : Except Error KeyType :=
  match all.find? (·.number == n) with
  | some t => .ok t
  | none => .error (.unknownKeyType n)

/-- Letters of either case stand for each other; only the letters of ASCII have cases here. -/
def ofName (text : String) : Except Error KeyType :=
  let fold (s : String) : List Char := s.toList.map Char.toLower
  match all.find? fun t => fold t.name == fold text with
  | some t => .ok t
  | none => .error .unknownKeyName

end KeyType

end CurveKeys.Keys
