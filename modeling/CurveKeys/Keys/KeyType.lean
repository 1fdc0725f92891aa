/-!
The algorithms of keys, with their numbers and names.
-/

namespace CurveKeys.Keys

inductive KeyType where
  | rsa
  | ed25519
  | secp256k1
  | ecdsa
deriving DecidableEq

namespace KeyType

def all : List KeyType := [rsa, ed25519, secp256k1, ecdsa]

/-- The position in the list of all types. -/
def number : KeyType → Int
  | rsa => 0
  | ed25519 => 1
  | secp256k1 => 2
  | ecdsa => 3

def name : KeyType → String
  | rsa => "RSA"
  | ed25519 => "Ed25519"
  | secp256k1 => "Secp256k1"
  | ecdsa => "ECDSA"

end KeyType

end CurveKeys.Keys
