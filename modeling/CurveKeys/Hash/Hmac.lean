import CurveKeys.Hash.Sha256

/-!
The keyed hash HMAC over SHA-256. A key shorter than a block is filled with zeros, a longer one is
hashed first.
-/

namespace CurveKeys.Hmac

/-- The key as one block of 64 bytes. -/
def blockKey (key : Bytes) : Bytes :=
  let key := if 64 < key.length then (Sha256.hash key).toList else key
  key ++ List.replicate (64 - key.length) 0

def sha256 (key message : Bytes) : Vector UInt8 32 :=
  let block := blockKey key
  let inner := Sha256.hash (block.map (· ^^^ 0x36) ++ message)
  Sha256.hash (block.map (· ^^^ 0x5C) ++ inner.toList)

end CurveKeys.Hmac
