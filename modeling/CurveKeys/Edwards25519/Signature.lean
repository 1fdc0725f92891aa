import CurveKeys.Edwards25519.Error
import CurveKeys.Text.Fixed

/-!
Ed25519 signatures: the encoded commitment `R` and the encoded response `S`. Reading checks the
length only; what the bytes stand for is settled by verification.
-/

namespace CurveKeys.Edwards25519

structure Signature where
  r : Vector UInt8 32
  s : Vector UInt8 32
deriving DecidableEq

namespace Signature

def ofBytes (b : Bytes) : Except Error Signature :=
  if b.length = 64 then .ok ⟨Bytes.window 32 b, Bytes.window 32 (b.drop 32)⟩
  else .error .invalidLength

def toBytes (g : Signature) : Bytes := g.r.toList ++ g.s.toList

/-- The 64 bytes in lower-case hexadecimal. -/
def toText (g : Signature) : String := Hex.encode .lower g.toBytes

def ofText : String → Except (TextError Error) Signature := TextError.read 64 ofBytes

end Signature

end CurveKeys.Edwards25519
