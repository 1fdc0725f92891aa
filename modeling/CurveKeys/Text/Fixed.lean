import CurveKeys.Text.Hex

/-!
The text form of values with an encoding of fixed length. Reading fails either because the text is
not that many bytes in hexadecimal, or because the bytes are no encoding of a value.
-/

namespace CurveKeys

inductive TextError (ε : Type) where
  | notHex
  | refused (cause : ε)

namespace TextError

/-- Reads `n` bytes of hexadecimal text, in either letter case, and decodes them. -/
def read {ε α : Type} (n : Nat) (decode : Bytes → Except ε α) (text : String) :
    Except (TextError ε) α :=
  match Hex.decode text with
  | none => .error notHex
  | some b =>
    if b.length = n then
      match decode b with
      | .ok a => .ok a
      | .error e => .error (refused e)
    else
      .error notHex

end TextError

end CurveKeys
