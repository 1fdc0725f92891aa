/-!
The broad classes of the library's errors.
-/

namespace CurveKeys

inductive ErrorKind where
  /-- Not a structurally valid encoding. -/
  | malformed
  /-- A valid encoding of a value that cannot be used. -/
  | invalid
  /-- A key type or an operation that is not available. -/
  | unsupported
deriving DecidableEq

def ErrorKind.name : ErrorKind → String
  | malformed => "malformed"
  | invalid => "invalid"
  | unsupported => "unsupported"

end CurveKeys
