/-!
Log records: a level and a text.
-/

namespace CurveKeys.Keys.Log

inductive Level where
  | debug
  | trace
deriving DecidableEq

def Level.name : Level → String
  | debug => "DEBUG"
  | trace => "TRACE"

structure Record where
  level : Level
  text : String
deriving DecidableEq

/-- One line: the level and the text. -/
def Record.line (r : Record) : String := r.level.name ++ " " ++ r.text

end CurveKeys.Keys.Log
