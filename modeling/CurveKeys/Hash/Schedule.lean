/-!
The message schedule that SHA-256 and SHA-512 share, as a window of its sixteen latest words. A
round takes the oldest word; then a word made from four of the sixteen joins at the other end.
-/

namespace CurveKeys

/-- Sixteen words in a row of a message schedule. -/
abbrev Schedule (α : Type) := Vector α 16

namespace Schedule

variable {α : Type}

/-- The first word of the window. -/
def oldest (w : Schedule α) : α := w[0]

/-- The word after the window: those at distances 16 and 7 as they are, those at distances 15 and
2 through a mixing function each. -/
def next [Add α] (early late : α → α) (w : Schedule α) : α :=
  w[0] + early w[1] + w[9] + late w[14]

/-- The window one word later. -/
def advance [Add α] (early late : α → α) (w : Schedule α) : Schedule α :=
  (w.push (w.next early late)).drop 1

end Schedule

end CurveKeys
