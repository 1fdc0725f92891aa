/-!
Choice between two values by a flag.
-/

namespace CurveKeys

/-- The second value when the flag is set, and the first otherwise. -/
def select {α : Type} (a b : α) (flag : Bool) : α := if flag then b else a

/-- The same choice on both sides keeps a relation. -/
theorem select_related {α β : Type} {R : α → β → Prop} {a b : α} {v w : β} (flag : Bool)
    (ha : R a v) (hb : R b w) : R (select a b flag) (select v w flag) := by
  cases flag with
  | false => exact ha
  | true => exact hb

end CurveKeys
