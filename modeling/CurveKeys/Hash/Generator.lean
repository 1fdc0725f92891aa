import CurveKeys.Hash.Hmac

/-!
A generator of 32-byte blocks from a keyed hash. The seed fixes one endless stream of blocks; a
search takes the blocks in order and passes over those that are no candidate.
-/

namespace CurveKeys

/-- A keyed hash: key, message, tag. -/
abbrev Mac := Bytes → Bytes → Vector UInt8 32

structure Generator where
  key : Vector UInt8 32
  value : Vector UInt8 32

namespace Generator

/-- Mixes data into the key, separated from the value by a mark, and moves on. -/
def absorb (mac : Mac) (g : Generator) (mark : UInt8) (data : Bytes) : Generator :=
  let key := mac g.key.toList (g.value.toList ++ mark :: data)
  ⟨key, mac key.toList g.value.toList⟩

def start (mac : Mac) (seed : Bytes) : Generator :=
  let g : Generator := ⟨Vector.replicate 32 0, Vector.replicate 32 1⟩
  (g.absorb mac 0 seed).absorb mac 1 seed

/-- The next block, and the generator that has yielded it. -/
def block (mac : Mac) (g : Generator) : Vector UInt8 32 × Generator :=
  let value := mac g.key.toList g.value.toList
  (value, absorb mac ⟨g.key, value⟩ 0 [])

/-- The candidate that comes after `skip` others, within as many blocks as the budget. -/
def search {α : Type} (mac : Mac) (candidate? : Vector UInt8 32 → Option α) :
    Nat → Nat → Generator → Option α
  | 0, _, _ => none
  | budget + 1, skip, g =>
    let (value, next) := g.block mac
    match candidate? value, skip with
    | some a, 0 => some a
    | some _, skip + 1 => search mac candidate? budget skip next
    | none, skip => search mac candidate? budget skip next

end Generator

end CurveKeys
