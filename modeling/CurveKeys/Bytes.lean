/-!
Byte strings and the integers they spell. A fixed-width window of a string keeps its first bytes
and fills a shorter string with zeros on the left.
-/

namespace CurveKeys

abbrev Bytes := List UInt8

namespace Bytes

/-- The integer spelled with the most significant byte first. -/
def toNatBE (b : Bytes) : Nat :=
  b.foldl (fun n x => 256 * n + x.toNat) 0

/-- The integer spelled with the least significant byte first. -/
def toNatLE : Bytes → Nat
  | [] => 0
  | x :: r => x.toNat + 256 * toNatLE r

/-- The `n` low bytes of an integer, least significant first. -/
def ofNatLE : Nat → Nat → Bytes
  | 0, _ => []
  | n + 1, v => UInt8.ofNat v :: ofNatLE n (v / 256)

/-- The `n` low bytes of an integer, most significant first. -/
def ofNatBE (n v : Nat) : Bytes :=
  (ofNatLE n v).reverse

theorem length_ofNatLE (n v : Nat) : (ofNatLE n v).length = n := by
  induction n generalizing v with
  | zero => rfl
  | succ n ih => simp [ofNatLE, ih]

/-- The string as an array, when it has exactly `n` bytes. -/
def exactly (n : Nat) (b : Bytes) : Option (Vector UInt8 n) :=
  if h : b.length = n then some ⟨b.toArray, by simpa using h⟩ else none

/-- The first `n` bytes, with zeros on the left when there are fewer. -/
def window (n : Nat) (b : Bytes) : Vector UInt8 n :=
  ⟨(List.replicate (n - b.length) 0 ++ b.take n).toArray, by simp⟩

/-- The byte at a position, and zero past the end. -/
@[inline] def byteAt {n : Nat} (b : Vector UInt8 n) (i : Nat) : UInt8 := b[i]?.getD 0

theorem byteAt_eq_getElem {n : Nat} (b : Vector UInt8 n) (i : Nat) (h : i < n) :
    byteAt b i = b[i] := by
  simp [byteAt, h]

end Bytes

end CurveKeys
