import CurveKeys.Proofs.CheckedWords
import CurveKeys.Proofs.Digits

/-!
The recentring of base 16 digits by positions, in checked signed bytes. A digit that is read or
written outside the list has no result, nor has a sum, a difference or a shift that leaves a byte.
On nibbles there always is one: the centred digits, and the last one with the carry added.
-/

namespace CurveKeys.Digits
open Words

/-- The two base 16 digits of each of `n` bytes. -/
def spread? (read : Nat → Option UInt8) (n : Nat) : Option (List Int8) := do
  let pairs ← (List.range n).mapM fun i => do
    let x ← read i
    let low ← signed8? (x &&& 15).toNat
    let high ← signed8? (x >>> 4).toNat
    return [low, high]
  return pairs.flatten

/-- Recentres the digit at a position and adds its carry to the next one. -/
def carryAt? (digits : List Int8) (i : Nat) : Option (List Int8) := do
  let d ← digits[i]?
  let sum ← addSigned8? d 8
  let up := sum >>> 4
  let digit ← subSigned8? d (← shiftLeftSigned8? up 4)
  let digits := digits.set i digit
  let next ← digits[i + 1]?
  let next ← addSigned8? next up
  return digits.set (i + 1) next

/-- Recentres the first `n` digits. -/
def recentre? (n : Nat) (digits : List Int8) : Option (List Int8) :=
  (List.range n).foldlM carryAt? digits

theorem signed8?_toInt8 {x : UInt8} (h : x.toNat < 128) : signed8? x.toNat = some x.toInt8 :=
  signed8?_eq_some_iff.mpr (toInt_toInt8 h).symm

/-- Bytes read one by one give the digits of the string. -/
theorem spread?_eq (read : Nat → Option UInt8) {b : Bytes}
    (h : ∀ i, i < b.length → read i = b[i]?) : spread? read b.length = some (nibbles b) := by
  have hpairs := mapM_eq_map (l := List.range b.length)
    (f := fun i => do
      let x ← read i
      let low ← signed8? (x &&& 15).toNat
      let high ← signed8? (x >>> 4).toNat
      return [low, high])
    (g := fun i => nibblesOfByte (b.getD i 0)) fun i hi => by
      have hi := List.mem_range.mp hi
      have hread : read i = some (b.getD i 0) := by
        rw [h i hi, List.getElem?_eq_getElem hi, List.getD_eq_getElem b 0 hi]
      have hx := (b.getD i 0).toNat_lt
      have hlow : (b.getD i 0 &&& 15).toNat < 128 := by
        rw [UInt8.toNat_and]
        exact lt_of_le_of_lt Nat.and_le_right (by decide)
      have hhigh : (b.getD i 0 >>> 4).toNat < 128 := by
        rw [UInt8.toNat_shiftRight]
        exact lt_of_le_of_lt (Nat.shiftRight_eq_div_pow _ 4).le (by omega)
      rw [bind_eq_of_eq_some hread, bind_eq_of_eq_some (signed8?_toInt8 hlow),
        bind_eq_of_eq_some (signed8?_toInt8 hhigh)]
      rfl
  have hbytes : (List.range b.length).map (b.getD · 0) = b := by
    apply List.ext_getElem
    · simp
    · intro i hi hb
      rw [List.getElem_map, List.getElem_range, List.getD_eq_getElem b 0 hb]
  rw [spread?, bind_eq_of_eq_some hpairs, nibbles, List.flatMap_def]
  conv_rhs => rw [← hbytes, List.map_map]
  rfl

/-- A nibble with the carry from below is recentred in a signed byte, and what it carries fits the
nibble above. -/
theorem carryAt?_append {d c e : Int8} (hd : Nibble d) (hc : Carry c) (he : Nibble e)
    (done rest : List Int8) :
    carryAt? (done ++ (d + c) :: e :: rest) done.length =
      some (done ++ (d + c - (d + c + 8) >>> 4 <<< 4) :: (e + (d + c + 8) >>> 4) :: rest) := by
  have hsum : addSigned8? (d + c) 8 = some (d + c + 8) :=
    of_nibble_of_carry (P := fun d c => addSigned8? (d + c) 8 = some (d + c + 8))
      (by decide +kernel) hd hc
  have hdown : shiftLeftSigned8? ((d + c + 8) >>> 4) 4 = some ((d + c + 8) >>> 4 <<< 4) :=
    of_nibble_of_carry (P := fun d c => shiftLeftSigned8? ((d + c + 8) >>> 4) 4 =
      some ((d + c + 8) >>> 4 <<< 4)) (by decide +kernel) hd hc
  have hdigit : subSigned8? (d + c) ((d + c + 8) >>> 4 <<< 4) =
      some (d + c - (d + c + 8) >>> 4 <<< 4) :=
    of_nibble_of_carry (P := fun d c => subSigned8? (d + c) ((d + c + 8) >>> 4 <<< 4) =
      some (d + c - (d + c + 8) >>> 4 <<< 4)) (by decide +kernel) hd hc
  have hnext : addSigned8? e ((d + c + 8) >>> 4) = some (e + (d + c + 8) >>> 4) :=
    of_nibble_of_carry (P := fun e up => addSigned8? e up = some (e + up))
      (by decide +kernel) he (recentre_step hc hd).1
  have hread : (done ++ (d + c) :: e :: rest)[done.length]? = some (d + c) := by simp
  have hset (x : Int8) : (done ++ (d + c) :: e :: rest).set done.length x =
      done ++ x :: e :: rest := by simp
  have hread' (x : Int8) : (done ++ x :: e :: rest)[done.length + 1]? = some e := by simp
  rw [carryAt?, bind_eq_of_eq_some hread, bind_eq_of_eq_some hsum, bind_eq_of_eq_some hdown,
    bind_eq_of_eq_some hdigit, hset, bind_eq_of_eq_some (hread' _), bind_eq_of_eq_some hnext]
  simp

/-- The recentring of the digits below the last one, behind those that are done. -/
theorem foldlM_carryAt? {low : List Int8} {top c : Int8} (hlow : ∀ d ∈ low, Nibble d)
    (htop : Nibble top) (hc : Carry c) (done : List Int8) :
    (List.range' done.length low.length).foldlM carryAt?
        (done ++ (low ++ [top]).modifyHead (· + c)) =
      some (done ++ ((recentre c low).1 ++ [top + (recentre c low).2])) := by
  induction low generalizing c done with
  | nil => rfl
  | cons d low ih =>
      obtain ⟨hd, hlow⟩ := List.forall_mem_cons.mp hlow
      obtain ⟨hup, -, -⟩ := recentre_step hc hd
      have hrest := ih hlow hup (done ++ [d + c - (d + c + 8) >>> 4 <<< 4])
      obtain ⟨e, rest, hnext⟩ : ∃ e rest, low ++ [top] = e :: rest :=
        List.exists_cons_of_ne_nil (by simp)
      have he : Nibble e := by
        have hmem : e ∈ low ++ [top] := hnext ▸ List.mem_cons_self
        rcases List.mem_append.mp hmem with h | h
        · exact hlow e h
        · exact List.mem_singleton.mp h ▸ htop
      rw [hnext, List.length_append, List.length_singleton] at hrest
      simp only [List.append_assoc, List.cons_append, List.nil_append, List.modifyHead_cons]
        at hrest
      rw [List.length_cons, List.range'_succ, List.foldlM_cons, List.cons_append, hnext,
        List.modifyHead_cons, bind_eq_of_eq_some (carryAt?_append hd hc he done rest)]
      exact hrest

/-- On nibbles no step of the recentring leaves a signed byte. -/
theorem recentre?_eq {low : List Int8} {top : Int8} (hlow : ∀ d ∈ low, Nibble d)
    (htop : Nibble top) :
    recentre? low.length (low ++ [top]) =
      some ((recentre 0 low).1 ++ [top + (recentre 0 low).2]) := by
  have h := foldlM_carryAt? hlow htop (c := 0) (.inl rfl) []
  have hstart : (low ++ [top]).modifyHead (· + 0) = low ++ [top] := by
    cases low <;> simp
  rw [hstart] at h
  rw [recentre?, List.range_eq_range']
  exact h

end CurveKeys.Digits
