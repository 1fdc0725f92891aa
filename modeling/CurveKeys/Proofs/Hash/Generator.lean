import CurveKeys.Hash.Generator
import CurveKeys.Proofs.CheckedWords

/-!
Searches in the stream of a generator. Which blocks there are does not depend on what is searched
for, so the result of a search is the candidate with as many candidates before it as were to be
passed over. A loop that counts the candidates in a word finds the same one.
-/

namespace CurveKeys.Generator

/-- The generator that has yielded `j` blocks. -/
def after (mac : Mac) (g : Generator) : Nat → Generator
  | 0 => g
  | j + 1 => ((g.after mac j).block mac).2

/-- The block with index `j`. -/
def blockAt (mac : Mac) (g : Generator) (j : Nat) : Vector UInt8 32 :=
  ((g.after mac j).block mac).1

variable {α : Type} {mac : Mac} {candidate? : Vector UInt8 32 → Option α}

theorem after_succ (g : Generator) (j : Nat) :
    g.after mac (j + 1) = (g.block mac).2.after mac j := by
  induction j with
  | zero => rfl
  | succ j ih => rw [after, ih, after]

theorem blockAt_succ (g : Generator) (j : Nat) :
    g.blockAt mac (j + 1) = (g.block mac).2.blockAt mac j := by
  rw [blockAt, after_succ, blockAt]

/-- How many of the first `j` blocks are candidates. -/
def candidates (mac : Mac) (candidate? : Vector UInt8 32 → Option α) (g : Generator) (j : Nat) :
    Nat :=
  Nat.count (fun i => (candidate? (g.blockAt mac i)).isSome) j

theorem candidates_succ (g : Generator) (j : Nat) :
    candidates mac candidate? g (j + 1) = candidates mac candidate? (g.block mac).2 j +
      if (candidate? (g.block mac).1).isSome then 1 else 0 := by
  rw [candidates, Nat.count_succ']
  simp only [blockAt_succ]
  rfl

theorem search_eq_some_iff {budget skip : Nat} {g : Generator} {a : α} :
    search mac candidate? budget skip g = some a ↔
      ∃ j < budget, candidates mac candidate? g j = skip ∧
        candidate? (g.blockAt mac j) = some a := by
  induction budget generalizing skip g with
  | zero => exact iff_of_false (fun h => nomatch h) fun ⟨j, hj, _⟩ => Nat.not_lt_zero j hj
  | succ budget ih =>
      have hfirst : candidates mac candidate? g 0 = 0 := rfl
      have hblock : g.blockAt mac 0 = (g.block mac).1 := rfl
      rw [search, Nat.exists_lt_succ_left, hfirst, hblock]
      simp only [candidates_succ, blockAt_succ]
      cases hc : candidate? (g.block mac).1 with
      | none => simp [ih]
      | some c =>
          cases skip with
          | zero => simp
          | succ skip => simp [ih]

/-- A search succeeds exactly when its budget reaches a candidate more than it passes over. -/
theorem isSome_search {budget skip : Nat} {g : Generator} :
    (search mac candidate? budget skip g).isSome ↔
      skip < candidates mac candidate? g budget := by
  constructor
  · intro h
    obtain ⟨a, ha⟩ := Option.isSome_iff_exists.mp h
    obtain ⟨j, hj, rfl, hc⟩ := search_eq_some_iff.mp ha
    exact Nat.count_strict_mono (Option.isSome_iff_exists.mpr ⟨a, hc⟩) hj
  · intro h
    rw [candidates] at h
    have hcard := fun hf => h.trans_le (Nat.count_le_card hf budget)
    obtain ⟨a, ha⟩ := Option.isSome_iff_exists.mp (Nat.nth_mem skip hcard)
    have hs : search mac candidate? budget skip g = some a :=
      search_eq_some_iff.mpr ⟨_, Nat.nth_lt_of_lt_count h, Nat.count_nth hcard, ha⟩
    exact Option.isSome_of_eq_some hs

/-- A search returns a candidate, from some block of the stream. -/
theorem exists_of_search {budget skip : Nat} {g : Generator} {a : α}
    (h : search mac candidate? budget skip g = some a) : ∃ b, candidate? b = some a :=
  have ⟨_, _, _, hc⟩ := search_eq_some_iff.mp h
  ⟨_, hc⟩

/-- A search that comes to a candidate has passed all those before it. -/
theorem exists_search_of_le {budget skip skip' : Nat} {g : Generator} {a : α}
    (h : search mac candidate? budget skip g = some a) (hle : skip' ≤ skip) :
    ∃ a', search mac candidate? budget skip' g = some a' :=
  Option.isSome_iff_exists.mp
    (isSome_search.mpr (hle.trans_lt (isSome_search.mp (Option.isSome_of_eq_some h))))

/-- The search as a loop over a word that counts the candidates so far and has to exceed `last`. -/
def search? (mac : Mac) (candidate? : Vector UInt8 32 → Option α) (last : UInt32) :
    Nat → UInt32 → Generator → Option α
  | 0, _, _ => none
  | budget + 1, generated, g =>
    let (value, next) := g.block mac
    match candidate? value with
    | none => search? mac candidate? last budget generated next
    | some a => do
      let generated ← Words.add32? generated 1
      if last < generated then some a else search? mac candidate? last budget generated next

/-- The counter stays below the largest word as long as the count to exceed does. -/
theorem search?_eq {last : UInt32} (hlast : last.toNat < 2 ^ 32 - 1) {budget skip : Nat}
    {generated : UInt32} {g : Generator} (hskip : generated.toNat + skip = last.toNat) :
    search? mac candidate? last budget generated g = search mac candidate? budget skip g := by
  induction budget generalizing generated skip g with
  | zero => rfl
  | succ budget ih =>
      rw [search?, search]
      generalize g.block mac = next
      obtain ⟨value, next⟩ := next
      cases hc : candidate? value with
      | none =>
          simp only [hc]
          exact ih hskip
      | some c =>
          have hadd : (generated + 1).toNat = generated.toNat + 1 :=
            Words.toNat_add32 (by rw [UInt32.toNat_one]; omega)
          simp only [hc, Words.bind_eq_of_eq_some (Words.add32?_eq hadd), UInt32.lt_iff_toNat_lt,
            hadd]
          cases skip with
          | zero => exact if_pos (by omega)
          | succ skip => exact (if_neg (by omega)).trans (ih (by omega))

end CurveKeys.Generator
