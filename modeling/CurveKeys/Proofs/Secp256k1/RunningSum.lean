import CurveKeys.Proofs.CheckedWords
import CurveKeys.Proofs.Secp256k1.Accumulator

/-!
The running sum over any sequence of steps. A step in checked words has no result where the highest
limb would overflow, and that is where the exact total leaves 96 bits. A sequence has a result when
no step of it does that, and its limbs then spell the exact total after every step.
-/

namespace CurveKeys.Secp256k1.Accumulator
open Words

/-- One step of a sum: a term, a product, or the low limb taken off. -/
inductive Step where
  | add (v : UInt64)
  | mulAdd (x y : UInt32)
  | shift

/-- The highest limb may not overflow, and may not come out smaller than it was. The other two wrap
by design. -/
def add? (a : Accumulator) (v : UInt64) : Option Accumulator := do
  let lo := v.toUInt32
  let hi := (v >>> 32).toUInt32
  let c0 := a.c0 + lo
  let carry := wrapped c0 lo
  let c1 := a.c1 + hi
  let c1' := c1 + carry
  let sum ← add32? a.c2 (wrapped c1 hi)
  let c2 ← add32? sum (wrapped c1' carry)
  guard (a.c2 ≤ c2)
  return ⟨c0, c1', c2⟩

def mulAdd? (a : Accumulator) (x y : UInt32) : Option Accumulator := do
  a.add? (← mul64? x.toUInt64 y.toUInt64)

namespace Step

def act (a : Accumulator) : Step → Accumulator
  | .add v => a.add v
  | .mulAdd x y => a.mulAdd x y
  | .shift => a.shift

def act? (a : Accumulator) : Step → Option Accumulator
  | .add v => a.add? v
  | .mulAdd x y => a.mulAdd? x y
  | .shift => some a.shift

/-- The exact total after a step. -/
def exact (n : Nat) : Step → Nat
  | .add v => n + v.toNat
  | .mulAdd x y => n + x.toNat * y.toNat
  | .shift => n / 2 ^ 32

end Step

def run (a : Accumulator) (steps : List Step) : Accumulator := steps.foldl Step.act a

def run? (a : Accumulator) (steps : List Step) : Option Accumulator := steps.foldlM Step.act? a

/-- The exact total after a sequence of steps. -/
def total (n : Nat) (steps : List Step) : Nat := steps.foldl Step.exact n

theorem toNat_lt (a : Accumulator) : a.toNat < 2 ^ 96 := by
  have h0 := a.c0.toNat_lt
  have h1 := a.c1.toNat_lt
  have h2 := a.c2.toNat_lt
  rw [toNat_eq]
  omega

/-- An addition in checked words has a result as long as the sum fits three limbs, and no longer. -/
theorem add?_eq_some_iff {a b : Accumulator} {v : UInt64} :
    a.add? v = some b ↔ a.toNat + v.toNat < 2 ^ 96 ∧ a.add v = b := by
  have hsum := toNat_add_carries a v
  have h0 := (a.add v).c0.toNat_lt
  have h1 := (a.add v).c1.toNat_lt
  have hadd? : a.add? v = do
      let sum ← add32? a.c2 (a.carries v).1
      let c2 ← add32? sum (a.carries v).2
      guard (a.c2 ≤ c2)
      return ⟨(a.add v).c0, (a.add v).c1, c2⟩ := rfl
  have hb : a.add v = ⟨(a.add v).c0, (a.add v).c1, a.c2 + (a.carries v).1 + (a.carries v).2⟩ := rfl
  rw [hadd?, hb]
  generalize (a.carries v).1 = x at hsum
  generalize (a.carries v).2 = y at hsum
  constructor
  · intro h
    simp only [Option.bind_eq_bind, Option.bind_eq_some_iff] at h
    obtain ⟨sum, hx, c2, hy, -, -, hc⟩ := h
    rw [add32?, word32?_eq_some_iff] at hx hy
    have hlt := c2.toNat_lt
    have hc2 : a.c2 + x + y = c2 := by
      apply UInt32.toNat_inj.mp
      rw [toNat_add32 (by rw [toNat_add32 (by omega)]; omega), toNat_add32 (by omega)]
      omega
    rw [hc2]
    exact ⟨by omega, Option.some.inj hc⟩
  · rintro ⟨hlt, rfl⟩
    have hx : (a.c2 + x).toNat = a.c2.toNat + x.toNat := toNat_add32 (by omega)
    have hy : (a.c2 + x + y).toNat = (a.c2 + x).toNat + y.toNat := toNat_add32 (by omega)
    have hguard : guard (a.c2 ≤ a.c2 + x + y) = some () :=
      if_pos (UInt32.le_iff_toNat_le.mpr (by omega))
    rw [bind_eq_of_eq_some (add32?_eq hx), bind_eq_of_eq_some (add32?_eq hy),
      bind_eq_of_eq_some hguard]
    rfl

theorem mulAdd?_eq (a : Accumulator) (x y : UInt32) :
    a.mulAdd? x y = a.add? (x.toUInt64 * y.toUInt64) :=
  bind_eq_of_eq_some (mul64?_eq (toNat_product x y))

namespace Step

/-- A step in checked words has a result as long as the exact total fits three limbs. -/
theorem act?_eq_some_iff {a b : Accumulator} {s : Step} :
    s.act? a = some b ↔ s.exact a.toNat < 2 ^ 96 ∧ s.act a = b := by
  cases s with
  | add v => exact add?_eq_some_iff
  | mulAdd x y =>
      rw [act?, mulAdd?_eq, add?_eq_some_iff, toNat_product]
      rfl
  | shift =>
      have hlt : a.toNat / 2 ^ 32 < 2 ^ 96 := (Nat.div_le_self _ _).trans_lt a.toNat_lt
      rw [act?, Option.some.injEq, exact]
      exact (and_iff_right hlt).symm

theorem toNat_act {a : Accumulator} {s : Step} (h : s.exact a.toNat < 2 ^ 96) :
    (s.act a).toNat = s.exact a.toNat := by
  cases s with
  | add v => exact toNat_add h
  | mulAdd x y => exact toNat_mulAdd h
  | shift => exact toNat_shift a

end Step

/-- The exact total fits three limbs at the start and after every step. -/
def Fits (n : Nat) (steps : List Step) : Prop :=
  ∀ i ≤ steps.length, total n (steps.take i) < 2 ^ 96

instance (n : Nat) (steps : List Step) : Decidable (Fits n steps) :=
  inferInstanceAs (Decidable (∀ i ≤ steps.length, total n (steps.take i) < 2 ^ 96))

theorem fits_nil {n : Nat} : Fits n [] ↔ n < 2 ^ 96 :=
  ⟨fun h => h 0 (Nat.zero_le _), fun h i _ => by rwa [List.take_nil]⟩

theorem fits_cons {n : Nat} {s : Step} {steps : List Step} :
    Fits n (s :: steps) ↔ n < 2 ^ 96 ∧ Fits (s.exact n) steps := by
  constructor
  · intro h
    exact ⟨h 0 (Nat.zero_le _), fun i hi => h (i + 1) (Nat.succ_le_succ hi)⟩
  · rintro ⟨hn, h⟩ i hi
    cases i with
    | zero => exact hn
    | succ i => exact h i (Nat.le_of_succ_le_succ hi)

theorem Fits.lt {n : Nat} {steps : List Step} (h : Fits n steps) : n < 2 ^ 96 :=
  h 0 (Nat.zero_le _)

theorem Fits.take {n : Nat} {steps : List Step} (h : Fits n steps) (i : Nat) :
    Fits n (steps.take i) := by
  intro j hj
  rw [List.length_take] at hj
  rw [List.take_take, min_eq_left (by omega)]
  exact h j (by omega)

/-- A sequence has a result in checked words when the exact total always fits three limbs, and only
then. -/
theorem run?_eq_some_iff {a b : Accumulator} {steps : List Step} :
    run? a steps = some b ↔ Fits a.toNat steps ∧ run a steps = b := by
  induction steps generalizing a with
  | nil =>
      rw [fits_nil, and_iff_right a.toNat_lt]
      exact Option.some_inj
  | cons s steps ih =>
      have hstep : run? a (s :: steps) = (s.act? a).bind fun a' => run? a' steps := rfl
      simp only [hstep, Option.bind_eq_some_iff, Step.act?_eq_some_iff, ih]
      rw [fits_cons, and_iff_right a.toNat_lt]
      constructor
      · rintro ⟨_, ⟨hexact, rfl⟩, hfits, hrun⟩
        rw [Step.toNat_act hexact] at hfits
        exact ⟨hfits, hrun⟩
      · rintro ⟨hfits, hrun⟩
        refine ⟨s.act a, ⟨hfits.lt, rfl⟩, ?_, hrun⟩
        rwa [Step.toNat_act hfits.lt]

theorem toNat_run {a : Accumulator} {steps : List Step} (h : Fits a.toNat steps) :
    (run a steps).toNat = total a.toNat steps := by
  induction steps generalizing a with
  | nil => rfl
  | cons s steps ih =>
      have hfits := (fits_cons.mp h).2
      have hstep := Step.toNat_act hfits.lt
      rw [← hstep] at hfits
      have hrest := ih hfits
      rw [hstep] at hrest
      exact hrest

/-- The limbs spell an integer, and a shift splits it at its lowest 32 bits. -/
structure Represents (a : Accumulator) (n : Nat) : Prop where
  limbs : a.c0.toNat + 2 ^ 32 * a.c1.toNat + 2 ^ 64 * a.c2.toNat = n
  split : n = a.low.toNat + 2 ^ 32 * a.shift.toNat
  low_lt : a.low.toNat < 2 ^ 32

theorem represents_toNat (a : Accumulator) : a.Represents a.toNat where
  limbs := by
    rw [toNat_eq]
    ring
  split := by
    rw [toNat_low, toNat_shift]
    exact (Nat.mod_add_div _ _).symm
  low_lt := a.low.toNat_lt

theorem total_take_succ {n i : Nat} {steps : List Step} {s : Step} (h : steps[i]? = some s) :
    total n (steps.take (i + 1)) = s.exact (total n (steps.take i)) := by
  rw [List.take_add_one, h, total, List.foldl_append]
  rfl

/-- Where the exact total of a sequence of steps from zero always fits three limbs, no step overflows
the highest one, and after any of them the limbs spell the total. A shift that follows takes the
lowest 32 bits off and leaves the rest. -/
theorem running_sum_exact {steps : List Step} (h : Fits 0 steps) (i : Nat) :
    ∃ a, run? zero (steps.take i) = some a ∧ run zero (steps.take i) = a ∧
      a.Represents (total 0 (steps.take i)) ∧
      (steps[i]? = some .shift →
        total 0 (steps.take i) = a.low.toNat + 2 ^ 32 * total 0 (steps.take (i + 1))) := by
  have hfits : Fits zero.toNat (steps.take i) := h.take i
  have hrep := represents_toNat (run zero (steps.take i))
  rw [toNat_run hfits] at hrep
  refine ⟨_, run?_eq_some_iff.mpr ⟨hfits, rfl⟩, rfl, hrep, fun hshift => ?_⟩
  have hrest : (run zero (steps.take i)).shift.toNat = total 0 (steps.take (i + 1)) := by
    rw [toNat_shift, toNat_run hfits, total_take_succ hshift]
    rfl
  rw [← hrest]
  exact hrep.split

/-- Three great terms wrap the middle limb and carry into the highest one. -/
theorem running_sum_exact_of_greatest :
    let steps : List Step := [.add 0xFFFFFFFFFFFFFFFF, .add 0xFFFFFFFFFFFFFFFF,
      .mulAdd 0xFFFFFFFF 0xFFFFFFFF, .add 2, .shift, .mulAdd 0xFFFFFFFF 0xFFFFFFFF, .shift]
    Fits 0 steps ∧ total 0 (steps.take 4) = 3 * 2 ^ 64 - 2 ^ 33 + 1 ∧ steps[4]? = some .shift ∧
      ∃ a, run? zero (steps.take 4) = some a ∧ run zero (steps.take 4) = a ∧
        a.Represents (total 0 (steps.take 4)) ∧
        total 0 (steps.take 4) = a.low.toNat + 2 ^ 32 * total 0 (steps.take 5) := by
  intro steps
  have h : Fits 0 steps := by decide
  obtain ⟨a, hrun?, hrun, hrep, hshift⟩ := running_sum_exact h 4
  exact ⟨h, by decide, rfl, a, hrun?, hrun, hrep, hshift rfl⟩

end CurveKeys.Secp256k1.Accumulator
