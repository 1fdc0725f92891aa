import Mathlib
import CurveKeys.Edwards25519.Scalar.Limbs

/-!
Intervals for signed limbs. A schedule of steps is run on intervals first; where that run succeeds,
no step leaves 64 bits on any limbs within the intervals, every limb stays within its interval, and
the integer that the limbs spell keeps its residue.
-/

namespace CurveKeys.Edwards25519.Limbs

structure Interval where
  lo : Int
  hi : Int
deriving DecidableEq

namespace Interval

def Contains (I : Interval) (x : Int64) : Prop := I.lo ≤ x.toInt ∧ x.toInt ≤ I.hi

/-- The interval, when words of 64 bits hold all of it. -/
def checked (I : Interval) : Option Interval :=
  if -2 ^ 63 ≤ I.lo ∧ I.hi < 2 ^ 63 then some I else none

def add? (I J : Interval) : Option Interval := checked ⟨I.lo + J.lo, I.hi + J.hi⟩

def mul? (I J : Interval) : Option Interval :=
  checked ⟨min (min (I.lo * J.lo) (I.lo * J.hi)) (min (I.hi * J.lo) (I.hi * J.hi)),
    max (max (I.lo * J.lo) (I.lo * J.hi)) (max (I.hi * J.lo) (I.hi * J.hi))⟩

theorem of_checked {lo hi : Int} {K : Interval} (h : checked ⟨lo, hi⟩ = some K) :
    K = ⟨lo, hi⟩ ∧ -2 ^ 63 ≤ lo ∧ hi < 2 ^ 63 := by
  rw [checked] at h
  split at h
  · next hfit => exact ⟨(Option.some.inj h).symm, hfit⟩
  · exact nomatch h

theorem bmod_eq_self {n : Int} (hlo : -2 ^ 63 ≤ n) (hhi : n < 2 ^ 63) : n.bmod (2 ^ 64) = n :=
  Int.bmod_eq_of_le (by omega) (by omega)

theorem contains_add? {I J K : Interval} {x y : Int64} (h : I.add? J = some K)
    (hx : I.Contains x) (hy : J.Contains y) :
    (x + y).toInt = x.toInt + y.toInt ∧ K.Contains (x + y) := by
  obtain ⟨rfl, hlo, hhi⟩ := of_checked h
  obtain ⟨hx0, hx1⟩ := hx
  obtain ⟨hy0, hy1⟩ := hy
  have hsum : (x + y).toInt = x.toInt + y.toInt := by
    rw [Int64.toInt_add, bmod_eq_self (by omega) (by omega)]
  exact ⟨hsum, by rw [hsum]; exact add_le_add hx0 hy0, by rw [hsum]; exact add_le_add hx1 hy1⟩

theorem mul_le_max {a b x : Int} (ha : a ≤ x) (hb : x ≤ b) (y : Int) :
    x * y ≤ max (a * y) (b * y) := by
  rcases le_total 0 y with hy | hy
  · exact le_max_of_le_right (mul_le_mul_of_nonneg_right hb hy)
  · exact le_max_of_le_left (mul_le_mul_of_nonpos_right ha hy)

theorem min_le_mul {a b x : Int} (ha : a ≤ x) (hb : x ≤ b) (y : Int) :
    min (a * y) (b * y) ≤ x * y := by
  rcases le_total 0 y with hy | hy
  · exact min_le_of_left_le (mul_le_mul_of_nonneg_right ha hy)
  · exact min_le_of_right_le (mul_le_mul_of_nonpos_right hb hy)

theorem contains_mul? {I J K : Interval} {x y : Int64} (h : I.mul? J = some K)
    (hx : I.Contains x) (hy : J.Contains y) :
    (x * y).toInt = x.toInt * y.toInt ∧ K.Contains (x * y) := by
  obtain ⟨rfl, hlo, hhi⟩ := of_checked h
  obtain ⟨hx0, hx1⟩ := hx
  obtain ⟨hy0, hy1⟩ := hy
  have hmax (a : Int) : a * y.toInt ≤ max (a * J.lo) (a * J.hi) := by
    have h := mul_le_max hy0 hy1 a
    rwa [mul_comm _ a, mul_comm _ a, mul_comm _ a] at h
  have hmin (a : Int) : min (a * J.lo) (a * J.hi) ≤ a * y.toInt := by
    have h := min_le_mul hy0 hy1 a
    rwa [mul_comm _ a, mul_comm _ a, mul_comm _ a] at h
  have hle := (mul_le_max hx0 hx1 y.toInt).trans (max_le_max (hmax I.lo) (hmax I.hi))
  have hge := (min_le_min (hmin I.lo) (hmin I.hi)).trans (min_le_mul hx0 hx1 y.toInt)
  have hprod : (x * y).toInt = x.toInt * y.toInt := by
    rw [Int64.toInt_mul, bmod_eq_self (hlo.trans hge) (lt_of_le_of_lt hle hhi)]
  exact ⟨hprod, by rw [hprod]; exact hge, by rw [hprod]; exact hle⟩

end Interval

/-- Intervals for the limbs of a list. -/
abbrev Box := List Interval

def Within : Box → List Int64 → Prop := List.Forall₂ Interval.Contains

theorem toInt_append (a b : List Int64) :
    toInt (a ++ b) = toInt a + 2 ^ (21 * a.length) * toInt b := by
  induction a with
  | nil => simp [toInt]
  | cons x a ih =>
      rw [List.cons_append, toInt, toInt, ih, List.length_cons, Nat.mul_succ, pow_add]
      ring

theorem toInt_set (s : List Int64) (i : Nat) (hi : i < s.length) :
    toInt (s.set i 0) = toInt s - 2 ^ (21 * i) * (s.getD i 0).toInt := by
  induction s generalizing i with
  | nil => exact absurd hi (Nat.not_lt_zero i)
  | cons x s ih =>
      cases i with
      | zero =>
          rw [List.set_cons_zero, toInt, toInt, List.getD_cons_zero]
          simp
      | succ i =>
          rw [List.set_cons_succ, toInt, toInt, ih i (Nat.lt_of_succ_lt_succ hi),
            List.getD_cons_succ, Nat.mul_succ, pow_add]
          ring

/-- Intervals for a list to which a multiple of another one is added. -/
def addScaled? (V : Interval) : Box → Box → Option Box
  | [], X => some X
  | _ :: _, [] => none
  | C :: Cs, X :: Xs => do
    let P ← V.mul? C
    let S ← X.add? P
    let R ← addScaled? V Cs Xs
    some (S :: R)

theorem length_addScaled (v : Int64) (c x : List Int64) :
    (addScaled v c x).length = x.length := by
  induction c generalizing x with
  | nil => rfl
  | cons c cs ih =>
      cases x with
      | nil => rfl
      | cons x xs => rw [addScaled, List.length_cons, ih, List.length_cons]

theorem addScaled_sound {V : Interval} {v : Int64} (hv : V.Contains v) {C X R : Box}
    {c x : List Int64} (hc : Within C c) (hx : Within X x) (h : addScaled? V C X = some R) :
    Within R (addScaled v c x) ∧ toInt (addScaled v c x) = toInt x + v.toInt * toInt c := by
  induction hc generalizing X x R with
  | nil =>
      obtain rfl := Option.some.inj h
      exact ⟨hx, by simp [addScaled, toInt]⟩
  | cons hc _ ih =>
      cases hx with
      | nil => exact nomatch h
      | cons hx hxs =>
          simp only [addScaled?, Option.bind_eq_bind, Option.bind_eq_some_iff] at h
          obtain ⟨P, hP, S, hS, R', hR, hR'⟩ := h
          obtain rfl := Option.some.inj hR'
          obtain ⟨hprod, hp⟩ := Interval.contains_mul? hP hv hc
          obtain ⟨hsum, hs⟩ := Interval.contains_add? hS hx hp
          obtain ⟨hw, hval⟩ := ih hxs hR
          refine ⟨.cons hs hw, ?_⟩
          rw [addScaled, toInt, toInt, toInt, hsum, hprod, hval]
          ring

theorem getD_addScaled (v : Int64) (c x : List Int64) (i : Nat) (hi : c.length ≤ i) :
    (addScaled v c x).getD i 0 = x.getD i 0 := by
  induction c generalizing x i with
  | nil => rfl
  | cons c cs ih =>
      cases x with
      | nil => rfl
      | cons x xs =>
          obtain ⟨j, rfl⟩ := Nat.exists_eq_add_of_le' (Nat.lt_of_lt_of_le (Nat.succ_pos _) hi)
          rw [addScaled, List.getD_cons_succ, List.getD_cons_succ]
          exact ih xs j (Nat.le_of_succ_le_succ hi)

/-- The interval of one value. -/
def point (x : Int64) : Interval := ⟨x.toInt, x.toInt⟩

theorem within_point (c : List Int64) : Within (c.map point) c := by
  induction c with
  | nil => exact .nil
  | cons x c ih => exact .cons ⟨le_refl _, le_refl _⟩ ih

/-- Intervals after limb `i` has been folded. -/
def fold? (i : Nat) (box : Box) : Option Box :=
  if 12 ≤ i ∧ i < box.length then do
    let R ← addScaled? (box.getD i ⟨0, 0⟩) (foldFactors.map point) (box.drop (i - 12))
    some ((box.take (i - 12) ++ R).set i ⟨0, 0⟩)
  else
    none

theorem within_set {box : Box} {s : List Int64} (h : Within box s) {I : Interval} {x : Int64}
    (hx : I.Contains x) (i : Nat) : Within (box.set i I) (s.set i x) := by
  induction h generalizing i with
  | nil => exact .nil
  | cons hd hs ih =>
      cases i with
      | zero => exact .cons hx hs
      | succ i => exact .cons hd (ih i)

theorem within_append {A B : Box} {a b : List Int64} (ha : Within A a) (hb : Within B b) :
    Within (A ++ B) (a ++ b) :=
  List.rel_append ha hb

theorem exists_interval_of_mem {box : Box} {s : List Int64} (h : Within box s) {x : Int64}
    (hx : x ∈ s) : ∃ I ∈ box, I.Contains x := by
  induction h with
  | nil => exact nomatch hx
  | @cons I y _ _ hy _ ih =>
      rcases List.mem_cons.mp hx with rfl | hx
      · exact ⟨I, List.mem_cons_self, hy⟩
      · obtain ⟨J, hJ, hcontains⟩ := ih hx
        exact ⟨J, List.mem_cons_of_mem _ hJ, hcontains⟩

theorem contains_getD {box : Box} {s : List Int64} (h : Within box s) (i : Nat) :
    (box.getD i ⟨0, 0⟩).Contains (s.getD i 0) := by
  induction h generalizing i with
  | nil => exact ⟨le_refl _, le_refl _⟩
  | cons hd hs ih =>
      cases i with
      | zero => exact hd
      | succ i => exact ih i

/-- What a fold does to the integer, when it adds without overflow. -/
theorem toInt_fold {i : Nat} {s : List Int64} (h12 : 12 ≤ i) (hi : i < s.length)
    (hadd : toInt (addScaled (s.getD i 0) foldFactors (s.drop (i - 12))) =
      toInt (s.drop (i - 12)) + (s.getD i 0).toInt * toInt foldFactors) :
    toInt (Step.apply s (.fold i)) =
      toInt s - 2 ^ (21 * (i - 12)) * (s.getD i 0).toInt * order := by
  obtain ⟨k, rfl⟩ := Nat.exists_eq_add_of_le' h12
  rw [Nat.add_sub_cancel] at hadd ⊢
  have hk : (s.take k).length = k := List.length_take_of_le (by omega)
  have hlimb : (s.take k ++ addScaled (s.getD (k + 12) 0) foldFactors (s.drop k)).getD (k + 12) 0 =
      s.getD (k + 12) 0 := by
    rw [List.getD_append_right _ _ _ _ (by omega), hk, Nat.add_sub_cancel_left,
      getD_addScaled _ _ _ _ (by decide)]
    simp only [List.getD_eq_getElem?_getD, List.getElem?_drop]
  have hs := toInt_append (s.take k) (s.drop k)
  rw [List.take_append_drop, hk] at hs
  rw [Step.apply, Nat.add_sub_cancel, toInt_set _ _
    (by rw [List.length_append, hk, length_addScaled, List.length_drop]; omega), hlimb,
    toInt_append, hk, hadd, toInt_foldFactors, hs, Nat.mul_add, pow_add]
  have h252 : ((1 <<< 252 : Nat) : Int) = 2 ^ (21 * 12) := by decide
  rw [h252]
  ring

/-- A fold takes a multiple of the order away. -/
theorem fold_sound {i : Nat} {box box' : Box} {s : List Int64} (h : fold? i box = some box')
    (hs : Within box s) :
    Within box' (Step.apply s (.fold i)) ∧
      toInt (Step.apply s (.fold i)) =
        toInt s - 2 ^ (21 * (i - 12)) * (s.getD i 0).toInt * order := by
  rw [fold?] at h
  split at h
  · next hi =>
      obtain ⟨R, hR, h⟩ := Option.bind_eq_some_iff.mp h
      obtain rfl := Option.some.inj h
      obtain ⟨hw, hval⟩ := addScaled_sound (contains_getD hs i) (within_point foldFactors)
        (List.forall₂_drop (i - 12) hs) hR
      rw [hs.length_eq] at hi
      exact ⟨within_set (within_append (List.forall₂_take _ hs) hw) ⟨le_refl _, le_refl _⟩ i,
        toInt_fold hi.1 hi.2 hval⟩
  · exact nomatch h

theorem toInt_shiftRight21 (x : Int64) : (x >>> 21).toInt = x.toInt / 2 ^ 21 := by
  have h : (21 : Int64).toBitVec.smod 64 = 21#64 := by decide
  rw [← Int64.toInt_toBitVec, Int64.toBitVec_shiftRight, h, BitVec.sshiftRight',
    BitVec.toInt_sshiftRight, Int.shiftRight_eq_div_pow]
  rfl

theorem shiftLeft21 (x : Int64) : x <<< 21 = x * 0x200000 := by
  have h : (21 : Int64).toBitVec.smod 64 = 21#64 := by decide
  apply Int64.toBitVec_inj.mp
  rw [Int64.toBitVec_shiftLeft, h, Int64.toBitVec_mul]
  exact BitVec.shiftLeft_eq_mul_twoPow x.toBitVec 21

/-- A carry by `2 ^ 21`, rounded down after a bias has been added. -/
structure Carries (bias : Int) (carry : Int64 → Int64) : Prop where
  bias_nonneg : 0 ≤ bias
  bias_lt : bias < 2 ^ 21
  toInt (x : Int64) (h : x.toInt + bias < 2 ^ 63) : (carry x).toInt = (x.toInt + bias) / 2 ^ 21

/-- What is added before a limb is rounded. -/
theorem toInt_add_half {x : Int64} (h : x.toInt + 0x100000 < 2 ^ 63) :
    (x + 0x100000).toInt = x.toInt + (0x100000 : Int64).toInt := by
  have hx := x.le_toInt
  rw [Int64.toInt_add]
  exact Interval.bmod_eq_self (by simp only [Int64.reduceToInt]; omega)
    (by simp only [Int64.reduceToInt]; omega)

theorem carries_round : Carries 0x100000 fun x => (x + 0x100000) >>> 21 :=
  ⟨by decide, by decide, fun x h => by rw [toInt_shiftRight21, toInt_add_half h]; rfl⟩

theorem carries_floor : Carries 0 fun x => x >>> 21 :=
  ⟨by decide, by decide, fun x _ => by rw [toInt_shiftRight21, add_zero]⟩

/-- A carry moved up again and taken away keeps to its word. -/
theorem Carries.exact {bias : Int} {carry : Int64 → Int64} (hc : Carries bias carry) {x : Int64}
    (hlo : -2 ^ 63 ≤ x.toInt - 2 ^ 21) (hhi : x.toInt + bias < 2 ^ 63) :
    (carry x <<< 21).toInt = (carry x).toInt * 2 ^ 21 ∧
      (x - carry x <<< 21).toInt = x.toInt - (carry x <<< 21).toInt := by
  have hx := hc.toInt x hhi
  have h0 := hc.bias_nonneg
  have h1 := hc.bias_lt
  have hshift : (carry x <<< 21).toInt = (carry x).toInt * 2 ^ 21 := by
    rw [shiftLeft21, Int64.toInt_mul]
    exact Interval.bmod_eq_self (by simp only [Int64.reduceToInt]; omega)
      (by simp only [Int64.reduceToInt]; omega)
  refine ⟨hshift, ?_⟩
  rw [Int64.toInt_sub, hshift, Interval.bmod_eq_self (by omega) (by omega)]

/-- What stays in a limb and what leaves it. -/
theorem Carries.limb {bias : Int} {carry : Int64 → Int64} (hc : Carries bias carry) {x : Int64}
    (hlo : -2 ^ 63 ≤ x.toInt - 2 ^ 21) (hhi : x.toInt + bias < 2 ^ 63) :
    (x - carry x <<< 21).toInt + 2 ^ 21 * (carry x).toInt = x.toInt ∧
      -bias ≤ (x - carry x <<< 21).toInt ∧ (x - carry x <<< 21).toInt ≤ 2 ^ 21 - 1 - bias := by
  have hx := hc.toInt x hhi
  obtain ⟨hshift, hdiff⟩ := hc.exact hlo hhi
  rw [hshift] at hdiff
  omega

/-- The carries of an interval. -/
def Interval.carry (bias : Int) (X : Interval) : Interval :=
  ⟨(X.lo + bias) / 2 ^ 21, (X.hi + bias) / 2 ^ 21⟩

theorem Carries.contains {bias : Int} {carry : Int64 → Int64} (hc : Carries bias carry)
    {X : Interval} {x : Int64} (hx : X.Contains x) (hhi : x.toInt + bias < 2 ^ 63) :
    (X.carry bias).Contains (carry x) := by
  obtain ⟨hx0, hx1⟩ := hx
  rw [Interval.Contains, hc.toInt x hhi]
  exact ⟨Int.ediv_le_ediv (by decide) (by omega), Int.ediv_le_ediv (by decide) (by omega)⟩

/-- Intervals after a carry from limb `i`. -/
def carry? (bias : Int) (i : Nat) (box : Box) : Option Box :=
  match box.drop i with
  | X :: Y :: r => do
    let _ ← Interval.checked ⟨X.lo - 2 ^ 21, X.hi + bias⟩
    let Z ← Y.add? (X.carry bias)
    some (box.take i ++ ⟨-bias, 2 ^ 21 - 1 - bias⟩ :: Z :: r)
  | _ => none

theorem carry_sound {bias : Int} {carry : Int64 → Int64} (hc : Carries bias carry) {i : Nat}
    {box box' : Box} {s : List Int64} (h : carry? bias i box = some box') (hs : Within box s) :
    Within box' (carryAt carry i s) ∧ toInt (carryAt carry i s) = toInt s := by
  have htake := List.forall₂_take i hs
  have hdrop := List.forall₂_drop i hs
  have hvalue := toInt_append (s.take i) (s.drop i)
  rw [List.take_append_drop] at hvalue
  rw [carryAt]
  rw [carry?] at h
  generalize box.drop i = rest at h hdrop
  generalize s.drop i = limbs at hdrop hvalue ⊢
  cases hdrop with
  | nil => exact nomatch h
  | @cons X x _ _ hx hrest =>
      cases hrest with
      | nil => exact nomatch h
      | @cons Y y _ _ hy hrest =>
          simp only [Option.bind_eq_bind, Option.bind_eq_some_iff] at h
          obtain ⟨_, hcheck, Z, hZ, h⟩ := h
          obtain rfl := Option.some.inj h
          obtain ⟨-, hlo, hhi⟩ := Interval.of_checked hcheck
          obtain ⟨hx0, hx1⟩ := hx
          obtain ⟨hlimb, hlow⟩ := hc.limb (x := x) (by omega) (by omega)
          obtain ⟨hsum, hz⟩ := Interval.contains_add? hZ hy
            (hc.contains ⟨hx0, hx1⟩ (by omega))
          refine ⟨within_append htake (.cons hlow (.cons hz hrest)), ?_⟩
          rw [toInt_append, hvalue, toInt, toInt, toInt, toInt, hsum]
          linear_combination 2 ^ (21 * (s.take i).length) * hlimb

/-- Intervals after a step. -/
def Step.bounds? (box : Box) : Step → Option Box
  | fold i => fold? i box
  | round i => carry? 0x100000 i box
  | floor i => carry? 0 i box

def run? (steps : List Step) (box : Box) : Option Box := steps.foldlM Step.bounds? box

theorem step_sound {st : Step} {box box' : Box} {s : List Int64} (h : st.bounds? box = some box')
    (hs : Within box s) :
    Within box' (Step.apply s st) ∧ toInt (Step.apply s st) ≡ toInt s [ZMOD order] := by
  cases st with
  | fold i =>
      obtain ⟨hw, hval⟩ := fold_sound h hs
      refine ⟨hw, ?_⟩
      rw [hval]
      exact Int.modEq_iff_dvd.mpr ⟨2 ^ (21 * (i - 12)) * (s.getD i 0).toInt, by ring⟩
  | round i =>
      obtain ⟨hw, hval⟩ := carry_sound carries_round h hs
      exact ⟨hw, congrArg (· % (order : Int)) hval⟩
  | floor i =>
      obtain ⟨hw, hval⟩ := carry_sound carries_floor h hs
      exact ⟨hw, congrArg (· % (order : Int)) hval⟩

/-- Where a schedule runs on intervals it keeps the residue of any limbs within them. -/
theorem run_sound {steps : List Step} {box box' : Box} {s : List Int64}
    (h : run? steps box = some box') (hs : Within box s) :
    Within box' (run steps s) ∧ toInt (run steps s) ≡ toInt s [ZMOD order] := by
  induction steps generalizing box s with
  | nil =>
      obtain rfl := Option.some.inj h
      exact ⟨hs, Int.ModEq.refl _⟩
  | cons st steps ih =>
      obtain ⟨mid, hmid, h⟩ := Option.bind_eq_some_iff.mp h
      obtain ⟨hw, hval⟩ := step_sound hmid hs
      obtain ⟨hw', hval'⟩ := ih h hw
      exact ⟨hw', hval'.trans hval⟩

/-- Carries alone keep the integer itself. -/
theorem floors_sound {places : List Nat} {box box' : Box} {s : List Int64}
    (h : run? (places.map .floor) box = some box') (hs : Within box s) :
    Within box' (run (places.map .floor) s) ∧ toInt (run (places.map .floor) s) = toInt s := by
  induction places generalizing box s with
  | nil =>
      obtain rfl := Option.some.inj h
      exact ⟨hs, rfl⟩
  | cons i places ih =>
      obtain ⟨mid, hmid, h⟩ := Option.bind_eq_some_iff.mp h
      obtain ⟨hw, hval⟩ := carry_sound carries_floor hmid hs
      obtain ⟨hw', hval'⟩ := ih h hw
      exact ⟨hw', hval'.trans hval⟩

end CurveKeys.Edwards25519.Limbs
