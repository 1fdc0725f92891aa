import CurveKeys.Proofs.Edwards25519.Scalar.Limbs

/-!
The reduction is exact and canonical. After all carries and folds but the last few, twelve limbs are
digits of 21 bits and the thirteenth is 0 or -1; its fold lands below the order without a
comparison, and the last carries only move bits.
-/

namespace CurveKeys.Edwards25519.Limbs

/-- Digits of 21 bits. -/
def plain (n : Nat) : Box := List.replicate n ⟨0, 2 ^ 21 - 1⟩

/-- A limb that is zero. -/
def nothing (n : Nat) : Box := List.replicate n ⟨0, 0⟩

/-- The limbs before the last fold. -/
def lowBox : Box := plain 12 ++ ⟨-1, 0⟩ :: nothing 11

/-- The limbs at the end. -/
def lastBox : Box := plain 11 ++ ⟨-1, 2 ^ 21⟩ :: nothing 12

/-- All steps up to the last fold. -/
def settleSteps : List Step :=
  [23, 22, 21, 20, 19, 18].map .fold ++ [6, 8, 10, 12, 14, 16].map .round ++
    [7, 9, 11, 13, 15].map .round ++ [17, 16, 15, 14, 13, 12].map .fold ++
    [0, 2, 4, 6, 8, 10].map .round ++ [1, 3, 5, 7, 9, 11].map .round ++ [.fold 12] ++
    [0, 1, 2, 3, 4, 5, 6, 7, 8, 9, 10, 11].map .floor

/-- The limbs that the last carries start from. -/
def lastFloors : List Nat := [0, 1, 2, 3, 4, 5, 6, 7, 8, 9, 10]

theorem reduceSteps_eq :
    reduceSteps = settleSteps ++ (.fold 12 :: lastFloors.map .floor) := rfl

theorem lastFold_eq : (fold? 12 lowBox).bind (run? (lastFloors.map .floor)) = some lastBox := by
  decide +kernel

/-- Limbs within a box that is split at one interval are split at the limb there. -/
theorem exists_split {A Z : Box} {I : Interval} {s : List Int64} (h : Within (A ++ I :: Z) s) :
    ∃ a x z, s = a ++ x :: z ∧ Within A a ∧ I.Contains x ∧ Within Z z := by
  induction A generalizing s with
  | nil =>
      cases h with
      | @cons _ x _ z hx hz => exact ⟨[], x, z, rfl, .nil, hx, hz⟩
  | cons J A ih =>
      cases h with
      | @cons _ y _ t hy ht =>
          obtain ⟨a, x, z, rfl, ha, hx, hz⟩ := ih ht
          exact ⟨y :: a, x, z, rfl, .cons hy ha, hx, hz⟩

theorem toInt_nothing {n : Nat} {z : List Int64} (h : Within (nothing n) z) : toInt z = 0 := by
  induction n generalizing z with
  | zero =>
      cases h
      rfl
  | succ n ih =>
      cases h with
      | cons hx hz =>
          obtain ⟨h0, h1⟩ := hx
          rw [toInt, ih hz, le_antisymm h1 h0]
          rfl

theorem plain_bounds {n : Nat} {a : List Int64} (h : Within (plain n) a) :
    0 ≤ toInt a ∧ toInt a < 2 ^ (21 * n) := by
  induction n generalizing a with
  | zero =>
      cases h
      decide
  | succ n ih =>
      cases h with
      | cons hx ha =>
          have h0 : 0 ≤ Int64.toInt _ := hx.1
          have h1 : Int64.toInt _ ≤ 2 ^ 21 - 1 := hx.2
          obtain ⟨ih0, ih1⟩ := ih ha
          rw [toInt, Nat.mul_succ, pow_add]
          constructor
          · omega
          · linarith

theorem length_plain {n : Nat} {a : List Int64} (h : Within (plain n) a) : a.length = n :=
  h.length_eq.symm.trans List.length_replicate

/-- A fold of a limb that is 0 or -1 lands between zero and the order. -/
theorem toInt_lastFold {s : List Int64} (hs : Within lowBox s) {box : Box}
    (h : fold? 12 lowBox = some box) :
    toInt (Step.apply s (.fold 12)) = toInt s % order := by
  obtain ⟨a, x, z, rfl, ha, hx, hz⟩ := exists_split hs
  have hx0 : -1 ≤ x.toInt := hx.1
  have hx1 : x.toInt ≤ 0 := hx.2
  have hlen := length_plain ha
  have ha0 : 0 ≤ toInt a := (plain_bounds ha).1
  have ha1 : toInt a < 2 ^ 252 := (plain_bounds ha).2
  have hvalue : toInt (a ++ x :: z) = toInt a + 2 ^ 252 * x.toInt := by
    rw [toInt_append, toInt, toInt_nothing hz, hlen]
    ring
  have hlimb : (a ++ x :: z).getD 12 0 = x := by
    rw [List.getD_append_right _ _ _ _ (by omega), hlen]
    rfl
  obtain ⟨-, hfold⟩ := fold_sound h hs
  have hsub : toInt (Step.apply (a ++ x :: z) (.fold 12)) =
      toInt (a ++ x :: z) - x.toInt * order := by
    rw [hfold, hlimb]
    ring
  -- with the thirteenth limb at -1 the order is added to what is at least minus `2 ^ 252`
  have hover : (2 : Int) ^ 252 ≤ order := by decide
  have hrange : 0 ≤ toInt (a ++ x :: z) - x.toInt * order ∧
      toInt (a ++ x :: z) - x.toInt * order < order := by
    rw [hvalue]
    rcases (show x.toInt = 0 ∨ x.toInt = -1 by omega) with e | e <;> rw [e] <;>
      constructor <;> linarith
  rw [hsub, ← Int.emod_eq_of_lt hrange.1 hrange.2, Int.sub_mul_emod_self_right]

theorem packable_append {n : Nat} {a : List Int64} (ha : Within (plain n) a) {y : Int64}
    (h0 : 0 ≤ y.toInt) (h1 : y.toInt ≤ 2 ^ 21) : Packable (a ++ [y]) := by
  induction n generalizing a with
  | zero =>
      cases ha
      exact .last h0 h1
  | succ n ih =>
      cases ha with
      | @cons _ x _ r hx hr =>
          have hrest := ih hr
          have hx0 : 0 ≤ x.toInt := hx.1
          have hx1 : x.toInt ≤ 2 ^ 21 - 1 := hx.2
          cases r with
          | nil => exact .cons hx0 (by omega) hrest
          | cons z r => exact .cons hx0 (by omega) hrest

/-- Limbs at the end that spell no negative integer are eleven digits and a last one that may have a
bit more. -/
theorem exists_digits {s : List Int64} (hs : Within lastBox s) (h0 : 0 ≤ toInt s) :
    ∃ a y, s.take 12 = a ++ [y] ∧ Within (plain 11) a ∧ 0 ≤ y.toInt ∧ y.toInt ≤ 2 ^ 21 ∧
      toInt s = toInt a + 2 ^ 231 * y.toInt := by
  obtain ⟨a, y, z, rfl, ha, hy, hz⟩ := exists_split hs
  have hlen := length_plain ha
  obtain ⟨-, ha1⟩ := plain_bounds ha
  have hvalue : toInt (a ++ y :: z) = toInt a + 2 ^ 231 * y.toInt := by
    rw [toInt_append, toInt, toInt_nothing hz, hlen]
    ring
  have hy0 : 0 ≤ y.toInt := by
    rw [hvalue] at h0
    omega
  have htake : (a ++ y :: z).take 12 = a ++ [y] := by
    rw [List.take_append, hlen, List.take_of_length_le (by omega)]
    rfl
  exact ⟨a, y, htake, ha, hy0, hy.2, hvalue⟩

/-- Limbs at the end that spell a residue are packed as it. -/
theorem toNatLE_window_pack {s : List Int64} (hs : Within lastBox s) (h0 : 0 ≤ toInt s) :
    (Bytes.toNatLE (Bytes.window 32 (pack 0 0 (s.take 12))).toList : Int) = toInt s := by
  obtain ⟨a, y, htake, ha, hy0, hy1, hvalue⟩ := exists_digits hs h0
  have hlen := length_plain ha
  rw [htake, Bytes.toList_window_of_length
    (by rw [length_pack 0 0 (by decide), List.length_append, hlen, List.length_singleton]),
    toNatLE_pack (packable_append ha hy0 hy1) (by decide) (by decide), hvalue, toInt_append,
    toInt, toInt, hlen]
  simp

/-- The whole schedule on intervals. -/
theorem run?_reduceSteps {box : Box} (h : run? settleSteps box = some lowBox) :
    run? reduceSteps box = some lastBox := by
  rw [reduceSteps_eq, run?, List.foldlM_append, ← run?, h]
  exact lastFold_eq

/-- On limbs for which the schedule is known to fit, it ends with the least residue. -/
theorem toInt_run_reduceSteps {box : Box} (h : run? settleSteps box = some lowBox) {s : List Int64}
    (hs : Within box s) : toInt (run reduceSteps s) = toInt s % order := by
  obtain ⟨mid, hmid, hlast⟩ := Option.bind_eq_some_iff.mp lastFold_eq
  obtain ⟨hlow, hmod⟩ := run_sound h hs
  have hrun : run reduceSteps s =
      run (lastFloors.map .floor) (Step.apply (run settleSteps s) (.fold 12)) := by
    rw [reduceSteps_eq, run, List.foldl_append, List.foldl_cons]
    rfl
  rw [hrun, (floors_sound hlast (fold_sound hmid hlow).1).2, toInt_lastFold hlow hmid]
  exact hmod

theorem toNatLE_reduce {box : Box} (h : run? settleSteps box = some lowBox) {s : List Int64}
    (hs : Within box s) : (Bytes.toNatLE (reduce s).toList : Int) = toInt s % order := by
  have hval := toInt_run_reduceSteps h hs
  rw [reduce, toNatLE_window_pack (run_sound (run?_reduceSteps h) hs).1, hval]
  rw [hval]
  exact Int.emod_nonneg _ (by decide)

end CurveKeys.Edwards25519.Limbs
