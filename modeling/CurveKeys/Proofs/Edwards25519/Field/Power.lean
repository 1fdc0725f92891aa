import CurveKeys.Proofs.Edwards25519.Field.Encoding
import CurveKeys.Proofs.Edwards25519.Field.Product
import CurveKeys.Edwards25519.Field.Root

/-!
Powers of field elements. The chain is followed through exponents whose binary digits are ones; its
two ends are the inverse and the root of a quotient, which is off by a fourth root of unity at most.
-/

namespace CurveKeys.Edwards25519.FieldElement

theorem denotes_squareTimes {a : FieldElement} {v : ZMod prime} (ha : a.Denotes v) (k : Nat) :
    (a.squareTimes k).Denotes (v ^ 2 ^ k) := by
  induction k generalizing a v with
  | zero =>
      rw [pow_zero, pow_one]
      exact ha
  | succ k ih =>
      have h := ih (denotes_square ha)
      rw [← pow_mul, ← pow_succ'] at h
      exact h

/-- Shifting an exponent up and adding another one. -/
theorem denotes_shift_mul {a b : FieldElement} {v : ZMod prime} {m n : Nat}
    (ha : a.Denotes (v ^ n)) (hb : b.Denotes (v ^ m)) (s : Nat) :
    ((a.squareTimes s).mul b).Denotes (v ^ (n * 2 ^ s + m)) := by
  have h := denotes_mul (denotes_squareTimes ha s) hb
  rw [← pow_mul, ← pow_add] at h
  exact h

/-- Blocks of ones in an exponent are appended. -/
theorem denotes_ones {a b : FieldElement} {v : ZMod prime} {i j : Nat}
    (ha : a.Denotes (v ^ (2 ^ i - 1))) (hb : b.Denotes (v ^ (2 ^ j - 1))) :
    ((a.squareTimes j).mul b).Denotes (v ^ (2 ^ (i + j) - 1)) := by
  have h := denotes_shift_mul ha hb j
  have he : (2 ^ i - 1) * 2 ^ j + (2 ^ j - 1) = 2 ^ (i + j) - 1 := by
    have hi : 1 ≤ 2 ^ i := Nat.one_le_two_pow
    have hj : 1 ≤ 2 ^ j := Nat.one_le_two_pow
    rw [Nat.sub_mul, one_mul, pow_add]
    have : 2 ^ j ≤ 2 ^ i * 2 ^ j := Nat.le_mul_of_pos_left _ (by omega)
    omega
  rwa [he] at h

theorem denotes_onesPowers {a : FieldElement} {v : ZMod prime} (ha : a.Denotes v) :
    a.onesPowers.1.Denotes (v ^ 11) ∧ a.onesPowers.2.Denotes (v ^ (2 ^ 250 - 1)) := by
  have x1 : a.Denotes (v ^ 1) := by simpa using ha
  have z2 := denotes_square ha
  have z9 := denotes_shift_mul z2 x1 2
  have z11 := denotes_mul z9 z2
  rw [← pow_add] at z11
  have x5 := denotes_shift_mul z11 z9 1
  have x10 := denotes_ones (i := 5) (j := 5) x5 x5
  have x20 := denotes_ones x10 x10
  have x40 := denotes_ones x20 x20
  have x50 := denotes_ones x40 x10
  have x100 := denotes_ones x50 x50
  have x200 := denotes_ones x100 x100
  exact ⟨z11, denotes_ones x200 x50⟩

theorem denotes_invert_pow {a : FieldElement} {v : ZMod prime} (ha : a.Denotes v) :
    a.invert.Denotes (v ^ (prime - 2)) := by
  obtain ⟨z11, x250⟩ := denotes_onesPowers ha
  have h := denotes_shift_mul x250 z11 5
  have he : (2 ^ 250 - 1) * 2 ^ 5 + 11 = prime - 2 := by decide
  rw [he] at h
  exact h

/-- The inverse of the residue, and zero for zero. -/
theorem denotes_invert {a : FieldElement} {v : ZMod prime} (ha : a.Denotes v) :
    a.invert.Denotes v⁻¹ := by
  refine denotes_congr (denotes_invert_pow ha) ?_
  by_cases hv : v = 0
  · subst hv
    rw [zero_pow (by decide), inv_zero]
  · apply eq_inv_of_mul_eq_one_left
    rw [← pow_succ]
    exact ZMod.pow_card_sub_one_eq_one hv

theorem denotes_rootPower {a : FieldElement} {v : ZMod prime} (ha : a.Denotes v) :
    a.rootPower.Denotes (v ^ ((prime - 5) / 8)) := by
  have x1 : a.Denotes (v ^ 1) := by simpa using ha
  have h := denotes_shift_mul (denotes_onesPowers ha).2 x1 2
  have he : (2 ^ 250 - 1) * 2 ^ 2 + 1 = (prime - 5) / 8 := by decide
  rw [he] at h
  exact h

theorem denotes_rootPower_pow {a : FieldElement} {v : ZMod prime} (ha : a.Denotes v) :
    a.rootPower.Denotes (v ^ (2 ^ 252 - 3)) := by
  have he : (prime - 5) / 8 = 2 ^ 252 - 3 := by decide
  rw [← he]
  exact denotes_rootPower ha

/-- The residue of `sqrtMinusOne`. -/
def rootMinusOne : ZMod prime := sqrtMinusOne.residue

theorem denotes_sqrtMinusOne : sqrtMinusOne.Denotes rootMinusOne := by
  refine ⟨?_, rfl⟩
  constructor <;> decide

theorem sq_rootMinusOne : rootMinusOne ^ 2 = -1 := by decide +kernel

/-- The fourth roots of unity are all different. -/
theorem nodup_unity : [1, -1, rootMinusOne, -rootMinusOne].Nodup := by decide +kernel

theorem eq_of_pow_four {w : ZMod prime} (h : w ^ 4 = 1) :
    w = 1 ∨ w = -1 ∨ w = rootMinusOne ∨ w = -rootMinusOne := by
  have hprod : (w - 1) * ((w + 1) * ((w - rootMinusOne) * (w + rootMinusOne))) = 0 := by
    linear_combination h - (w ^ 2 - 1) * sq_rootMinusOne
  rcases mul_eq_zero.mp hprod with h | h
  · exact Or.inl (sub_eq_zero.mp h)
  · rcases mul_eq_zero.mp h with h | h
    · exact Or.inr (Or.inl (eq_neg_of_add_eq_zero_left h))
    · rcases mul_eq_zero.mp h with h | h
      · exact Or.inr (Or.inr (Or.inl (sub_eq_zero.mp h)))
      · exact Or.inr (Or.inr (Or.inr (eq_neg_of_add_eq_zero_left h)))

/-- The candidate for the root of `u / v`. -/
def ratioCandidate (u v : ZMod prime) : ZMod prime :=
  u * (v ^ 2 * v) * (u * (v ^ 2 * v) * (v ^ 2) ^ 2) ^ ((prime - 5) / 8)

/-- By how much the square of the candidate is off. -/
def ratioTurn (u v : ZMod prime) : ZMod prime := (u * v ^ 7) ^ ((prime - 1) / 4)

theorem mul_sq_ratioCandidate (u v : ZMod prime) :
    v * ratioCandidate u v ^ 2 = u * ratioTurn u v := by
  have he : (prime - 1) / 4 = (prime - 5) / 8 * 2 + 1 := by decide
  have hbase : u * (v ^ 2 * v) * (v ^ 2) ^ 2 = u * v ^ 7 := by ring
  rw [ratioTurn, he, ratioCandidate, hbase]
  generalize (prime - 5) / 8 = k
  ring

theorem ratioTurn_pow_four {u v : ZMod prime} (hu : u ≠ 0) (hv : v ≠ 0) :
    ratioTurn u v ^ 4 = 1 := by
  have he : (prime - 1) / 4 * 4 = prime - 1 := by decide
  rw [ratioTurn, ← pow_mul, he]
  exact ZMod.pow_card_sub_one_eq_one (mul_ne_zero hu (pow_ne_zero 7 hv))

/-- Euler's criterion, for the quotient. -/
theorem isSquare_ratio_iff {u v : ZMod prime} (hu : u ≠ 0) (hv : v ≠ 0) :
    IsSquare (u / v) ↔ ratioTurn u v ^ 2 = 1 := by
  have he : (prime - 1) / 4 * 2 = prime / 2 := by decide
  have he8 : 8 * (prime / 2) = (prime - 1) * 4 := by decide
  have hv8 : (v ^ 8) ^ (prime / 2) = 1 := by
    rw [← pow_mul, he8, pow_mul, ZMod.pow_card_sub_one_eq_one hv, one_pow]
  rw [ZMod.euler_criterion prime (div_ne_zero hu hv), ratioTurn, ← pow_mul, he,
    show u * v ^ 7 = u / v * v ^ 8 by field_simp, mul_pow, hv8, mul_one]

/-- What a root of `u / v` and the flag beside it have to be. -/
structure RatioRoot (u v r : ZMod prime) (square : Bool) : Prop where
  even : r.val % 2 = 0
  square_iff : square = true ↔ u = 0 ∨ v ≠ 0 ∧ IsSquare (u / v)
  zero : u = 0 ∨ v = 0 → r = 0
  root : v ≠ 0 → v * r ^ 2 = if square then u else rootMinusOne * u

theorem evenRoot_zero : evenRoot 0 = 0 := by
  rcases evenRoot_eq_or 0 with h | h
  · exact h
  · rw [h, neg_zero]

theorem ratioRoot_zero {u v : ZMod prime} (h : u = 0 ∨ v = 0) {square : Bool}
    (hs : square = true ↔ u = 0) : RatioRoot u v 0 square := by
  refine ⟨rfl, ?_, fun _ => rfl, ?_⟩
  · rw [hs]
    rcases h with rfl | rfl
    · exact ⟨Or.inl, fun _ => rfl⟩
    · simp
  · intro hv
    obtain rfl := h.resolve_right hv
    simp

/-- The root and the flag that follow from how far the candidate is off. -/
theorem ratioRoot_turned {u v c : ZMod prime} (hu : u ≠ 0) (hv : v ≠ 0) {square : Bool}
    (hs : square = true ↔ ratioTurn u v ^ 2 = 1)
    (hc : v * c ^ 2 = if square then u else rootMinusOne * u) :
    RatioRoot u v (evenRoot c) square := by
  refine ⟨even_evenRoot c, ?_, fun h => absurd h (not_or.mpr ⟨hu, hv⟩), fun _ => ?_⟩
  · rw [hs, isSquare_ratio_iff hu hv]
    exact ⟨fun h => Or.inr ⟨hv, h⟩, fun h => (h.resolve_left hu).2⟩
  · rw [sq_evenRoot, hc]

/-- The root: the candidate, turned where its square is off by the sign or by more. -/
def ratioResult (u v : ZMod prime) : ZMod prime :=
  evenRoot (select (ratioCandidate u v) (ratioCandidate u v * rootMinusOne)
    (decide (u * ratioTurn u v = -u) || decide (u * ratioTurn u v = -u * rootMinusOne)))

/-- The flag: the square of the candidate is off by the sign at most. -/
def ratioFlag (u v : ZMod prime) : Bool :=
  decide (u * ratioTurn u v = u) || decide (u * ratioTurn u v = -u)

theorem ratioRoot_of_zero {u v : ZMod prime} (h : u = 0 ∨ v = 0) :
    RatioRoot u v (ratioResult u v) (ratioFlag u v) := by
  have hcandidate : ratioCandidate u v = 0 := by
    rcases h with rfl | rfl <;> simp [ratioCandidate]
  rw [ratioResult, hcandidate, zero_mul, select, ite_self, evenRoot_zero]
  apply ratioRoot_zero h
  rw [ratioFlag]
  rcases h with rfl | rfl
  · simp
  · have hturn : ratioTurn u 0 = 0 := by
      rw [ratioTurn, zero_pow (by decide), mul_zero, zero_pow (by decide)]
    rw [hturn, mul_zero]
    simp [eq_comm]

/-- The four fourth roots of unity are told apart by the comparisons that are made. -/
theorem ratioRoot_of_ne_zero {u v : ZMod prime} (hu : u ≠ 0) (hv : v ≠ 0) :
    RatioRoot u v (ratioResult u v) (ratioFlag u v) := by
  have hc := mul_sq_ratioCandidate u v
  have hn := nodup_unity
  simp only [List.nodup_cons, List.nodup_nil, List.mem_cons, not_or, List.not_mem_nil,
    not_false_eq_true, and_true] at hn
  obtain ⟨⟨h12, h13, h14⟩, ⟨h23, h24⟩, h34⟩ := hn
  have e1 : u * ratioTurn u v = u ↔ ratioTurn u v = 1 := mul_eq_left₀ hu
  have e2 : u * ratioTurn u v = -u ↔ ratioTurn u v = -1 := by
    rw [← mul_neg_one, mul_right_inj' hu]
  have e4 : u * ratioTurn u v = -u * rootMinusOne ↔ ratioTurn u v = -rootMinusOne := by
    rw [neg_mul_comm, mul_right_inj' hu]
  simp only [ratioResult, ratioFlag, e1, e2, e4]
  rcases eq_of_pow_four (ratioTurn_pow_four hu hv) with ht | ht | ht | ht <;> rw [ht] at hc ⊢
  · rw [decide_eq_false h12, decide_eq_false h14, decide_eq_true rfl]
    refine ratioRoot_turned hu hv (by rw [ht]; simp) ?_
    rw [Bool.or_false, select, if_neg Bool.false_ne_true, hc, mul_one]
    rfl
  · rw [decide_eq_false (Ne.symm h12), decide_eq_true rfl]
    refine ratioRoot_turned hu hv (by rw [ht]; simp) ?_
    rw [Bool.true_or, Bool.or_true, select, if_pos rfl, if_pos rfl]
    linear_combination rootMinusOne ^ 2 * hc - u * sq_rootMinusOne
  · rw [decide_eq_false (Ne.symm h13), decide_eq_false (Ne.symm h23), decide_eq_false h34]
    refine ratioRoot_turned hu hv (by rw [ht, sq_rootMinusOne]; simpa using Ne.symm h12) ?_
    rw [Bool.or_false, select, if_neg Bool.false_ne_true, if_neg Bool.false_ne_true, hc, mul_comm]
  · rw [decide_eq_false (Ne.symm h14), decide_eq_false (Ne.symm h24), decide_eq_true rfl]
    refine ratioRoot_turned hu hv
      (by rw [ht, neg_sq, sq_rootMinusOne]; simpa using Ne.symm h12) ?_
    rw [Bool.or_true, Bool.or_false, select, if_pos rfl, if_neg Bool.false_ne_true]
    linear_combination rootMinusOne ^ 2 * hc - u * rootMinusOne * sq_rootMinusOne

theorem ratioRoot_candidate (u v : ZMod prime) :
    RatioRoot u v (ratioResult u v) (ratioFlag u v) := by
  by_cases h : u = 0 ∨ v = 0
  · exact ratioRoot_of_zero h
  · obtain ⟨hu, hv⟩ := not_or.mp h
    exact ratioRoot_of_ne_zero hu hv

theorem denotes_sqrtRatio {a b : FieldElement} {u v : ZMod prime} (ha : a.Denotes u)
    (hb : b.Denotes v) :
    ∃ r, (sqrtRatio a b).1.Denotes r ∧ RatioRoot u v r (sqrtRatio a b).2 := by
  have hv2 := denotes_square hb
  have huv3 := denotes_mul ha (denotes_mul hv2 hb)
  have huv7 := denotes_mul huv3 (denotes_square hv2)
  have hr : Denotes _ (ratioCandidate u v) := denotes_mul huv3 (denotes_rootPower huv7)
  have hcheck := denotes_congr (denotes_mul hb (denotes_square hr)) (mul_sq_ratioCandidate u v)
  have hminus := denotes_negate ha
  have htest {b : FieldElement} {w : ZMod prime} (hb : b.Denotes w) :=
    (Bool.eq_iff_iff.mpr ((beq_iff hcheck.residue hb.residue).trans decide_eq_true_iff.symm))
  have h := ratioRoot_candidate u v
  rw [ratioResult, ratioFlag, ← htest ha, ← htest hminus,
    ← htest (denotes_mul hminus denotes_sqrtMinusOne)] at h
  exact ⟨_, denotes_abs (denotes_select _ hr (denotes_mul hr denotes_sqrtMinusOne)), h⟩

end CurveKeys.Edwards25519.FieldElement
