import CurveKeys.Proofs.Secp256k1.Scalar.Product

/-!
Inverses of scalars. The exponent is read four bits at a time from its highest digit on, and the
running power is that of the digits read so far. By Fermat's theorem the last one is the inverse.
-/

namespace CurveKeys.Secp256k1.Scalar

theorem denotes_powersFrom {a x : Scalar} {v w : ZMod order} (ha : a.Denotes v) (hx : x.Denotes w)
    {n i : Nat} (hi : i < n) (d : Scalar) :
    ((powersFrom a x n).getD i d).Denotes (w * v ^ i) := by
  induction n generalizing x w i with
  | zero => omega
  | succ n ih =>
      cases i with
      | zero =>
          rw [pow_zero, mul_one]
          exact hx
      | succ i =>
          have h := ih (denotes_mul hx ha) (Nat.lt_of_succ_lt_succ hi)
          rw [mul_assoc, ← pow_succ'] at h
          exact h

/-- The table holds the powers by all the digits. -/
theorem denotes_powers {a : Scalar} {v : ZMod order} (ha : a.Denotes v) {d : Nat} (hd : d < 16) :
    ((one :: powersFrom a a 15).getD d one).Denotes (v ^ d) := by
  cases d with
  | zero =>
      rw [pow_zero]
      exact denotes_one
  | succ d =>
      rw [pow_succ']
      exact denotes_powersFrom ha ha (by omega) one

/-- A window appends a base 16 digit to the exponent. -/
theorem denotes_window {acc p : Scalar} {v : ZMod order} {k d : Nat} (hacc : acc.Denotes (v ^ k))
    (hp : p.Denotes (v ^ d)) :
    (acc.square.square.square.square.mul p).Denotes (v ^ (16 * k + d)) := by
  have hsq := denotes_square (denotes_square (denotes_square (denotes_square hacc)))
  have h := denotes_mul hsq hp
  rw [← pow_mul, ← pow_mul, ← pow_mul, ← pow_mul, ← pow_add,
    show k * (2 * (2 * (2 * 2))) = 16 * k by ring] at h
  exact h

theorem denotes_windows {a : Scalar} {v : ZMod order} (ha : a.Denotes v) {digits : List Nat}
    (hd : ∀ d ∈ digits, d < 16) {acc : Scalar} {k : Nat} (hacc : acc.Denotes (v ^ k)) :
    (digits.foldl (fun acc d => acc.square.square.square.square.mul
      ((one :: powersFrom a a 15).getD d one)) acc).Denotes
      (v ^ digits.foldl (fun k d => 16 * k + d) k) := by
  induction digits generalizing acc k with
  | nil => exact hacc
  | cons d digits ih =>
      obtain ⟨hd0, hd⟩ := List.forall_mem_cons.mp hd
      exact ih hd (denotes_window hacc (denotes_powers ha hd0))

theorem value_inverseExponent :
    (nibbles inverseExponent).foldl (fun k d => 16 * k + d) 0 = order - 2 := by decide +kernel

theorem inverseExponent_digits : ∀ d ∈ nibbles inverseExponent, d < 16 := by decide +kernel

theorem denotes_invert_pow {a : Scalar} {v : ZMod order} (ha : a.Denotes v) :
    a.invert.Denotes (v ^ (order - 2)) := by
  have hone : one.Denotes (v ^ 0) := by
    rw [pow_zero]
    exact denotes_one
  have h := denotes_windows ha inverseExponent_digits hone
  rw [value_inverseExponent] at h
  exact h

/-- The inverse of the residue, and zero for zero. -/
theorem denotes_invert {a : Scalar} {v : ZMod order} (ha : a.Denotes v) :
    a.invert.Denotes v⁻¹ := by
  have h := denotes_invert_pow ha
  by_cases hv : v = 0
  · subst hv
    rw [zero_pow (by decide)] at h
    rw [inv_zero]
    exact h
  · have hf : v ^ (order - 2) * v = 1 := by
      rw [← pow_succ]
      exact ZMod.pow_card_sub_one_eq_one hv
    rw [eq_inv_of_mul_eq_one_left hf] at h
    exact h

theorem ne_zero_of_denotes {a : Scalar} {v : ZMod order} (ha : a.Denotes v) (h : a ≠ zero) :
    v ≠ 0 := by
  rintro rfl
  exact h (eq_of_denotes ha denotes_zero)

/-- The windows compute the power by `n - 2`, which is the inverse: it undoes a product by anything
but zero, keeps zero, undoes itself, distributes over products and commutes with negation. -/
theorem invert_exact {a b : Scalar} (ha : a.toNat < order) (hb : b.toNat < order) :
    a.invert.toNat = a.toNat ^ (order - 2) % order ∧
      (a ≠ zero → a.mul a.invert = one) ∧ zero.invert = zero ∧ a.invert.invert = a ∧
      (a.mul b).invert = a.invert.mul b.invert ∧ a.negate.invert = a.invert.negate := by
  have da := denotes_of_reduced ha
  have db := denotes_of_reduced hb
  have ia := denotes_invert da
  have ib := denotes_invert db
  refine ⟨?_, ?_, ?_, ?_, ?_, ?_⟩
  · rw [toNat_eq_val (denotes_invert_pow da), ← Nat.cast_pow, ZMod.val_natCast]
  · intro hne
    have h := denotes_mul da ia
    rw [mul_inv_cancel₀ (ne_zero_of_denotes da hne)] at h
    exact eq_of_denotes h denotes_one
  · have h := denotes_invert denotes_zero
    rw [inv_zero] at h
    exact eq_of_denotes h denotes_zero
  · have h := denotes_invert ia
    rw [inv_inv] at h
    exact eq_of_denotes h da
  · have h := denotes_invert (denotes_mul da db)
    rw [mul_inv] at h
    exact eq_of_denotes h (denotes_mul ia ib)
  · have h := denotes_invert (denotes_negate da)
    rw [inv_neg] at h
    exact eq_of_denotes h (denotes_negate ia)

/-- Half of the order, whose inverse is minus two, and the order less one, which is its own. -/
theorem invert_exact_of_half_order :
    let a : Scalar := ⟨halfOrderLimbs, rfl⟩
    let b : Scalar := one.negate
    a.toNat < order ∧ b.toNat < order ∧ a ≠ zero ∧ a.mul a.invert = one ∧
      a.invert.invert = a ∧ (a.mul b).invert = a.invert.mul b.invert ∧
      a.negate.invert = a.invert.negate := by
  intro a b
  have ha : a.toNat < order := by decide
  have hb : b.toNat < order := by decide
  have hne : a ≠ zero := by decide
  obtain ⟨-, hmul, -, htwice, hproduct, hneg⟩ := invert_exact ha hb
  exact ⟨ha, hb, hne, hmul hne, htwice, hproduct, hneg⟩

end CurveKeys.Secp256k1.Scalar
