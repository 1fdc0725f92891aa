import CurveKeys.Proofs.Secp256k1.Scalar.Product

/-!
Products of scalars divided by a power of two. The quotient by `2 ^ 256` or more is so far below the
order that rounding it up needs no reduction.
-/

namespace CurveKeys.Secp256k1.Scalar

/-- Half of the divisor added before a division raises the quotient by the highest bit it drops. -/
theorem add_half_div (n : Nat) {shift : Nat} (h : 0 < shift) : (n + 2 ^ (shift - 1)) / 2 ^ shift =
    n / 2 ^ shift + n / 2 ^ (shift - 1) % 2 := by
  obtain ⟨k, rfl⟩ := Nat.exists_eq_add_one_of_ne_zero (Nat.pos_iff_ne_zero.mp h)
  have h1 : (n + 2 ^ k) / 2 ^ k = n / 2 ^ k + 1 := Nat.add_div_right n (by positivity)
  rw [Nat.add_sub_cancel, pow_succ, ← Nat.div_div_eq_div_mul, ← Nat.div_div_eq_div_mul, h1]
  omega

/-- A quotient by `2 ^ 256` or more leaves room to round up. -/
theorem quotient_succ_lt {a b : Scalar} {shift : Nat} (ha : a.toNat < order)
    (hb : b.toNat < order) (hlow : 256 ≤ shift) :
    a.toNat * b.toNat / 2 ^ shift + 1 < order := by
  have hle : a.toNat * b.toNat / 2 ^ shift ≤ a.toNat * b.toNat / 2 ^ 256 :=
    Nat.div_le_div_left (Nat.pow_le_pow_right (by decide) hlow) (by positivity)
  have hlt : a.toNat * b.toNat / 2 ^ 256 < order - 1 := by
    rw [Nat.div_lt_iff_lt_mul (by positivity)]
    calc a.toNat * b.toNat ≤ (order - 1) * (order - 1) := Nat.mul_le_mul (by omega) (by omega)
      _ < (order - 1) * 2 ^ 256 := by decide
  omega

theorem rounded_lt {a b : Scalar} {shift : Nat} (ha : a.toNat < order) (hb : b.toNat < order)
    (hlow : 256 ≤ shift) : (a.toNat * b.toNat + 2 ^ (shift - 1)) / 2 ^ shift < order := by
  have hq := quotient_succ_lt ha hb hlow
  rw [add_half_div _ (by omega)]
  omega

/-- The product moved down by whole limbs and by the bits that are left. -/
def shifted (a b : Scalar) (shift : Nat) : Scalar :=
  ofLimbs (Limbs.shiftRight (UInt32.ofNat (shift % 32))
    ((mulWide a.limbs b.limbs).drop (shift / 32)))

theorem mulShift_eq (a b : Scalar) (shift : Nat) : a.mulShift b shift =
    if Limbs.bit (mulWide a.limbs b.limbs) (shift - 1) then (a.shifted b shift).add one
    else a.shifted b shift :=
  rfl

theorem toNat_shifted {a b : Scalar} {shift : Nat} (ha : a.toNat < order) (hb : b.toNat < order)
    (hlow : 256 ≤ shift) (hhigh : shift ≤ 512) :
    (a.shifted b shift).toNat = a.toNat * b.toNat / 2 ^ shift := by
  have hwide : Limbs.toNat (mulWide a.limbs b.limbs) = a.toNat * b.toNat :=
    toNat_mulWide a.length_limbs b.length_limbs
  have hlen := length_mulWide a.limbs b.limbs
  have hk : (UInt32.ofNat (shift % 32)).toNat = shift % 32 := by
    rw [UInt32.toNat_ofNat']
    omega
  have hp : 0x100000000 ^ (shift / 32) * 2 ^ (shift % 32) = 2 ^ shift := by
    rw [show (0x100000000 : Nat) = 2 ^ 32 by norm_num, ← pow_mul, ← pow_add, Nat.div_add_mod]
  have hv := Limbs.toNat_shiftRight (l := (mulWide a.limbs b.limbs).drop (shift / 32))
    (n := UInt32.ofNat (shift % 32)) (by omega)
  rw [hk, Limbs.toNat_drop _ _ (by omega), hwide, Nat.div_div_eq_div_mul, hp] at hv
  have hq := quotient_succ_lt ha hb hlow
  have hn : order < 2 ^ 256 := by decide
  rw [shifted, toNat_ofLimbs_of_lt (by omega), hv]

theorem toNat_mulShift {a b : Scalar} (shift : Nat) (ha : a.toNat < order)
    (hb : b.toNat < order) (hlow : 256 ≤ shift) (hhigh : shift ≤ 512) :
    (a.mulShift b shift).toNat = (a.toNat * b.toNat + 2 ^ (shift - 1)) / 2 ^ shift := by
  have hq := toNat_shifted ha hb hlow hhigh
  have hlt := quotient_succ_lt ha hb hlow
  have hbit : Limbs.bit (mulWide a.limbs b.limbs) (shift - 1) =
      decide (a.toNat * b.toNat / 2 ^ (shift - 1) % 2 = 1) := by
    rw [Limbs.bit_eq, toNat_mulWide a.length_limbs b.length_limbs,
      Nat.testBit_eq_decide_div_mod_eq]
    rfl
  rw [add_half_div _ (by omega), mulShift_eq]
  simp only [hbit, decide_eq_true_eq]
  split
  · next h1 =>
      rw [toNat_add (by omega) (by decide), hq, toNat_one, h1, Nat.mod_eq_of_lt hlt]
  · next h1 =>
      rw [hq, Nat.mod_two_ne_one.mp h1, add_zero]

theorem mulShift_reduced {a b : Scalar} (shift : Nat) (ha : a.toNat < order)
    (hb : b.toNat < order) (hlow : 256 ≤ shift) (hhigh : shift ≤ 512) :
    (a.mulShift b shift).toNat < order := by
  rw [toNat_mulShift shift ha hb hlow hhigh]
  exact rounded_lt ha hb hlow

end CurveKeys.Secp256k1.Scalar
