import CurveKeys.Proofs.Words
import CurveKeys.Secp256k1.Limbs

/-!
The integers that lists of 32-bit limbs spell: parts of a list, sums, differences, comparisons,
shifts and bits.
-/

namespace CurveKeys.Secp256k1.Limbs
open Words

theorem toNat_lt (l : List UInt32) : toNat l < 0x100000000 ^ l.length := by
  induction l with
  | nil => simp [toNat]
  | cons x r ih =>
      have hx := x.toNat_lt
      rw [toNat, List.length_cons, pow_succ]
      omega

theorem toNat_append (a b : List UInt32) :
    toNat (a ++ b) = toNat a + 0x100000000 ^ a.length * toNat b := by
  induction a with
  | nil => simp [toNat]
  | cons x r ih =>
      rw [List.cons_append, toNat, ih, toNat, List.length_cons, pow_succ]
      ring

theorem toNat_replicate_zero (n : Nat) : toNat (List.replicate n 0) = 0 := by
  induction n with
  | zero => rfl
  | succ n ih => simp [List.replicate_succ, toNat, ih]

theorem toNat_take_drop (l : List UInt32) (k : Nat) (h : k ≤ l.length) :
    toNat (l.take k) + 0x100000000 ^ k * toNat (l.drop k) = toNat l := by
  have hs := toNat_append (l.take k) (l.drop k)
  rw [List.take_append_drop, List.length_take, min_eq_left h] at hs
  exact hs.symm

theorem toNat_take (l : List UInt32) (k : Nat) (h : k ≤ l.length) :
    toNat (l.take k) = toNat l % 0x100000000 ^ k := by
  have hlt := toNat_lt (l.take k)
  rw [List.length_take, min_eq_left h] at hlt
  rw [← toNat_take_drop l k h, Nat.add_mul_mod_self_left, Nat.mod_eq_of_lt hlt]

theorem toNat_drop (l : List UInt32) (k : Nat) (h : k ≤ l.length) :
    toNat (l.drop k) = toNat l / 0x100000000 ^ k := by
  have hlt := toNat_lt (l.take k)
  rw [List.length_take, min_eq_left h] at hlt
  rw [← toNat_take_drop l k h, Nat.add_mul_div_left _ _ (by positivity), Nat.div_eq_of_lt hlt,
    zero_add]

theorem eq_of_toNat_eq {a b : List UInt32} (hl : a.length = b.length) (h : toNat a = toNat b) :
    a = b := by
  induction a generalizing b with
  | nil => exact (List.length_eq_zero_iff.mp hl.symm).symm
  | cons x a ih =>
      obtain ⟨y, b, rfl⟩ := List.exists_cons_of_length_eq_add_one hl.symm
      have hx := x.toNat_lt
      have hy := y.toNat_lt
      rw [toNat, toNat] at h
      have hxy : x = y := UInt32.toNat_inj.mp (by omega)
      rw [hxy, ih (by simpa using hl) (by omega)]

theorem toNat_low32 (x : UInt64) : x.toUInt32.toNat = x.toNat % 0x100000000 :=
  UInt64.toNat_toUInt32 x

theorem toNat_top64 (x : UInt64) : (x >>> 63).toNat = x.toNat / 0x8000000000000000 :=
  toNat_shiftRight64 x 63 rfl

theorem addCarry_spec {a b : List UInt32} {c : UInt64} (hl : a.length = b.length)
    (hc : c.toNat ≤ 1) :
    toNat (addCarry c a b).1 + 0x100000000 ^ a.length * (addCarry c a b).2.toNat =
      toNat a + toNat b + c.toNat ∧ (addCarry c a b).2.toNat ≤ 1 := by
  induction a generalizing b c with
  | nil =>
      obtain rfl := List.length_eq_zero_iff.mp hl.symm
      simpa [addCarry, toNat] using hc
  | cons x a ih =>
      obtain ⟨y, b, rfl⟩ := List.exists_cons_of_length_eq_add_one hl.symm
      have hx := x.toNat_lt
      have hy := y.toNat_lt
      have hx64 := UInt32.toNat_toUInt64 x
      have hy64 := UInt32.toNat_toUInt64 y
      have ht : (x.toUInt64 + y.toUInt64 + c).toNat = x.toNat + y.toNat + c.toNat := by
        rw [toNat_add64 (by rw [toNat_add64 (by omega)]; omega), toNat_add64 (by omega), hx64, hy64]
      have hcarry := toNat_high32 (x.toUInt64 + y.toUInt64 + c)
      rw [ht] at hcarry
      obtain ⟨hv, ho⟩ := ih (by simpa using hl) (c := (x.toUInt64 + y.toUInt64 + c) >>> 32)
        (by omega)
      refine ⟨?_, ho⟩
      simp only [addCarry, toNat, List.length_cons, pow_succ, toNat_low32, ht]
      rw [hcarry] at hv
      have hd := Nat.div_add_mod (x.toNat + y.toNat + c.toNat) 0x100000000
      linarith

theorem subBorrow_spec {a b : List UInt32} {c : UInt64} (hl : a.length = b.length)
    (hc : c.toNat ≤ 1) :
    toNat (subBorrow c a b).1 + toNat b + c.toNat =
      toNat a + 0x100000000 ^ a.length * (subBorrow c a b).2.toNat := by
  induction a generalizing b c with
  | nil =>
      obtain rfl := List.length_eq_zero_iff.mp hl.symm
      simp [subBorrow, toNat]
  | cons x a ih =>
      obtain ⟨y, b, rfl⟩ := List.exists_cons_of_length_eq_add_one hl.symm
      have hx := x.toNat_lt
      have hy := y.toNat_lt
      have hy64 := UInt32.toNat_toUInt64 y
      have hs : (y.toUInt64 + c).toNat = y.toNat + c.toNat := by
        rw [toNat_add64 (by omega), hy64]
      have ht : (x.toUInt64 - (y.toUInt64 + c)).toNat =
          (x.toNat + 0x10000000000000000 - (y.toNat + c.toNat)) % 0x10000000000000000 := by
        rw [UInt64.toNat_sub, hs, UInt32.toNat_toUInt64]
        congr 1
        omega
      have hborrow := toNat_top64 (x.toUInt64 - (y.toUInt64 + c))
      simp only [subBorrow, toNat, List.length_cons, pow_succ, toNat_low32]
      generalize x.toUInt64 - (y.toUInt64 + c) = t at ht hborrow ⊢
      have hv := ih (by simpa using hl) (c := t >>> 63) (by omega)
      have hstep : t.toNat % 0x100000000 + y.toNat + c.toNat =
          x.toNat + 0x100000000 * (t >>> 63).toNat := by omega
      linarith

theorem compare_eq {a b : List UInt32} (hl : a.length = b.length) :
    compare a b = Ord.compare (toNat a) (toNat b) := by
  induction a generalizing b with
  | nil =>
      obtain rfl := List.length_eq_zero_iff.mp hl.symm
      rfl
  | cons x a ih =>
      obtain ⟨y, b, rfl⟩ := List.exists_cons_of_length_eq_add_one hl.symm
      have hx := x.toNat_lt
      have hy := y.toNat_lt
      have hxy : Ord.compare x y = Ord.compare x.toNat y.toNat := by
        simp only [compareOfLessAndEq, UInt32.lt_iff_toNat_lt, ← UInt32.toNat_inj, Ord.compare]
      rw [compare, ih (by simpa using hl), toNat, toNat, hxy]
      rcases lt_trichotomy (toNat a) (toNat b) with h | h | h
      · have hlt : x.toNat + 0x100000000 * toNat a < y.toNat + 0x100000000 * toNat b := by omega
        rw [compare_lt_iff_lt.mpr h, compare_lt_iff_lt.mpr hlt]
        rfl
      · rw [compare_eq_iff_eq.mpr h, h, Ordering.eq_then]
        rcases lt_trichotomy x.toNat y.toNat with hc | hc | hc
        · rw [compare_lt_iff_lt.mpr hc, compare_lt_iff_lt.mpr (Nat.add_lt_add_right hc _)]
        · rw [hc, compare_eq_iff_eq.mpr rfl, compare_eq_iff_eq.mpr rfl]
        · rw [compare_gt_iff_gt.mpr hc, compare_gt_iff_gt.mpr (Nat.add_lt_add_right hc _)]
      · have hgt : y.toNat + 0x100000000 * toNat b < x.toNat + 0x100000000 * toNat a := by omega
        rw [compare_gt_iff_gt.mpr h, compare_gt_iff_gt.mpr hgt]
        rfl

theorem compare_ne_lt_iff {a b : List UInt32} (hl : a.length = b.length) :
    (compare a b != .lt) = true ↔ toNat b ≤ toNat a := by
  rw [compare_eq hl, bne_iff_ne, ne_eq, compare_lt_iff_lt, not_lt]

theorem compare_gt_iff {a b : List UInt32} (hl : a.length = b.length) :
    (compare a b == .gt) = true ↔ toNat b < toNat a := by
  rw [compare_eq hl, beq_iff_eq, compare_gt_iff_gt]

theorem getD_toNat (l : List UInt32) (i : Nat) :
    (l.getD i 0).toNat = toNat l / 0x100000000 ^ i % 0x100000000 := by
  induction l generalizing i with
  | nil => simp [toNat]
  | cons x r ih =>
      have hx := x.toNat_lt
      cases i with
      | zero =>
          simp only [List.getD_cons_zero, toNat, pow_zero, Nat.div_one]
          omega
      | succ i =>
          rw [List.getD_cons_succ, ih, toNat, pow_succ', ← Nat.div_div_eq_div_mul]
          congr 2
          omega

theorem bit_eq (l : List UInt32) (i : Nat) : bit l i = (toNat l).testBit i := by
  have hk : (UInt32.ofNat (i % 32)).toNat = i % 32 := by
    rw [UInt32.toNat_ofNat']
    omega
  have hp : (0x100000000 : Nat) = 2 ^ 32 := by norm_num
  have hi : i % 32 + 32 * (i / 32) = i := Nat.mod_add_div i 32
  have hd : (l.getD (i / 32) 0).toNat.testBit (i % 32) = (toNat l).testBit i := by
    rw [getD_toNat, hp, ← pow_mul, Nat.testBit_mod_two_pow, Nat.testBit_div_two_pow, hi,
      decide_eq_true (Nat.mod_lt i (by decide)), Bool.true_and]
  rw [bit, ← hd, Nat.testBit_eq_decide_div_mod_eq, decide_eq_decide, ← UInt32.toNat_inj, toNat_low1,
    toNat_shiftRight32 _ (i % 32) hk (Nat.mod_lt i (by decide))]
  rfl

/-- The lowest limb after a shift by fewer bits than a limb has. -/
theorem toNat_shift_limb {x y n : UInt32} (hn : n.toNat < 32) :
    (if n = 0 then x else x >>> n ||| y <<< (32 - n)).toNat =
      x.toNat / 2 ^ n.toNat + 2 ^ (32 - n.toNat) * (y.toNat % 2 ^ n.toNat) := by
  by_cases h0 : n = 0
  · simp [h0, Nat.mod_one]
  · have hpos : 0 < n.toNat := Nat.pos_of_ne_zero fun h => h0 (UInt32.toNat_inj.mp h)
    have hk : (32 - n).toNat = 32 - n.toNat := by
      rw [toNat_sub32 (by simp only [UInt32.reduceToNat]; omega)]
      rfl
    have hlow : x.toNat / 2 ^ n.toNat < 2 ^ (32 - n.toNat) := by
      rw [Nat.div_lt_iff_lt_mul (by positivity), ← pow_add,
        show 32 - n.toNat + n.toNat = 32 by omega]
      exact x.toNat_lt
    have hhigh : (y <<< (32 - n)).toNat = 2 ^ (32 - n.toNat) * (y.toNat % 2 ^ n.toNat) := by
      rw [UInt32.toNat_shiftLeft, hk, Nat.mod_eq_of_lt (show 32 - n.toNat < 32 by omega),
        Nat.shiftLeft_eq, ← Nat.mul_mod_mul_left, ← pow_add,
        show 32 - n.toNat + n.toNat = 32 by omega, mul_comm]
    rw [if_neg h0, UInt32.toNat_or, hhigh, toNat_shiftRight32 x n.toNat rfl hn, Nat.or_comm,
      ← Nat.two_pow_add_eq_or_of_lt hlow, add_comm]

theorem toNat_shiftRight {l : List UInt32} {n : UInt32} (hn : n.toNat < 32) :
    toNat (shiftRight n l) = toNat l / 2 ^ n.toNat := by
  have hp : (0x100000000 : Nat) = 2 ^ n.toNat * 2 ^ (32 - n.toNat) := by
    rw [← pow_add, show n.toNat + (32 - n.toNat) = 32 by omega]
    norm_num
  induction l with
  | nil => simp [shiftRight, toNat]
  | cons x r ih =>
      cases r with
      | nil => simp [shiftRight, toNat, toNat_shiftRight32 x n.toNat rfl hn]
      | cons y r =>
          have hy : toNat (y :: r) % 2 ^ n.toNat = y.toNat % 2 ^ n.toNat := by
            rw [toNat, hp, mul_assoc, Nat.add_mul_mod_self_left]
          have hd := Nat.div_add_mod (toNat (y :: r)) (2 ^ n.toNat)
          rw [hy] at hd
          have hx : toNat (x :: y :: r) / 2 ^ n.toNat =
              x.toNat / 2 ^ n.toNat + 2 ^ (32 - n.toNat) * toNat (y :: r) := by
            rw [toNat, hp, mul_assoc, Nat.add_mul_div_left _ _ (by positivity)]
          rw [hx, shiftRight, toNat, ih, toNat_shift_limb hn, hp]
          conv_rhs => rw [← hd]
          ring

/-- Each limb of a shifted number comes from two neighbours, from one if whole limbs are moved. -/
theorem getD_shiftRight (n : UInt32) (l : List UInt32) (i : Nat) :
    (shiftRight n l).getD i 0 =
      if n = 0 then l.getD i 0 else l.getD i 0 >>> n ||| l.getD (i + 1) 0 <<< (32 - n) := by
  induction l generalizing i with
  | nil => simp [shiftRight]
  | cons x r ih =>
      cases r with
      | nil => cases i <;> by_cases hn : n = 0 <;> simp [shiftRight, hn]
      | cons y r =>
          cases i with
          | zero => simp [shiftRight]
          | succ i =>
              rw [shiftRight, List.getD_cons_succ, List.getD_cons_succ, List.getD_cons_succ]
              exact ih i

end CurveKeys.Secp256k1.Limbs
