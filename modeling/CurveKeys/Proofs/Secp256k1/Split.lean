import CurveKeys.Proofs.Secp256k1.Scalar.Quotient
import CurveKeys.Secp256k1.Split

/-!
The halves of a scalar. As integers they are what a lattice point near `(k, 0)` leaves, and the
rounding errors of the two quotients keep both of them short.
-/

namespace CurveKeys.Secp256k1.Scalar

/-- The eigenvalue modulo the order. -/
def lambda : ZMod order := -(minusLambda.toNat : ZMod order)

def a1 : ℤ := 0x3086D221A7D46BCDE86C90E49284EB15

def a2 : ℤ := 0x114CA50F7A8E2F3F657C1108D9D44CFD8

def b1 : ℤ := -0xE4437ED6010E88286F547FA90ABFE4C3

def b2 : ℤ := 0x3086D221A7D46BCDE86C90E49284EB15

theorem toNat_minusB1 : (minusB1.toNat : ℤ) = -b1 := by decide

theorem toNat_minusB2 : (minusB2.toNat : ℤ) = order - b2 := by decide

/-- The first basis vector is in the kernel of `(x, y) ↦ x + y * lambda`. -/
theorem basis_one : (a1 : ZMod order) = b1 * minusLambda.toNat := by
  have h : (order : ℤ) ∣ b1 * minusLambda.toNat - a1 := by decide +kernel
  have h' := (ZMod.intCast_eq_intCast_iff_dvd_sub a1 (b1 * minusLambda.toNat) order).mpr h
  rw [h', Int.cast_mul, Int.cast_natCast]

theorem basis_two : (a2 : ZMod order) = b2 * minusLambda.toNat := by
  have h : (order : ℤ) ∣ b2 * minusLambda.toNat - a2 := by decide +kernel
  have h' := (ZMod.intCast_eq_intCast_iff_dvd_sub a2 (b2 * minusLambda.toNat) order).mpr h
  rw [h', Int.cast_mul, Int.cast_natCast]

/-- The nearest integers to `k * b₂ / n` and `k * -b₁ / n`, up to the error of `g1` and `g2`. -/
def quotient (g : Scalar) (k : Scalar) : ℤ := (k.mulShift g 384).toNat

/-- The first half as an integer. -/
def half1 (k : Scalar) : ℤ := k.toNat - quotient g1 k * a1 - quotient g2 k * a2

/-- The second half as an integer. -/
def half2 (k : Scalar) : ℤ := -(quotient g1 k * b1) - quotient g2 k * b2

theorem quotient_bounds {g k : Scalar} (hk : k.toNat < order) (hg : g.toNat < order) :
    2 ^ 192 * (2 ^ 192 * quotient g k) ≤ k.toNat * g.toNat + 2 ^ 191 * 2 ^ 192 ∧
      k.toNat * g.toNat < 2 ^ 192 * (2 ^ 192 * quotient g k) + 2 ^ 191 * 2 ^ 192 := by
  have h := toNat_mulShift (192 + 192) hk hg (by decide) (by decide)
  rw [show 192 + 192 - 1 = 191 + 192 from rfl, pow_add, pow_add] at h
  have hq : quotient g k =
      ((k.toNat * g.toNat + 2 ^ 191 * 2 ^ 192) / (2 ^ 192 * 2 ^ 192) : Nat) := congrArg Nat.cast h
  have hd := Nat.div_add_mod (k.toNat * g.toNat + 2 ^ 191 * 2 ^ 192) (2 ^ 192 * 2 ^ 192)
  have hm := Nat.mod_lt (k.toNat * g.toNat + 2 ^ 191 * 2 ^ 192)
    (show 0 < 2 ^ 192 * 2 ^ 192 by decide)
  have h0 := Nat.zero_le ((k.toNat * g.toNat + 2 ^ 191 * 2 ^ 192) % (2 ^ 192 * 2 ^ 192))
  rw [hq]
  zify at hd hm h0 ⊢
  constructor <;> linarith

/-- Both quotients, in numbers. -/
structure Rounded (k q1 q2 : ℤ) : Prop where
  nonneg : 0 ≤ k
  lt : k < 0xFFFFFFFFFFFFFFFFFFFFFFFFFFFFFFFEBAAEDCE6AF48A03BBFD25E8CD0364141
  lower1 : 2 ^ 192 * (2 ^ 192 * q1) ≤
    k * 0x3086D221A7D46BCDE86C90E49284EB153DAA8A1471E8CA7FE893209A45DBB031 + 2 ^ 191 * 2 ^ 192
  upper1 : k * 0x3086D221A7D46BCDE86C90E49284EB153DAA8A1471E8CA7FE893209A45DBB031 <
    2 ^ 192 * (2 ^ 192 * q1) + 2 ^ 191 * 2 ^ 192
  lower2 : 2 ^ 192 * (2 ^ 192 * q2) ≤
    k * 0xE4437ED6010E88286F547FA90ABFE4C4221208AC9DF506C61571B4AE8AC47F71 + 2 ^ 191 * 2 ^ 192
  upper2 : k * 0xE4437ED6010E88286F547FA90ABFE4C4221208AC9DF506C61571B4AE8AC47F71 <
    2 ^ 192 * (2 ^ 192 * q2) + 2 ^ 191 * 2 ^ 192

theorem rounded_quotients {k : Scalar} (hk : k.toNat < order) :
    Rounded k.toNat (quotient g1 k) (quotient g2 k) := by
  obtain ⟨l1, u1⟩ := quotient_bounds (g := g1) hk (by decide)
  obtain ⟨l2, u2⟩ := quotient_bounds (g := g2) hk (by decide)
  exact ⟨Int.natCast_nonneg _, Int.ofNat_lt.mpr hk, l1, u1, l2, u2⟩

theorem abs_half1_lt {k : Scalar} (hk : k.toNat < order) : |half1 k| < 2 ^ 128 := by
  obtain ⟨h0, hn, l1, u1, l2, u2⟩ := rounded_quotients hk
  rw [abs_lt, half1, a1, a2]
  constructor <;> linarith

theorem abs_half2_lt {k : Scalar} (hk : k.toNat < order) : |half2 k| < 2 ^ 128 := by
  obtain ⟨h0, hn, l1, u1, l2, u2⟩ := rounded_quotients hk
  rw [abs_lt, half2, b1, b2]
  constructor <;> linarith

theorem denotes_quotient {g k : Scalar} (hk : k.toNat < order) (hg : g.toNat < order) :
    (k.mulShift g 384).Denotes (quotient g k) := by
  have h := denotes_of_reduced (mulShift_reduced 384 hk hg (by decide) (by decide))
  rw [quotient, Int.cast_natCast]
  exact h

theorem split_snd (k : Scalar) :
    k.split.2 = ((k.mulShift g1 384).mul minusB1).add ((k.mulShift g2 384).mul minusB2) := by
  simp only [split]

theorem split_fst (k : Scalar) : k.split.1 = k.add (k.split.2.mul minusLambda) := by
  simp only [split]

theorem denotes_half2 {k : Scalar} (hk : k.toNat < order) : k.split.2.Denotes (half2 k) := by
  have h1 := denotes_mul (denotes_quotient (g := g1) hk (by decide))
    (denotes_of_reduced (a := minusB1) (by decide))
  have h2 := denotes_mul (denotes_quotient (g := g2) hk (by decide))
    (denotes_of_reduced (a := minusB2) (by decide))
  have hm1 : (minusB1.toNat : ZMod order) = -(b1 : ZMod order) := by
    rw [← Int.cast_natCast, toNat_minusB1, Int.cast_neg]
  have hm2 : (minusB2.toNat : ZMod order) = -(b2 : ZMod order) := by
    rw [← Int.cast_natCast, toNat_minusB2, Int.cast_sub, Int.cast_natCast, ZMod.natCast_self,
      zero_sub]
  have h := denotes_add h1 h2
  rw [hm1, hm2] at h
  have he : (half2 k : ZMod order) =
      quotient g1 k * -(b1 : ZMod order) + quotient g2 k * -(b2 : ZMod order) := by
    rw [half2]
    push_cast
    ring
  rw [he, split_snd]
  exact h

theorem denotes_half1 {k : Scalar} (hk : k.toNat < order) : k.split.1.Denotes (half1 k) := by
  have h := denotes_add (denotes_of_reduced hk)
    (denotes_mul (denotes_half2 hk) (denotes_of_reduced (a := minusLambda) (by decide)))
  have he : (half1 k : ZMod order) = k.toNat + half2 k * minusLambda.toNat := by
    rw [half1, half2]
    push_cast
    rw [basis_one, basis_two]
    ring
  rw [he, split_fst]
  exact h

theorem half1_add_half2 (k : Scalar) :
    (half1 k : ZMod order) + half2 k * lambda = k.toNat := by
  rw [half1, half2, lambda]
  push_cast
  rw [basis_one, basis_two]
  ring

theorem natAbs_lt_of_short {m : ℤ} (hm : |m| < 2 ^ 128) : m.natAbs < 2 ^ 128 := by
  have hb : (m.natAbs : ℤ) < 2 ^ 128 := by rwa [← Int.abs_eq_natAbs]
  omega

/-- A short integer is met as itself or, when it is negative, just below the order. -/
theorem toNat_of_short {k : Scalar} {m : ℤ} (hk : k.Denotes m) (hm : |m| < 2 ^ 128) :
    k.toNat = if m < 0 then order - m.natAbs else m.natAbs := by
  have hb := natAbs_lt_of_short hm
  have hn : 2 ^ 128 ≤ order := by decide
  by_cases hneg : m < 0
  · have hc : ((order - m.natAbs : Nat) : ZMod order) = m := by
      rw [Nat.cast_sub (by omega), ZMod.natCast_self, zero_sub, ← Int.cast_natCast, ← Int.cast_neg]
      congr 1
      omega
    rw [if_pos hneg, toNat_eq_val hk, ← hc, ZMod.val_natCast_of_lt (by omega)]
  · have hc : ((m.natAbs : Nat) : ZMod order) = m := by
      rw [← Int.cast_natCast, Int.natAbs_of_nonneg (by omega)]
    rw [if_neg hneg, toNat_eq_val hk, ← hc, ZMod.val_natCast_of_lt (by omega)]

/-- A short integer is recovered as its absolute value and its sign. -/
theorem absolute_spec {k : Scalar} {m : ℤ} (hk : k.Denotes m) (hm : |m| < 2 ^ 128) :
    k.absolute.1.toNat = m.natAbs ∧ k.absolute.2 = decide (m < 0) := by
  have hb := natAbs_lt_of_short hm
  have hv := toNat_of_short hk hm
  have hhalf : 2 ^ 128 ≤ order / 2 := by decide
  by_cases hneg : m < 0
  · rw [if_pos hneg] at hv
    have hhigh : k.isHigh = true := by
      rw [isHigh_iff]
      omega
    rw [absolute, hhigh, decide_eq_true hneg, select, if_pos rfl, toNat_negate hk.reduced,
      if_neg (by omega)]
    exact ⟨by omega, rfl⟩
  · rw [if_neg hneg] at hv
    have hlow : k.isHigh = false := by
      rw [← Bool.not_eq_true, isHigh_iff]
      omega
    rw [absolute, hlow, decide_eq_false hneg]
    exact ⟨hv, rfl⟩

end CurveKeys.Secp256k1.Scalar
