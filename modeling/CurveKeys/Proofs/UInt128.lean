import CurveKeys.Proofs.Words
import CurveKeys.UInt128

/-!
Words of 128 bits as natural numbers. Products of two 64-bit words are exact, sums are exact when
they fit, and the two parts on either side of bit 51 are quotient and remainder.
-/

namespace CurveKeys.UInt128
open Words

theorem toNat_def (a : UInt128) : a.toNat = a.lo.toNat + 0x10000000000000000 * a.hi.toNat := rfl

theorem toNat_lt (a : UInt128) : a.toNat < 2 ^ 128 := by
  have hlo := a.lo.toNat_lt
  have hhi := a.hi.toNat_lt
  rw [toNat_def]
  omega

theorem eq_of_toNat_eq {a b : UInt128} (h : a.toNat = b.toNat) : a = b := by
  obtain ⟨alo, ahi⟩ := a
  obtain ⟨blo, bhi⟩ := b
  have hal := alo.toNat_lt
  have hbl := blo.toNat_lt
  simp only [toNat_def] at h
  rw [mk.injEq, ← UInt64.toNat_inj, ← UInt64.toNat_inj]
  omega

theorem toNat_low32 (x : UInt64) : (x &&& 0xFFFFFFFF).toNat = x.toNat % 0x100000000 :=
  toNat_and_ones64 x 32 rfl

/-- A product of two halves is below a word with room for two more halves. -/
theorem half_mul_le {a b : Nat} (ha : a < 0x100000000) (hb : b < 0x100000000) :
    a * b ≤ 0xFFFFFFFE00000001 :=
  Nat.mul_le_mul (Nat.le_of_lt_succ ha) (Nat.le_of_lt_succ hb)

theorem toNat_product (x y : UInt64) : (product x y).toNat = x.toNat * y.toNat := by
  have hx := x.toNat_lt
  have hy := y.toNat_lt
  have ll := half_mul_le (Nat.mod_lt x.toNat (by decide)) (Nat.mod_lt y.toNat (by decide))
  have lh := half_mul_le (Nat.mod_lt x.toNat (by decide))
    (show y.toNat / 0x100000000 < 0x100000000 by omega)
  have hl := half_mul_le (show x.toNat / 0x100000000 < 0x100000000 by omega)
    (Nat.mod_lt y.toNat (by decide))
  have hh := half_mul_le (show x.toNat / 0x100000000 < 0x100000000 by omega)
    (show y.toNat / 0x100000000 < 0x100000000 by omega)
  have hfull : x.toNat * y.toNat = x.toNat % 0x100000000 * (y.toNat % 0x100000000) +
      0x100000000 * (x.toNat % 0x100000000 * (y.toNat / 0x100000000) +
        x.toNat / 0x100000000 * (y.toNat % 0x100000000)) +
      0x10000000000000000 * (x.toNat / 0x100000000 * (y.toNat / 0x100000000)) := by
    conv_lhs => rw [← Nat.mod_add_div x.toNat 0x100000000, ← Nat.mod_add_div y.toNat 0x100000000]
    ring
  simp only [toNat_def, product, UInt64.toNat_add, UInt64.toNat_mul, toNat_low32, toNat_high32]
  rw [hfull]
  -- the four products of halves enter linearly from here on
  generalize x.toNat % 0x100000000 * (y.toNat % 0x100000000) = p at ll ⊢
  generalize x.toNat % 0x100000000 * (y.toNat / 0x100000000) = q at lh ⊢
  generalize x.toNat / 0x100000000 * (y.toNat % 0x100000000) = r at hl ⊢
  generalize x.toNat / 0x100000000 * (y.toNat / 0x100000000) = s at hh ⊢
  omega

theorem toNat_add {a b : UInt128} (h : a.toNat + b.toNat < 2 ^ 128) :
    (a + b).toNat = a.toNat + b.toNat := by
  have hal := a.lo.toNat_lt
  have hbl := b.lo.toNat_lt
  change (UInt128.add a b).toNat = _
  simp only [toNat_def] at h ⊢
  simp only [add, UInt64.lt_iff_toNat_lt, UInt64.toNat_add]
  split
  · simp only [UInt64.reduceToNat]
    omega
  · simp only [UInt64.reduceToNat]
    omega

theorem toNat_low51 (a : UInt128) : a.low51.toNat = a.toNat % 0x8000000000000 := by
  have h : a.low51.toNat = a.lo.toNat % 0x8000000000000 := toNat_and_ones64 a.lo 51 rfl
  rw [h, toNat_def]
  omega

theorem toNat_high51 {a : UInt128} (h : a.toNat < 2 ^ 115) :
    a.high51.toNat = a.toNat / 0x8000000000000 := by
  have hlo := a.lo.toNat_lt
  have hhi : a.hi.toNat < 2 ^ 51 := by
    rw [toNat_def] at h
    omega
  have hshift : (a.lo >>> 51).toNat = a.lo.toNat / 2 ^ 51 := toNat_shiftRight64 a.lo 51 rfl
  have hleft : (a.hi <<< 13).toNat = 2 ^ 13 * a.hi.toNat := by
    rw [UInt64.toNat_shiftLeft]
    change a.hi.toNat <<< 13 % 2 ^ 64 = _
    rw [Nat.shiftLeft_eq, mul_comm, Nat.mod_eq_of_lt (by omega)]
  rw [high51, UInt64.toNat_or, hshift, hleft, Nat.or_comm,
    ← Nat.two_pow_add_eq_or_of_lt (show a.lo.toNat / 2 ^ 51 < 2 ^ 13 by omega), toNat_def]
  omega

end CurveKeys.UInt128
