import Mathlib

/-!
Machine words as natural numbers. Sums, products and differences are exact when they fit; a shift
down divides, and a mask of low ones leaves a remainder.
-/

namespace CurveKeys.Words

theorem toNat_add32 {x y : UInt32} (h : x.toNat + y.toNat < 0x100000000) :
    (x + y).toNat = x.toNat + y.toNat := by
  rw [UInt32.toNat_add]
  exact Nat.mod_eq_of_lt h

theorem toNat_mul32 {x y : UInt32} (h : x.toNat * y.toNat < 0x100000000) :
    (x * y).toNat = x.toNat * y.toNat := by
  rw [UInt32.toNat_mul]
  exact Nat.mod_eq_of_lt h

theorem toNat_sub32 {x y : UInt32} (h : y.toNat ≤ x.toNat) :
    (x - y).toNat = x.toNat - y.toNat :=
  UInt32.toNat_sub_of_le x y (UInt32.le_iff_toNat_le.mpr h)

theorem toNat_add64 {x y : UInt64} (h : x.toNat + y.toNat < 0x10000000000000000) :
    (x + y).toNat = x.toNat + y.toNat := by
  rw [UInt64.toNat_add]
  exact Nat.mod_eq_of_lt h

theorem toNat_sub64 {x y : UInt64} (h : y.toNat ≤ x.toNat) :
    (x - y).toNat = x.toNat - y.toNat :=
  UInt64.toNat_sub_of_le x y (UInt64.le_iff_toNat_le.mpr h)

theorem toNat_mul64 {x y : UInt64} (h : x.toNat * y.toNat < 0x10000000000000000) :
    (x * y).toNat = x.toNat * y.toNat := by
  rw [UInt64.toNat_mul]
  exact Nat.mod_eq_of_lt h

theorem toNat_shiftRight32 (x : UInt32) {k : UInt32} (n : Nat) (hk : k.toNat = n)
    (hn : n < 32 := by decide) : (x >>> k).toNat = x.toNat / 2 ^ n := by
  rw [UInt32.toNat_shiftRight, hk, Nat.mod_eq_of_lt hn, Nat.shiftRight_eq_div_pow]

theorem toNat_shiftRight64 (x : UInt64) {k : UInt64} (n : Nat) (hk : k.toNat = n)
    (hn : n < 64 := by decide) : (x >>> k).toNat = x.toNat / 2 ^ n := by
  rw [UInt64.toNat_shiftRight, hk, Nat.mod_eq_of_lt hn, Nat.shiftRight_eq_div_pow]

theorem toNat_and_ones (x : UInt32) {m : UInt32} (n : Nat) (hm : m.toNat = 2 ^ n - 1) :
    (x &&& m).toNat = x.toNat % 2 ^ n := by
  rw [UInt32.toNat_and, hm, Nat.and_two_pow_sub_one_eq_mod]

theorem toNat_and_ones64 (x : UInt64) {m : UInt64} (n : Nat) (hm : m.toNat = 2 ^ n - 1) :
    (x &&& m).toNat = x.toNat % 2 ^ n := by
  rw [UInt64.toNat_and, hm, Nat.and_two_pow_sub_one_eq_mod]

@[simp] theorem toNat_low26 (x : UInt32) : (x &&& 0x3FFFFFF).toNat = x.toNat % 0x4000000 :=
  toNat_and_ones x 26 rfl

@[simp] theorem toNat_low22 (x : UInt32) : (x &&& 0x3FFFFF).toNat = x.toNat % 0x400000 :=
  toNat_and_ones x 22 rfl

@[simp] theorem toNat_high26 (x : UInt32) : (x >>> 26).toNat = x.toNat / 0x4000000 :=
  toNat_shiftRight32 x 26 rfl

@[simp] theorem toNat_high22 (x : UInt32) : (x >>> 22).toNat = x.toNat / 0x400000 :=
  toNat_shiftRight32 x 22 rfl

@[simp] theorem toNat_low26_64 (x : UInt64) : (x &&& 0x3FFFFFF).toNat = x.toNat % 0x4000000 :=
  toNat_and_ones64 x 26 rfl

@[simp] theorem toNat_low22_64 (x : UInt64) : (x &&& 0x3FFFFF).toNat = x.toNat % 0x400000 :=
  toNat_and_ones64 x 22 rfl

@[simp] theorem toNat_high26_64 (x : UInt64) : (x >>> 26).toNat = x.toNat / 0x4000000 :=
  toNat_shiftRight64 x 26 rfl

@[simp] theorem toNat_high22_64 (x : UInt64) : (x >>> 22).toNat = x.toNat / 0x400000 :=
  toNat_shiftRight64 x 22 rfl

@[simp] theorem toNat_low1 (x : UInt32) : (x &&& 1).toNat = x.toNat % 2 :=
  toNat_and_ones x 1 rfl

theorem toNat_high32 (x : UInt64) : (x >>> 32).toNat = x.toNat / 0x100000000 :=
  toNat_shiftRight64 x 32 rfl

/-- Two words of 26 bits have all ones in common only when both are all ones. -/
theorem and_eq_ones26 {x y : UInt32} (hx : x.toNat < 0x4000000) (hy : y.toNat < 0x4000000) :
    x &&& y = 0x3FFFFFF ↔ x = 0x3FFFFFF ∧ y = 0x3FFFFFF := by
  constructor
  · intro h
    have hn : x.toNat &&& y.toNat = 0x3FFFFFF := by rw [← UInt32.toNat_and, h]; rfl
    have hl : x.toNat &&& y.toNat ≤ x.toNat := Nat.and_le_left
    have hr : x.toNat &&& y.toNat ≤ y.toNat := Nat.and_le_right
    exact ⟨UInt32.toNat_inj.mp (by simp only [UInt32.reduceToNat]; omega),
      UInt32.toNat_inj.mp (by simp only [UInt32.reduceToNat]; omega)⟩
  · rintro ⟨rfl, rfl⟩
    rfl

theorem and_lt26 {x y : UInt32} (hx : x.toNat < 0x4000000) :
    (x &&& y).toNat < 0x4000000 := by
  rw [UInt32.toNat_and]
  exact lt_of_le_of_lt Nat.and_le_left hx

theorem xor_lt26 {x y : UInt32} (hx : x.toNat < 0x4000000) (hy : y.toNat < 0x4000000) :
    (x ^^^ y).toNat < 0x4000000 := by
  rw [UInt32.toNat_xor]
  exact Nat.xor_lt_two_pow (n := 26) hx hy

theorem xor_eq_iff (x y z : UInt32) : x ^^^ y = z ↔ x = z ^^^ y := by
  constructor
  · rintro rfl
    rw [UInt32.xor_assoc, UInt32.xor_self, UInt32.xor_zero]
  · rintro rfl
    rw [UInt32.xor_assoc, UInt32.xor_self, UInt32.xor_zero]

/-- Disjoint bits: a word below `2 ^ n` joined with another word moved up by `n` bits. -/
theorem toNat_or_shiftLeft {x y k : UInt32} (n : Nat) (hk : k.toNat = n) (hn : n < 32)
    (hx : x.toNat < 2 ^ n) (hy : 2 ^ n * y.toNat < 2 ^ 32) :
    (x ||| y <<< k).toNat = x.toNat + 2 ^ n * y.toNat := by
  have hs : (y <<< k).toNat = 2 ^ n * y.toNat := by
    rw [UInt32.toNat_shiftLeft, hk, Nat.mod_eq_of_lt hn, Nat.shiftLeft_eq, mul_comm,
      Nat.mod_eq_of_lt hy]
  rw [UInt32.toNat_or, hs, Nat.or_comm, ← Nat.two_pow_add_eq_or_of_lt hx, add_comm]

/-- Two bytes on top of a part of `n` bits. -/
theorem toNat_join_two {x y z i j : UInt32} (n : Nat) (hi : i.toNat = n) (hj : j.toNat = n + 8)
    (hn : n ≤ 8) (hx : x.toNat < 2 ^ n) (hy : y.toNat < 2 ^ 8) (hz : z.toNat < 2 ^ 8) :
    (x ||| y <<< i ||| z <<< j).toNat = x.toNat + 2 ^ n * (y.toNat + 2 ^ 8 * z.toNat) := by
  have hp : 2 ^ n ≤ 2 ^ 8 := Nat.pow_le_pow_right (by decide) hn
  have hxy : (x ||| y <<< i).toNat = x.toNat + 2 ^ n * y.toNat :=
    toNat_or_shiftLeft n hi (by omega) hx (by nlinarith)
  have hlt : x.toNat + 2 ^ n * y.toNat < 2 ^ (n + 8) := by
    rw [pow_add]
    nlinarith
  have hz' : 2 ^ (n + 8) * z.toNat < 2 ^ 32 := by
    rw [pow_add]
    nlinarith
  rw [toNat_or_shiftLeft (n + 8) hj (by omega) (by rw [hxy]; exact hlt) hz', hxy, pow_add]
  ring

/-- Three bytes on top of a part of `n` bits, the last of them possibly cut short. -/
theorem toNat_join_three {x y z w i j k : UInt32} (n : Nat) (hi : i.toNat = n)
    (hj : j.toNat = n + 8) (hk : k.toNat = n + 16) (hn : n ≤ 8) (hx : x.toNat < 2 ^ n)
    (hy : y.toNat < 2 ^ 8) (hz : z.toNat < 2 ^ 8) (hw : w.toNat < 2 ^ 8) :
    (x ||| y <<< i ||| z <<< j ||| w <<< k).toNat =
      x.toNat + 2 ^ n * (y.toNat + 2 ^ 8 * (z.toNat + 2 ^ 8 * w.toNat)) := by
  have hp : 2 ^ n ≤ 2 ^ 8 := Nat.pow_le_pow_right (by decide) hn
  have hxyz := toNat_join_two n hi hj hn hx hy hz
  have hlt : x.toNat + 2 ^ n * (y.toNat + 2 ^ 8 * z.toNat) < 2 ^ (n + 16) := by
    rw [pow_add]
    nlinarith
  have hw' : 2 ^ (n + 16) * w.toNat < 2 ^ 32 := by
    rw [pow_add]
    nlinarith
  rw [toNat_or_shiftLeft (n + 16) hk (by omega) (by rw [hxyz]; exact hlt) hw', hxyz, pow_add]
  ring

/-- A table of the bytes below a bound settles each of them. -/
theorem of_byte_lt {P : UInt8 → Prop} {k : Nat} (h : ∀ n < k, P (UInt8.ofNat n)) {x : UInt8}
    (hx : x.toNat < k) : P x := by
  have hp := h x.toNat hx
  rwa [UInt8.ofNat_toNat] at hp

theorem toNat_byte_lt (x : UInt8) : x.toUInt32.toNat < 2 ^ 8 := by
  rw [UInt8.toNat_toUInt32]
  exact x.toNat_lt

theorem toNat_byte_shift (x : UInt8) {k : UInt32} (n : Nat) (hk : k.toNat = n) (hn : n < 32) :
    (x.toUInt32 >>> k).toNat = x.toNat / 2 ^ n := by
  rw [toNat_shiftRight32 _ n hk hn, UInt8.toNat_toUInt32]

theorem toNat_byte_mask (x : UInt8) {m : UInt32} (n : Nat) (hm : m.toNat = 2 ^ n - 1) :
    (x.toUInt32 &&& m).toNat = x.toNat % 2 ^ n := by
  rw [toNat_and_ones _ n hm, UInt8.toNat_toUInt32]

/-- The low byte of a word from bit `n` on. -/
theorem toNat_byte_within (x : UInt32) {i : UInt32} (n : Nat) (hi : i.toNat = n)
    (hn : n < 32 := by decide) : (x >>> i).toUInt8.toNat = x.toNat / 2 ^ n % 2 ^ 8 := by
  rw [UInt32.toNat_toUInt8, toNat_shiftRight32 x n hi hn]

/-- Disjoint bits of words of 64 bits. -/
theorem toNat_or_shiftLeft64 {x y k : UInt64} (n : Nat) (hk : k.toNat = n) (hn : n < 64)
    (hx : x.toNat < 2 ^ n) (hy : 2 ^ n * y.toNat < 2 ^ 64) :
    (x ||| y <<< k).toNat = x.toNat + 2 ^ n * y.toNat := by
  have hs : (y <<< k).toNat = 2 ^ n * y.toNat := by
    rw [UInt64.toNat_shiftLeft, hk, Nat.mod_eq_of_lt hn, Nat.shiftLeft_eq, mul_comm,
      Nat.mod_eq_of_lt hy]
  rw [UInt64.toNat_or, hs, Nat.or_comm, ← Nat.two_pow_add_eq_or_of_lt hx, add_comm]

/-- A byte on top of `n` bits. -/
theorem toNat_or_byte {x : UInt64} (y : UInt8) {k : UInt64} (n : Nat) (hk : k.toNat = n)
    (hx : x.toNat < 2 ^ n) (hn : n ≤ 56 := by decide) :
    (x ||| y.toUInt64 <<< k).toNat = x.toNat + 2 ^ n * y.toNat ∧
      (x ||| y.toUInt64 <<< k).toNat < 2 ^ (n + 8) := by
  have hy : y.toUInt64.toNat < 2 ^ 8 := y.toNat_lt
  have hp : 2 ^ n * y.toUInt64.toNat + 2 ^ n ≤ 2 ^ (n + 8) := by
    rw [pow_add, ← Nat.mul_succ]
    exact Nat.mul_le_mul_left _ hy
  have hle : 2 ^ (n + 8) ≤ 2 ^ 64 := Nat.pow_le_pow_right (by decide) (by omega)
  have hpos : 0 < 2 ^ n := by positivity
  have h := toNat_or_shiftLeft64 n hk (by omega) hx
    (show 2 ^ n * y.toUInt64.toNat < 2 ^ 64 by omega)
  exact ⟨h, by rw [h]; omega⟩

end CurveKeys.Words
