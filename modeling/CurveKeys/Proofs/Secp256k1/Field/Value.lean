import CurveKeys.Proofs.Primality
import CurveKeys.Proofs.Words
import CurveKeys.Secp256k1.Field.Multiply
import CurveKeys.Select

/-!
Residues of field elements and the magnitudes under which they are computed without loss. An
element denotes a residue at a magnitude; each unreduced operation keeps that relation, with the
magnitude that the operation documents.
-/

namespace CurveKeys.Secp256k1.FieldElement
open Words

theorem toNat_eq (a : FieldElement) :
    a.toNat = a.l0.toNat + 0x4000000 * (a.l1.toNat + 0x4000000 * (a.l2.toNat +
      0x4000000 * (a.l3.toNat + 0x4000000 * (a.l4.toNat + 0x4000000 * (a.l5.toNat +
      0x4000000 * (a.l6.toNat + 0x4000000 * (a.l7.toNat + 0x4000000 * (a.l8.toNat +
      0x4000000 * a.l9.toNat)))))))) := by
  rfl

/-- The element of the prime field that the limbs stand for. -/
def residue (a : FieldElement) : ZMod prime := (a.toNat : ZMod prime)

/-- No limb exceeds `2 * m` times its nominal maximum. -/
structure Magnitude (m : Nat) (a : FieldElement) : Prop where
  l0 : a.l0.toNat ≤ 0x3FFFFFF * (2 * m)
  l1 : a.l1.toNat ≤ 0x3FFFFFF * (2 * m)
  l2 : a.l2.toNat ≤ 0x3FFFFFF * (2 * m)
  l3 : a.l3.toNat ≤ 0x3FFFFFF * (2 * m)
  l4 : a.l4.toNat ≤ 0x3FFFFFF * (2 * m)
  l5 : a.l5.toNat ≤ 0x3FFFFFF * (2 * m)
  l6 : a.l6.toNat ≤ 0x3FFFFFF * (2 * m)
  l7 : a.l7.toNat ≤ 0x3FFFFFF * (2 * m)
  l8 : a.l8.toNat ≤ 0x3FFFFFF * (2 * m)
  l9 : a.l9.toNat ≤ 0x3FFFFF * (2 * m)

theorem magnitude_mono {a : FieldElement} {m k : Nat} (h : a.Magnitude m) (hm : m ≤ k) :
    a.Magnitude k := by
  obtain ⟨h0, h1, h2, h3, h4, h5, h6, h7, h8, h9⟩ := h
  constructor <;> omega

theorem toNat_add_le_of_magnitude {a : FieldElement} {m : Nat} (h : a.Magnitude m) :
    a.toNat + 2 * m ≤ 2 ^ 256 * (2 * m) := by
  obtain ⟨h0, h1, h2, h3, h4, h5, h6, h7, h8, h9⟩ := h
  rw [toNat_eq]
  linarith

/-- The element has a magnitude and a residue. -/
structure Denotes (a : FieldElement) (m : Nat) (v : ZMod prime) : Prop where
  magnitude : a.Magnitude m
  residue : a.residue = v

theorem denotes_congr {a : FieldElement} {m : Nat} {v w : ZMod prime} (h : a.Denotes m v)
    (e : v = w) : a.Denotes m w :=
  ⟨h.magnitude, h.residue.trans e⟩

theorem denotes_zero : zero.Denotes 1 0 := by
  refine ⟨?_, by simp [residue, toNat_eq, zero]⟩
  constructor <;> decide

theorem denotes_one : one.Denotes 1 1 := by
  refine ⟨?_, by simp [residue, toNat_eq, one]⟩
  constructor <;> decide

theorem toNat_ofUInt32 (v : UInt32) : (ofUInt32 v).toNat = v.toNat := by
  simp only [toNat_eq, ofUInt32, toNat_low26, toNat_high26, UInt32.toNat_zero]
  omega

theorem denotes_ofUInt32 (v : UInt32) : (ofUInt32 v).Denotes 1 (v.toNat : ZMod prime) := by
  have hv := v.toNat_lt
  refine ⟨?_, congrArg Nat.cast (toNat_ofUInt32 v)⟩
  constructor <;> simp only [ofUInt32, toNat_low26, toNat_high26, UInt32.toNat_zero] <;> omega

/-- The limbs of a word of 64 bits: two of 26 bits and one of 12. -/
theorem toNat_limbs_ofUInt64 (v : UInt64) :
    (v.toUInt32 &&& 0x3FFFFFF).toNat = v.toNat % 0x4000000 ∧
      ((v >>> 26).toUInt32 &&& 0x3FFFFFF).toNat = v.toNat / 0x4000000 % 0x4000000 ∧
      (v >>> 52).toUInt32.toNat = v.toNat / 2 ^ 52 := by
  have hv := v.toNat_lt
  rw [toNat_low26, toNat_low26, UInt64.toNat_toUInt32, UInt64.toNat_toUInt32,
    UInt64.toNat_toUInt32, toNat_high26_64, toNat_shiftRight64 v 52 rfl (by decide)]
  omega

theorem toNat_ofUInt64 (v : UInt64) : (ofUInt64 v).toNat = v.toNat := by
  obtain ⟨h0, h1, h2⟩ := toNat_limbs_ofUInt64 v
  simp only [toNat_eq, ofUInt64, h0, h1, h2, UInt32.toNat_zero]
  omega

theorem denotes_ofUInt64 (v : UInt64) : (ofUInt64 v).Denotes 1 (v.toNat : ZMod prime) := by
  have hv := v.toNat_lt
  obtain ⟨h0, h1, h2⟩ := toNat_limbs_ofUInt64 v
  refine ⟨?_, congrArg Nat.cast (toNat_ofUInt64 v)⟩
  constructor <;> simp only [ofUInt64, h0, h1, h2, UInt32.toNat_zero] <;> omega

theorem toNat_add {a b : FieldElement} {m k : Nat} (ha : a.Magnitude m) (hb : b.Magnitude k)
    (h : m + k ≤ 32) : (a.add b).toNat = a.toNat + b.toNat := by
  obtain ⟨a0, a1, a2, a3, a4, a5, a6, a7, a8, a9⟩ := ha
  obtain ⟨b0, b1, b2, b3, b4, b5, b6, b7, b8, b9⟩ := hb
  simp (disch := omega) only [toNat_eq, add, toNat_add32]
  ring

theorem magnitude_add {a b : FieldElement} {m k : Nat} (ha : a.Magnitude m) (hb : b.Magnitude k)
    (h : m + k ≤ 32) : (a.add b).Magnitude (m + k) := by
  obtain ⟨a0, a1, a2, a3, a4, a5, a6, a7, a8, a9⟩ := ha
  obtain ⟨b0, b1, b2, b3, b4, b5, b6, b7, b8, b9⟩ := hb
  constructor <;> simp (disch := omega) only [add, toNat_add32] <;> omega

theorem denotes_add {a b : FieldElement} {m k : Nat} {v w : ZMod prime} (ha : a.Denotes m v)
    (hb : b.Denotes k w) (h : m + k ≤ 32 := by decide) :
    (a.add b).Denotes (m + k) (v + w) := by
  refine ⟨magnitude_add ha.magnitude hb.magnitude h, ?_⟩
  rw [residue, toNat_add ha.magnitude hb.magnitude h, Nat.cast_add]
  exact congrArg₂ _ ha.residue hb.residue

theorem toNat_l0_add {a : FieldElement} {m : Nat} {n : UInt32} (ha : a.Magnitude m) (hm : m ≤ 31)
    (hn : n.toNat < 2 ^ 26) : (a.l0 + n).toNat = a.l0.toNat + n.toNat := by
  have h0 := ha.l0
  exact toNat_add32 (by omega)

/-- A small integer counts as one magnitude. -/
theorem denotes_addInt {a : FieldElement} {m : Nat} {v : ZMod prime} (n : UInt32)
    (ha : a.Denotes m v) (hm : m ≤ 31 := by decide) (hn : n.toNat < 2 ^ 26 := by decide) :
    (a.addInt n).Denotes (m + 1) (v + n.toNat) := by
  have hl := toNat_l0_add ha.magnitude hm hn
  constructor
  · obtain ⟨h0, h1, h2, h3, h4, h5, h6, h7, h8, h9⟩ := ha.magnitude
    constructor <;> simp only [addInt, hl] <;> omega
  · have hs : (a.addInt n).toNat = a.toNat + n.toNat := by
      simp only [toNat_eq, addInt, hl]
      ring
    rw [residue, hs, Nat.cast_add]
    exact congrArg (· + _) ha.residue

theorem toNat_limb_mul {x v : UInt32} {m n : Nat} (hx : x.toNat ≤ n * (2 * m))
    (hn : n ≤ 0x3FFFFFF) (h : m * v.toNat ≤ 32) :
    (x * v).toNat = x.toNat * v.toNat ∧ x.toNat * v.toNat ≤ n * (2 * (m * v.toNat)) := by
  have hb : x.toNat * v.toNat ≤ n * (2 * (m * v.toNat)) := by
    calc x.toNat * v.toNat ≤ n * (2 * m) * v.toNat := Nat.mul_le_mul_right _ hx
      _ = n * (2 * (m * v.toNat)) := by ring
  have hn' : n * (2 * (m * v.toNat)) ≤ 0x3FFFFFF * (2 * 32) :=
    Nat.mul_le_mul hn (Nat.mul_le_mul_left 2 h)
  exact ⟨toNat_mul32 (by omega), hb⟩

theorem toNat_mulInt {a : FieldElement} {m : Nat} {v : UInt32} (ha : a.Magnitude m)
    (h : m * v.toNat ≤ 32) : (a.mulInt v).toNat = a.toNat * v.toNat := by
  obtain ⟨h0, h1, h2, h3, h4, h5, h6, h7, h8, h9⟩ := ha
  simp only [toNat_eq, mulInt, (toNat_limb_mul h0 (by decide) h).1,
    (toNat_limb_mul h1 (by decide) h).1, (toNat_limb_mul h2 (by decide) h).1,
    (toNat_limb_mul h3 (by decide) h).1, (toNat_limb_mul h4 (by decide) h).1,
    (toNat_limb_mul h5 (by decide) h).1, (toNat_limb_mul h6 (by decide) h).1,
    (toNat_limb_mul h7 (by decide) h).1, (toNat_limb_mul h8 (by decide) h).1,
    (toNat_limb_mul h9 (by decide) h).1]
  ring

theorem magnitude_mulInt {a : FieldElement} {m : Nat} {v : UInt32} (ha : a.Magnitude m)
    (h : m * v.toNat ≤ 32) : (a.mulInt v).Magnitude (m * v.toNat) := by
  have limb {x : UInt32} {n : Nat} (hx : x.toNat ≤ n * (2 * m)) (hn : n ≤ 0x3FFFFFF) :
      (x * v).toNat ≤ n * (2 * (m * v.toNat)) := by
    rw [(toNat_limb_mul hx hn h).1]
    exact (toNat_limb_mul hx hn h).2
  obtain ⟨h0, h1, h2, h3, h4, h5, h6, h7, h8, h9⟩ := ha
  exact ⟨limb h0 (by decide), limb h1 (by decide), limb h2 (by decide), limb h3 (by decide),
    limb h4 (by decide), limb h5 (by decide), limb h6 (by decide), limb h7 (by decide),
    limb h8 (by decide), limb h9 (by decide)⟩

theorem denotes_mulInt {a : FieldElement} {m : Nat} {v : ZMod prime} (n : UInt32)
    (ha : a.Denotes m v) (h : m * n.toNat ≤ 32 := by decide) :
    (a.mulInt n).Denotes (m * n.toNat) (v * n.toNat) := by
  refine ⟨magnitude_mulInt ha.magnitude h, ?_⟩
  rw [residue, toNat_mulInt ha.magnitude h, Nat.cast_mul]
  exact congrArg (· * _) ha.residue

theorem denotes_double {a : FieldElement} {m : Nat} {v : ZMod prime} (ha : a.Denotes m v)
    (h : m * 2 ≤ 32 := by decide) : a.double.Denotes (m * 2) (2 * v) := by
  have hd := denotes_mulInt 2 ha h
  rw [mul_comm 2 v]
  exact hd

theorem toNat_magnitude_factor {magnitude : UInt32} (h : magnitude.toNat ≤ 31) :
    (2 * (magnitude + 1)).toNat = 2 * (magnitude.toNat + 1) := by
  simp only [UInt32.toNat_mul, UInt32.toNat_add, UInt32.reduceToNat]
  omega

/-- A limb of a multiple of the modulus fits its word and leaves room for a limb of the element. -/
theorem toNat_limb_multiple {c x f : UInt32} {m n : Nat} (hf : f.toNat = 2 * (m + 1))
    (hm : m ≤ 31) (hx : x.toNat ≤ n * (2 * m)) (hn : n * m ≤ c.toNat * (m + 1))
    (hc : c.toNat ≤ 0x3FFFFFF) : (c * f).toNat = c.toNat * f.toNat ∧ x.toNat ≤ (c * f).toNat := by
  have hp : (c * f).toNat = c.toNat * f.toNat := toNat_mul32 (by rw [hf]; nlinarith)
  refine ⟨hp, ?_⟩
  rw [hp, hf]
  nlinarith

/-- A limb of a multiple of the modulus less a limb of an element of the magnitude. -/
theorem toNat_limb_negate {c x f : UInt32} {m n : Nat} (hf : f.toNat = 2 * (m + 1))
    (hm : m ≤ 31) (hx : x.toNat ≤ n * (2 * m)) (hn : n * m ≤ c.toNat * (m + 1))
    (hc : c.toNat ≤ 0x3FFFFFF) :
    (c * f - x).toNat + x.toNat = c.toNat * (2 * (m + 1)) := by
  obtain ⟨hp, hle⟩ := toNat_limb_multiple hf hm hx hn hc
  rw [toNat_sub32 hle, ← hf, ← hp]
  omega

/-- The multiple of the modulus that `negate` subtracts from, limb by limb. -/
theorem negate_limbs {a : FieldElement} {magnitude : UInt32} (hm : magnitude.toNat ≤ 31)
    (ha : a.Magnitude magnitude.toNat) :
    let b := a.negate magnitude
    let f := 2 * (magnitude.toNat + 1)
    b.l0.toNat + a.l0.toNat = 0x3FFFC2F * f ∧ b.l1.toNat + a.l1.toNat = 0x3FFFFBF * f ∧
    b.l2.toNat + a.l2.toNat = 0x3FFFFFF * f ∧ b.l3.toNat + a.l3.toNat = 0x3FFFFFF * f ∧
    b.l4.toNat + a.l4.toNat = 0x3FFFFFF * f ∧ b.l5.toNat + a.l5.toNat = 0x3FFFFFF * f ∧
    b.l6.toNat + a.l6.toNat = 0x3FFFFFF * f ∧ b.l7.toNat + a.l7.toNat = 0x3FFFFFF * f ∧
    b.l8.toNat + a.l8.toNat = 0x3FFFFFF * f ∧ b.l9.toNat + a.l9.toNat = 0x3FFFFF * f := by
  have hf := toNat_magnitude_factor hm
  obtain ⟨h0, h1, h2, h3, h4, h5, h6, h7, h8, h9⟩ := ha
  exact ⟨toNat_limb_negate hf hm h0 (by simp; omega) (by decide),
    toNat_limb_negate hf hm h1 (by simp; omega) (by decide),
    toNat_limb_negate hf hm h2 (by simp) (by decide),
    toNat_limb_negate hf hm h3 (by simp) (by decide),
    toNat_limb_negate hf hm h4 (by simp) (by decide),
    toNat_limb_negate hf hm h5 (by simp) (by decide),
    toNat_limb_negate hf hm h6 (by simp) (by decide),
    toNat_limb_negate hf hm h7 (by simp) (by decide),
    toNat_limb_negate hf hm h8 (by simp) (by decide),
    toNat_limb_negate hf hm h9 (by simp) (by decide)⟩

theorem toNat_negate {a : FieldElement} {magnitude : UInt32} (hm : magnitude.toNat ≤ 31)
    (ha : a.Magnitude magnitude.toNat) :
    (a.negate magnitude).toNat + a.toNat = 2 * (magnitude.toNat + 1) * prime := by
  obtain ⟨h0, h1, h2, h3, h4, h5, h6, h7, h8, h9⟩ := negate_limbs hm ha
  rw [toNat_eq, toNat_eq a, prime]
  linarith

theorem magnitude_negate {a : FieldElement} {magnitude : UInt32} (hm : magnitude.toNat ≤ 31)
    (ha : a.Magnitude magnitude.toNat) : (a.negate magnitude).Magnitude (magnitude.toNat + 1) := by
  obtain ⟨h0, h1, h2, h3, h4, h5, h6, h7, h8, h9⟩ := negate_limbs hm ha
  constructor <;> omega

theorem denotes_negate {a : FieldElement} {v : ZMod prime} (magnitude : UInt32)
    (ha : a.Denotes magnitude.toNat v) (hm : magnitude.toNat ≤ 31 := by decide) :
    (a.negate magnitude).Denotes (magnitude.toNat + 1) (-v) := by
  refine ⟨magnitude_negate hm ha.magnitude, ?_⟩
  have h := congrArg (Nat.cast : Nat → ZMod prime) (toNat_negate hm ha.magnitude)
  rw [Nat.cast_add, Nat.cast_mul, ZMod.natCast_self, mul_zero] at h
  rw [← ha.residue]
  exact eq_neg_of_add_eq_zero_left h

end CurveKeys.Secp256k1.FieldElement
