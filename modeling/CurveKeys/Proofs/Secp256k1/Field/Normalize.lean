import CurveKeys.Proofs.Secp256k1.Field.Radix
import CurveKeys.Proofs.Secp256k1.Field.Value

/-!
Weak and full normalization. A weak normalization keeps the residue and leaves fewer than two
multiples of the modulus; a full one gives the only canonical limbs of the residue.
-/

namespace CurveKeys.Secp256k1.FieldElement
open Words

theorem toNat_eq_value (a : FieldElement) :
    a.toNat = Radix.value (a.limbs.map UInt32.toNat) := by
  rfl

/-- Every limb but the last is within its 26 bits. -/
def Carried (a : FieldElement) : Prop := Radix.Carried (a.limbs.map UInt32.toNat)

theorem carried_iff (a : FieldElement) :
    a.Carried ↔ a.l0.toNat < 0x4000000 ∧ a.l1.toNat < 0x4000000 ∧ a.l2.toNat < 0x4000000 ∧
      a.l3.toNat < 0x4000000 ∧ a.l4.toNat < 0x4000000 ∧ a.l5.toNat < 0x4000000 ∧
      a.l6.toNat < 0x4000000 ∧ a.l7.toNat < 0x4000000 ∧ a.l8.toNat < 0x4000000 := by
  simp [Carried, Radix.Carried, limbs]

theorem eq_of_limbs_eq {a b : FieldElement}
    (h : a.limbs.map UInt32.toNat = b.limbs.map UInt32.toNat) : a = b := by
  have hl : a.limbs = b.limbs :=
    List.map_injective_iff.mpr (fun _ _ e => UInt32.toNat_inj.mp e) h
  cases a
  cases b
  simpa [limbs] using hl

theorem eq_of_toNat_eq {a b : FieldElement} (ha : a.Carried) (hb : b.Carried)
    (h : a.toNat = b.toNat) : a = b :=
  eq_of_limbs_eq (Radix.eq_of_value_eq ha hb rfl h)

theorem l9_le_of_toNat_lt {a : FieldElement} {n : Nat} (h : a.toNat < 2 ^ 234 * n) :
    a.l9.toNat < n := by
  have hle : 2 ^ 234 * a.l9.toNat ≤ a.toNat := by
    rw [toNat_eq]
    linarith
  exact Nat.lt_of_mul_lt_mul_left (hle.trans_lt h)

theorem limbs_addCorrection (a : FieldElement) (x : UInt32) :
    (a.addCorrection x).limbs = Radix.carry (a.l0 + x * 977)
      [a.l1 + x <<< 6, a.l2, a.l3, a.l4, a.l5, a.l6, a.l7, a.l8, a.l9] := by
  rfl

theorem carried_addCorrection (a : FieldElement) (x : UInt32) : (a.addCorrection x).Carried := by
  rw [Carried, limbs_addCorrection]
  exact Radix.carried_carry _ _

theorem toNat_shiftLeft_six {x : UInt32} (hx : x.toNat ≤ 63) :
    (x <<< 6).toNat = x.toNat * 2 ^ 6 := by
  rw [UInt32.toNat_shiftLeft]
  simp only [UInt32.reduceToNat, Nat.reduceMod, Nat.shiftLeft_eq]
  omega

/-- No sum of a correction leaves its word. -/
structure Correction (a : FieldElement) (x : UInt32) : Prop where
  low : (x * 977).toNat = x.toNat * 977
  high : (x <<< 6).toNat = x.toNat * 2 ^ 6
  l0 : (a.l0 + x * 977).toNat = a.l0.toNat + x.toNat * 977
  l1 : (a.l1 + x <<< 6).toNat = a.l1.toNat + x.toNat * 2 ^ 6
  room : ∀ l ∈ [a.l1 + x <<< 6, a.l2, a.l3, a.l4, a.l5, a.l6, a.l7, a.l8, a.l9],
    l.toNat < 0xFF000000

theorem correction {a : FieldElement} {x : UInt32} (ha : a.Magnitude 31) (hx : x.toNat ≤ 63) :
    Correction a x := by
  obtain ⟨h0, h1, h2, h3, h4, h5, h6, h7, h8, h9⟩ := ha
  have low : (x * 977).toNat = x.toNat * 977 := toNat_mul32 (by simp; omega)
  have high := toNat_shiftLeft_six hx
  have l0 : (a.l0 + x * 977).toNat = a.l0.toNat + x.toNat * 977 := by
    rw [toNat_add32 (by omega), low]
  have l1 : (a.l1 + x <<< 6).toNat = a.l1.toNat + x.toNat * 2 ^ 6 := by
    rw [toNat_add32 (by omega), high]
  refine ⟨low, high, l0, l1, ?_⟩
  simp only [List.forall_mem_cons, l1]
  refine ⟨?_, ?_, ?_, ?_, ?_, ?_, ?_, ?_, ?_, List.forall_mem_nil _⟩ <;> omega

theorem toNat_addCorrection {a : FieldElement} {x : UInt32} (ha : a.Magnitude 31)
    (hx : x.toNat ≤ 63) : (a.addCorrection x).toNat = a.toNat + 0x1000003D1 * x.toNat := by
  obtain ⟨-, -, l0, l1, room⟩ := correction ha hx
  rw [toNat_eq_value, limbs_addCorrection, Radix.value_carry _ _ room, l0]
  simp only [List.map, Radix.value_cons, Radix.value_nil, l1, toNat_eq]
  ring

/-- The limbs without what stands above bit 256, and how much that is. -/
theorem magnitude_cut {a : FieldElement} (ha : a.Magnitude 31) :
    { a with l9 := a.l9 &&& 0x3FFFFF }.Magnitude 31 ∧ (a.l9 >>> 22).toNat ≤ 63 := by
  obtain ⟨h0, h1, h2, h3, h4, h5, h6, h7, h8, h9⟩ := ha
  refine ⟨⟨h0, h1, h2, h3, h4, h5, h6, h7, h8, ?_⟩, ?_⟩
  · rw [toNat_low22]
    omega
  · rw [toNat_high22]
    omega

/-- A weak normalization leaves little above `2 ^ 256`, whatever the limbs. -/
theorem normalizeWeak_lt (a : FieldElement) :
    a.normalizeWeak.Carried ∧ a.normalizeWeak.toNat < 2 ^ 256 + 2 ^ 241 := by
  let b : FieldElement := { a with l9 := a.l9 &&& 0x3FFFFF }
  have hc : a.normalizeWeak.Carried := carried_addCorrection b _
  obtain ⟨x, hx⟩ : ∃ x : UInt32, a.normalizeWeak.l9 = b.l9 + x >>> 26 := ⟨_, rfl⟩
  have hl : b.l9.toNat = a.l9.toNat % 0x400000 := toNat_low22 a.l9
  have hle : a.normalizeWeak.l9.toNat ≤ 0x3FFFFF + 63 := by
    have hx32 := x.toNat_lt
    rw [hx, Radix.toNat_add_carry x (by omega), hl]
    omega
  refine ⟨hc, ?_⟩
  generalize a.normalizeWeak = w at hc hle
  obtain ⟨h0, h1, h2, h3, h4, h5, h6, h7, h8⟩ := (carried_iff w).mp hc
  rw [toNat_eq]
  linarith

/-- What a weak normalization leaves: the multiples of `2 ^ 256` are gone from the last limb. -/
theorem normalizeWeak_spec {a : FieldElement} (ha : a.Magnitude 31) :
    a.normalizeWeak.Carried ∧
      a.normalizeWeak.toNat + prime * (a.l9.toNat / 0x400000) = a.toNat ∧
      a.normalizeWeak.toNat < 2 ^ 256 + 2 ^ 241 := by
  obtain ⟨hb, hx⟩ := magnitude_cut ha
  have hv := toNat_addCorrection hb hx
  refine ⟨(normalizeWeak_lt a).1, ?_, (normalizeWeak_lt a).2⟩
  have hd := Nat.div_add_mod a.l9.toNat 0x400000
  rw [normalizeWeak, hv, toNat_high22, toNat_eq, toNat_low22, toNat_eq a, prime]
  linarith

theorem residue_normalizeWeak {a : FieldElement} (ha : a.Magnitude 31) :
    a.normalizeWeak.residue = a.residue := by
  rw [residue, residue, ← (normalizeWeak_spec ha).2.1, Nat.cast_add, Nat.cast_mul,
    ZMod.natCast_self, zero_mul, add_zero]

/-- A carried element below `2 ^ 257` has magnitude 1. -/
theorem magnitude_one {a : FieldElement} (hc : a.Carried) (h : a.toNat < 2 ^ 234 * 0x7FFFFF) :
    a.Magnitude 1 := by
  obtain ⟨h0, h1, h2, h3, h4, h5, h6, h7, h8⟩ := (carried_iff a).mp hc
  have h9 := l9_le_of_toNat_lt h
  constructor <;> omega

theorem magnitude_normalizeWeak (a : FieldElement) : a.normalizeWeak.Magnitude 1 := by
  obtain ⟨hc, hlt⟩ := normalizeWeak_lt a
  exact magnitude_one hc (lt_trans hlt (by norm_num))

theorem denotes_normalizeWeak {a : FieldElement} {m : Nat} {v : ZMod prime} (ha : a.Denotes m v)
    (hm : m ≤ 31 := by decide) : a.normalizeWeak.Denotes 1 v := by
  have ha' := magnitude_mono ha.magnitude hm
  exact ⟨magnitude_normalizeWeak a, (residue_normalizeWeak ha').trans ha.residue⟩

/-- The limbs of the modulus. -/
def modulus : FieldElement :=
  ⟨0x3FFFC2F, 0x3FFFFBF, 0x3FFFFFF, 0x3FFFFFF, 0x3FFFFFF, 0x3FFFFFF, 0x3FFFFFF, 0x3FFFFFF,
    0x3FFFFFF, 0x3FFFFF⟩

theorem toNat_modulus : modulus.toNat = prime := by decide

theorem carried_modulus : modulus.Carried := by
  rw [carried_iff]
  decide

theorem toNat_zero : zero.toNat = 0 := by decide

theorem carried_zero : zero.Carried := by
  rw [carried_iff]
  decide

/-- The seven full limbs in the middle are all ones when their conjunction is. -/
theorem mid_eq_ones {a : FieldElement} (hc : a.Carried) :
    a.l2 &&& a.l3 &&& a.l4 &&& a.l5 &&& a.l6 &&& a.l7 &&& a.l8 = 0x3FFFFFF ↔
      a.l2 = 0x3FFFFFF ∧ a.l3 = 0x3FFFFFF ∧ a.l4 = 0x3FFFFFF ∧ a.l5 = 0x3FFFFFF ∧
        a.l6 = 0x3FFFFFF ∧ a.l7 = 0x3FFFFFF ∧ a.l8 = 0x3FFFFFF := by
  obtain ⟨h0, h1, h2, h3, h4, h5, h6, h7, h8⟩ := (carried_iff a).mp hc
  have h23 := and_lt26 (y := a.l3) h2
  have h24 := and_lt26 (y := a.l4) h23
  have h25 := and_lt26 (y := a.l5) h24
  have h26 := and_lt26 (y := a.l6) h25
  have h27 := and_lt26 (y := a.l7) h26
  rw [and_eq_ones26 h27 h8, and_eq_ones26 h26 h7, and_eq_ones26 h25 h6, and_eq_ones26 h24 h5,
    and_eq_ones26 h23 h4, and_eq_ones26 h2 h3]
  simp only [and_assoc]

/-- No sum of the comparison with the modulus leaves its word. -/
structure OverflowSums (a : FieldElement) : Prop where
  sum : (a.l0 + 977).toNat = a.l0.toNat + 977
  carried : (a.l1 + (a.l0 + 977) >>> 26).toNat = a.l1.toNat + (a.l0 + 977).toNat / 0x4000000
  low : (a.l1 + (a.l0 + 977) >>> 26 + 64).toNat = (a.l1 + (a.l0 + 977) >>> 26).toNat + 64

theorem overflowSums {a : FieldElement} (hc : a.Carried) : OverflowSums a := by
  obtain ⟨h0, h1, -⟩ := (carried_iff a).mp hc
  have sum : (a.l0 + 977).toNat = a.l0.toNat + 977 := toNat_add32 (by simp; omega)
  have carried := Radix.toNat_add_carry (l := a.l1) (a.l0 + 977) (by omega)
  exact ⟨sum, carried, toNat_add32 (by rw [carried]; simp only [UInt32.reduceToNat]; omega)⟩

theorem overflows_iff {a : FieldElement} (hc : a.Carried) :
    a.overflows = true ↔ prime ≤ a.toNat := by
  obtain ⟨h0, h1, h2, h3, h4, h5, h6, h7, h8⟩ := (carried_iff a).mp hc
  obtain ⟨hsum, hcarry, hlow⟩ := overflowSums hc
  rw [hsum] at hcarry
  simp only [overflows, Bool.or_eq_true, Bool.and_eq_true, bne_iff_ne, beq_iff_eq,
    decide_eq_true_eq, mid_eq_ones hc, UInt32.lt_iff_toNat_lt, ← UInt32.toNat_inj, hlow, hcarry,
    toNat_high22, UInt32.reduceToNat, ne_eq]
  rw [toNat_eq, prime]
  omega

end CurveKeys.Secp256k1.FieldElement
