import CurveKeys.Proofs.Secp256k1.Field.Canonical

/-!
Full reduction. The normal form of an element is the only packed one that spells the least
representative of its residue, so normal forms decide congruence, and both a second normalization
and a weak one leave a normal form as it is.
-/

namespace CurveKeys.Secp256k1.FieldElement

/-- Nine limbs of 26 bits and one of 22. -/
structure Packed (a : FieldElement) : Prop where
  carried : a.Carried
  l9_lt : a.l9.toNat < 0x400000

theorem Canonical.packed {a : FieldElement} (h : a.Canonical) : a.Packed :=
  ⟨h.carried, l9_le_of_toNat_lt (lt_trans h.toNat_lt (by decide))⟩

theorem toNat_normalize {a : FieldElement} (ha : a.Magnitude 31) :
    a.normalize.toNat = a.toNat % prime := by
  obtain ⟨hc, hr⟩ := normalize_spec ha
  rw [← val_residue hc, hr, residue, ZMod.val_natCast]

theorem packed_iff_eq_normalize {a : FieldElement} (ha : a.Magnitude 31) (b : FieldElement) :
    b.Packed ∧ b.toNat = a.toNat % prime ↔ b = a.normalize := by
  have hc := (normalize_spec ha).1
  constructor
  · rintro ⟨hb, hv⟩
    exact eq_of_toNat_eq hb.carried hc.carried (hv.trans (toNat_normalize ha).symm)
  · rintro rfl
    exact ⟨hc.packed, toNat_normalize ha⟩

/-- Nothing stands above bit 256 of a canonical element, so there is nothing to fold. -/
theorem normalizeWeak_eq_self {a : FieldElement} (h : a.Canonical) : a.normalizeWeak = a := by
  obtain ⟨hc, hv, -⟩ := normalizeWeak_spec (magnitude_mono h.magnitude (by decide))
  rw [Nat.div_eq_of_lt h.packed.l9_lt, mul_zero, add_zero] at hv
  exact eq_of_toNat_eq hc h.carried hv

theorem normalize_normalizeWeak {a : FieldElement} (ha : a.Magnitude 31) :
    a.normalizeWeak.normalize = a.normalize := by
  have hd : a.Denotes 31 a.residue := ⟨ha, rfl⟩
  exact (normalize_eq_iff (denotes_normalizeWeak hd) hd).mpr rfl

/-- The weak shortcut for zero agrees with the normal form. -/
theorem isZeroResidue_eq {a : FieldElement} (ha : a.Magnitude 31) :
    a.isZeroResidue = a.normalize.isZero := by
  obtain ⟨hc, hr⟩ := normalize_spec ha
  rw [Bool.eq_iff_iff, isZeroResidue_iff ⟨ha, rfl⟩, isZero_iff hc, hr]

theorem normalize_eq_iff_modEq {a b : FieldElement} (ha : a.Magnitude 31) (hb : b.Magnitude 31) :
    a.normalize = b.normalize ↔ a.toNat ≡ b.toNat [MOD prime] := by
  rw [normalize_eq_iff ⟨ha, rfl⟩ ⟨hb, rfl⟩]
  exact ZMod.natCast_eq_natCast_iff _ _ _

/-- A full normalization picks the one packed element that spells the least representative. -/
theorem normalize_unique {a : FieldElement} (ha : a.Magnitude 31) :
    (∀ b : FieldElement, b.Packed ∧ b.toNat = a.toNat % prime ↔ b = a.normalize) ∧
      a.normalize.normalize = a.normalize ∧
      a.normalizeWeak.normalize = a.normalize ∧ a.normalize.normalizeWeak = a.normalize ∧
      (a.isZeroResidue = true ↔ a.normalize.isZero = true) ∧
      ∀ b : FieldElement, b.Magnitude 31 →
        (a.normalize = b.normalize ↔ a.toNat ≡ b.toNat [MOD prime]) := by
  have hc := (normalize_spec ha).1
  refine ⟨packed_iff_eq_normalize ha, normalize_eq_self hc, normalize_normalizeWeak ha,
    normalizeWeak_eq_self hc, by rw [isZeroResidue_eq ha], ?_⟩
  intro b hb
  exact normalize_eq_iff_modEq ha hb

/-- The largest multiple of the modulus whose limbs are within magnitude 31, and zero. -/
theorem normalize_unique_of_multiple :
    (modulus.mulInt 62).Magnitude 31 ∧ zero.Magnitude 31 ∧
      (modulus.mulInt 62).isZeroResidue = true ∧
      ((modulus.mulInt 62).isZeroResidue = true ↔ (modulus.mulInt 62).normalize.isZero = true) ∧
      ((modulus.mulInt 62).normalize = zero.normalize ↔
        (modulus.mulInt 62).toNat ≡ zero.toNat [MOD prime]) := by
  have ha : (modulus.mulInt 62).Magnitude 31 := by constructor <;> decide
  have hz : zero.Magnitude 31 := by constructor <;> decide
  obtain ⟨-, -, -, -, hzero, hcongr⟩ := normalize_unique ha
  exact ⟨ha, hz, by decide, hzero, hcongr zero hz⟩

end CurveKeys.Secp256k1.FieldElement
