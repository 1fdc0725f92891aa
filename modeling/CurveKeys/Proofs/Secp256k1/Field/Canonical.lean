import CurveKeys.Proofs.Secp256k1.Field.Normalize

/-!
Canonical limbs. A full normalization gives them, they are equal only for equal residues, and the
tests for zero, parity and size read the residue off them.
-/

namespace CurveKeys.Secp256k1.FieldElement
open Words

/-- The limbs are carried and spell an integer below the modulus. -/
structure Canonical (a : FieldElement) : Prop where
  carried : a.Carried
  toNat_lt : a.toNat < prime

theorem canonical_zero : zero.Canonical :=
  ⟨carried_zero, by rw [toNat_zero]; decide⟩

theorem canonical_one : one.Canonical :=
  ⟨by rw [carried_iff]; decide, by decide⟩

theorem Canonical.magnitude {a : FieldElement} (h : a.Canonical) : a.Magnitude 1 :=
  magnitude_one h.carried (lt_trans h.toNat_lt (by decide))

theorem Canonical.denotes {a : FieldElement} (h : a.Canonical) : a.Denotes 1 a.residue :=
  ⟨h.magnitude, rfl⟩

theorem val_residue {a : FieldElement} (h : a.Canonical) : a.residue.val = a.toNat :=
  ZMod.val_natCast_of_lt h.toNat_lt

theorem eq_of_residue_eq {a b : FieldElement} (ha : a.Canonical) (hb : b.Canonical)
    (h : a.residue = b.residue) : a = b := by
  apply eq_of_toNat_eq ha.carried hb.carried
  rw [← val_residue ha, ← val_residue hb, h]

/-- Between one and two multiples of the modulus the correction reaches bit 256, and dropping that
bit subtracts the modulus. -/
theorem subtractModulus_spec {w : FieldElement} (hw : w.Magnitude 1) (hp : prime ≤ w.toNat)
    (hlt : w.toNat < 2 * prime) :
    let c := w.addCorrection 1
    let d : FieldElement := { c with l9 := c.l9 &&& 0x3FFFFF }
    d.Carried ∧ d.toNat + prime = w.toNat := by
  intro c d
  have hc : c.Carried := carried_addCorrection w 1
  have hv : c.toNat = w.toNat + 0x1000003D1 := by
    rw [toNat_addCorrection (magnitude_mono hw (by decide)) (by decide)]
    rfl
  have hd : d.l9.toNat = c.l9.toNat % 0x400000 := toNat_low22 c.l9
  have hs : c.toNat = d.toNat + 2 ^ 256 * (c.l9.toNat / 0x400000) := by
    have h := Nat.div_add_mod c.l9.toNat 0x400000
    rw [toNat_eq c, toNat_eq d, hd]
    linarith
  have hdc : d.Carried := by
    rw [carried_iff] at hc ⊢
    exact hc
  have hdlt : d.toNat < 2 ^ 256 := by
    obtain ⟨h0, h1, h2, h3, h4, h5, h6, h7, h8⟩ := (carried_iff d).mp hdc
    have h9 : d.l9.toNat ≤ 0x3FFFFF := by omega
    rw [toNat_eq]
    linarith
  refine ⟨hdc, ?_⟩
  rw [prime] at hp hlt ⊢
  omega

/-- A full normalization finishes a weak one, whatever the limbs. -/
theorem normalize_weak_spec (a : FieldElement) :
    a.normalize.Canonical ∧ a.normalize.residue = a.normalizeWeak.residue := by
  obtain ⟨hc, hlt⟩ := normalizeWeak_lt a
  cases ho : a.normalizeWeak.overflows with
  | false =>
      have hn : a.normalize = a.normalizeWeak := by simp only [normalize, ho]; rfl
      have hp : ¬ prime ≤ a.normalizeWeak.toNat := by
        rw [← overflows_iff hc, ho]
        exact Bool.false_ne_true
      rw [hn]
      exact ⟨⟨hc, not_le.mp hp⟩, rfl⟩
  | true =>
      have hp : prime ≤ a.normalizeWeak.toNat := (overflows_iff hc).mp ho
      have hlt' : a.normalizeWeak.toNat < 2 * prime := lt_trans hlt (by decide)
      obtain ⟨hdc, hd⟩ := subtractModulus_spec (magnitude_normalizeWeak a) hp hlt'
      simp only [normalize, ho, if_true]
      refine ⟨⟨hdc, by omega⟩, ?_⟩
      rw [residue, residue, ← hd, Nat.cast_add, ZMod.natCast_self, add_zero]

theorem normalize_spec {a : FieldElement} (ha : a.Magnitude 31) :
    a.normalize.Canonical ∧ a.normalize.residue = a.residue := by
  rw [← residue_normalizeWeak ha]
  exact normalize_weak_spec a

theorem canonical_normalize {a : FieldElement} {m : Nat} {v : ZMod prime} (ha : a.Denotes m v)
    (hm : m ≤ 31 := by decide) : a.normalize.Canonical :=
  (normalize_spec (magnitude_mono ha.magnitude hm)).1

theorem denotes_normalize {a : FieldElement} {m : Nat} {v : ZMod prime} (ha : a.Denotes m v)
    (hm : m ≤ 31 := by decide) : a.normalize.Denotes 1 v := by
  obtain ⟨hc, hr⟩ := normalize_spec (magnitude_mono ha.magnitude hm)
  exact ⟨hc.magnitude, hr.trans ha.residue⟩

theorem normalize_eq_iff {a b : FieldElement} {m k : Nat} {v w : ZMod prime}
    (ha : a.Denotes m v) (hb : b.Denotes k w) (hm : m ≤ 31 := by decide)
    (hk : k ≤ 31 := by decide) : a.normalize = b.normalize ↔ v = w := by
  constructor
  · intro h
    rw [← (denotes_normalize ha hm).residue, h, (denotes_normalize hb hk).residue]
  · intro h
    apply eq_of_residue_eq (canonical_normalize ha hm) (canonical_normalize hb hk)
    rw [(denotes_normalize ha hm).residue, (denotes_normalize hb hk).residue, h]

theorem normalize_eq_self {a : FieldElement} (h : a.Canonical) : a.normalize = a :=
  eq_of_residue_eq (canonical_normalize h.denotes) h (denotes_normalize h.denotes).residue

theorem or_limbs_eq_zero (t : FieldElement) :
    t.l0 ||| t.l1 ||| t.l2 ||| t.l3 ||| t.l4 ||| t.l5 ||| t.l6 ||| t.l7 ||| t.l8 ||| t.l9 = 0 ↔
      t = zero := by
  obtain ⟨l0, l1, l2, l3, l4, l5, l6, l7, l8, l9⟩ := t
  simp only [UInt32.or_eq_zero_iff, zero, mk.injEq, and_assoc]

/-- Turning the bits that the modulus lacks leaves all ones in every limb of the modulus only. -/
theorem and_limbs_eq_ones {t : FieldElement} (hc : t.Carried) (h9 : t.l9.toNat < 0x4000000) :
    (t.l0 ^^^ 0x3D0) &&& (t.l1 ^^^ 0x40) &&& t.l2 &&& t.l3 &&& t.l4 &&& t.l5 &&& t.l6 &&& t.l7 &&&
      t.l8 &&& (t.l9 ^^^ 0x3C00000) = 0x3FFFFFF ↔ t = modulus := by
  obtain ⟨h0, h1, h2, h3, h4, h5, h6, h7, h8⟩ := (carried_iff t).mp hc
  have x0 := xor_lt26 (y := 0x3D0) h0 (by decide)
  have x1 := xor_lt26 (y := 0x40) h1 (by decide)
  have x9 := xor_lt26 (y := 0x3C00000) h9 (by decide)
  have a1 := and_lt26 (y := t.l1 ^^^ 0x40) x0
  have a2 := and_lt26 (y := t.l2) a1
  have a3 := and_lt26 (y := t.l3) a2
  have a4 := and_lt26 (y := t.l4) a3
  have a5 := and_lt26 (y := t.l5) a4
  have a6 := and_lt26 (y := t.l6) a5
  have a7 := and_lt26 (y := t.l7) a6
  have a8 := and_lt26 (y := t.l8) a7
  rw [and_eq_ones26 a8 x9, and_eq_ones26 a7 h8, and_eq_ones26 a6 h7, and_eq_ones26 a5 h6,
    and_eq_ones26 a4 h5, and_eq_ones26 a3 h4, and_eq_ones26 a2 h3, and_eq_ones26 a1 h2,
    and_eq_ones26 x0 x1, xor_eq_iff, xor_eq_iff, xor_eq_iff]
  obtain ⟨l0, l1, l2, l3, l4, l5, l6, l7, l8, l9⟩ := t
  simp only [modulus, mk.injEq, and_assoc]
  rfl

theorem isZeroResidue_iff {a : FieldElement} {m : Nat} {v : ZMod prime} (ha : a.Denotes m v)
    (hm : m ≤ 31 := by decide) : a.isZeroResidue = true ↔ v = 0 := by
  have ha' := magnitude_mono ha.magnitude hm
  obtain ⟨hc, -, hlt⟩ := normalizeWeak_spec ha'
  have h9 : a.normalizeWeak.l9.toNat < 0x4000000 :=
    l9_le_of_toNat_lt (lt_trans hlt (by norm_num))
  simp only [isZeroResidue, Bool.or_eq_true, beq_iff_eq]
  rw [or_limbs_eq_zero, and_limbs_eq_ones hc h9, ← ha.residue, ← residue_normalizeWeak ha', residue,
    ZMod.natCast_eq_zero_iff]
  constructor
  · rintro (h | h)
    · rw [h, toNat_zero]
      exact dvd_zero _
    · rw [h, toNat_modulus]
  · rintro ⟨k, hk⟩
    have hk2 : k < 2 := by
      have hp : 2 ^ 256 + 2 ^ 241 ≤ prime * 2 := by decide
      exact Nat.lt_of_mul_lt_mul_left (a := prime) (by omega)
    interval_cases k
    · exact Or.inl (eq_of_toNat_eq hc carried_zero (by rw [hk, toNat_zero, mul_zero]))
    · exact Or.inr (eq_of_toNat_eq hc carried_modulus (by rw [hk, toNat_modulus, mul_one]))

theorem isZero_iff {a : FieldElement} (h : a.Canonical) : a.isZero = true ↔ a.residue = 0 := by
  rw [isZero, beq_iff_eq]
  constructor
  · rintro rfl
    exact denotes_zero.residue
  · intro hr
    exact eq_of_residue_eq h canonical_zero (hr.trans denotes_zero.residue.symm)

theorem isOdd_eq {a : FieldElement} (h : a.Canonical) :
    a.isOdd = decide (a.residue.val % 2 = 1) := by
  have hl : a.toNat % 2 = a.l0.toNat % 2 := by
    rw [toNat_eq]
    omega
  rw [val_residue h, hl, isOdd, ← toNat_low1, Bool.eq_iff_iff, beq_iff_eq, decide_eq_true_eq,
    ← UInt32.toNat_inj]
  rfl

/-- Numbers are compared by their leading digits first, and by the others where these agree. -/
theorem le_leading_iff {base m n x y : Nat} (hm : m < base) (hn : n < base) :
    n + base * y ≤ m + base * x ↔ y < x ∨ x = y ∧ n ≤ m := by
  rcases lt_trichotomy y x with h | rfl | h
  · have hlead : base * (y + 1) ≤ base * x := Nat.mul_le_mul_left base h
    rw [Nat.mul_add_one] at hlead
    exact iff_of_true (by omega) (.inl h)
  · simp
  · have hlead : base * (x + 1) ≤ base * y := Nat.mul_le_mul_left base h
    rw [Nat.mul_add_one] at hlead
    exact iff_of_false (by omega) (by omega)

theorem value_reverse_lt {xs : List UInt32} (h : ∀ x ∈ xs, x.toNat < 0x4000000) :
    Radix.value (xs.reverse.map UInt32.toNat) < 0x4000000 ^ xs.length := by
  simpa using Radix.value_lt (l := xs.reverse.map UInt32.toNat) (by simpa using h)

theorem value_reverse_cons (x : UInt32) (xs : List UInt32) :
    Radix.value ((x :: xs).reverse.map UInt32.toNat) =
      Radix.value (xs.reverse.map UInt32.toNat) + 0x4000000 ^ xs.length * x.toNat := by
  rw [List.reverse_cons, List.map_append, Radix.value_append, List.length_map, List.length_reverse]
  rfl

theorem notBelow_iff {xs ys : List UInt32} (hl : xs.length = ys.length)
    (hx : ∀ x ∈ xs, x.toNat < 0x4000000) (hy : ∀ y ∈ ys, y.toNat < 0x4000000) :
    notBelow xs ys = true ↔ Radix.value (ys.reverse.map UInt32.toNat) ≤
      Radix.value (xs.reverse.map UInt32.toNat) := by
  induction xs generalizing ys with
  | nil =>
      obtain rfl := List.length_eq_zero_iff.mp hl.symm
      simp [notBelow]
  | cons x xs ih =>
      obtain ⟨y, ys, rfl⟩ := List.exists_cons_of_length_eq_add_one hl.symm
      simp only [List.length_cons, Nat.add_right_cancel_iff] at hl
      obtain ⟨-, hx⟩ := List.forall_mem_cons.mp hx
      obtain ⟨-, hy⟩ := List.forall_mem_cons.mp hy
      have hltx := value_reverse_lt hx
      have hlty := value_reverse_lt hy
      rw [← hl] at hlty
      rw [value_reverse_cons, value_reverse_cons, ← hl, le_leading_iff hltx hlty, ← ih hl hx hy]
      simp only [notBelow, Bool.or_eq_true, Bool.and_eq_true, decide_eq_true_eq, beq_iff_eq,
        gt_iff_lt, UInt32.lt_iff_toNat_lt, ← UInt32.toNat_inj]

theorem toNat_primeMinusOrder :
    primeMinusOrder.toNat = 0x14551231950B75FC4402DA1722FC9BAEE := by decide

theorem isAtLeastPrimeMinusOrder_iff {a : FieldElement} (h : a.Canonical) :
    a.isAtLeastPrimeMinusOrder = true ↔ primeMinusOrder.toNat ≤ a.toNat := by
  have h9 : a.l9.toNat < 0x4000000 := l9_le_of_toNat_lt (lt_trans h.toNat_lt (by decide))
  have hlen : a.limbs.reverse.length = primeMinusOrder.limbs.reverse.length := by
    simp [limbs]
  have hlimbs : ∀ x ∈ a.limbs.reverse, x.toNat < 0x4000000 := by
    have hc := (carried_iff a).mp h.carried
    simp only [limbs, List.mem_reverse, List.forall_mem_cons, h9]
    simp [hc]
  rw [isAtLeastPrimeMinusOrder, notBelow_iff hlen hlimbs (by simp [limbs, primeMinusOrder]),
    List.reverse_reverse, List.reverse_reverse]
  rfl

end CurveKeys.Secp256k1.FieldElement
