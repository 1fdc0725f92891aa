import CurveKeys.Proofs.Secp256k1.PublicKey
import CurveKeys.Proofs.Secp256k1.Scalar.Inverse
import CurveKeys.Secp256k1.Signature

/-!
Verification is the textbook relation. The coordinate test compares in the field what the relation
compares modulo the order, which is the same because the modulus is less than twice the order.
-/

namespace CurveKeys.Secp256k1.Signature
open FieldElement Curve
open Scalar (order)

/-- The integer of a hash: its first 32 bytes, with zeros on the left of a shorter one. -/
def hashInteger (hash : Bytes) : Nat :=
  Bytes.toNatBE (List.replicate (32 - hash.length) 0 ++ hash.take 32)

theorem denotes_hashScalar (hash : Bytes) :
    (hashScalar hash).Denotes (hashInteger hash : ZMod order) :=
  Scalar.denotes_of_toNat_eq_mod (Scalar.toNat_reduceBytes (hash.window 32))

theorem canonical_toField (k : Scalar) : (toField k).Canonical := canonical_reduceBytes k.toBytes

theorem denotes_toField (k : Scalar) : (toField k).Denotes 1 (k.toNat : ZMod prime) := by
  have h := denotes_reduceBytes k.toBytes
  rw [Scalar.toNatBE_toBytes] at h
  exact h

theorem toNat_toField {k : Scalar} (hk : k.toNat < order) : (toField k).toNat = k.toNat := by
  have hp : order < prime := by decide
  rw [← val_residue (canonical_toField k), (denotes_toField k).residue,
    ZMod.val_natCast_of_lt (hk.trans hp)]

theorem denotes_orderElement : orderElement.Denotes 1 (order : ZMod prime) := by
  have h := denotes_pack (Bytes.window 32 (Bytes.ofNatBE 32 order))
  rwa [Bytes.toNatBE_window_ofNatBE (by decide)] at h

theorem isAtLeast_toField_iff {k : Scalar} (hk : k.toNat < order) :
    (toField k).isAtLeastPrimeMinusOrder = true ↔ prime - order ≤ k.toNat := by
  have hp : primeMinusOrder.toNat = prime - order := by
    rw [toNat_primeMinusOrder]
    decide
  rw [isAtLeastPrimeMinusOrder_iff (canonical_toField k), toNat_toField hk, hp]

/-- An integer below the modulus that is congruent to `k` is `k` itself or `k` plus the order. -/
theorem modEq_order_iff {x k : Nat} (hx : x < prime) (hk : k < order) :
    x ≡ k [MOD order] ↔ x = k ∨ (k < prime - order ∧ x = k + order) := by
  have hp : prime < order * 2 := by decide
  have hle : order < prime := by decide
  constructor
  · intro h
    have hmod : x % order = k := by
      have h' : x % order = k % order := h
      rw [h', Nat.mod_eq_of_lt hk]
    have hdiv := Nat.div_add_mod x order
    have hq : x / order < 2 := Nat.div_lt_of_lt_mul (by omega)
    interval_cases hx2 : x / order
    · exact Or.inl (by omega)
    · exact Or.inr ⟨by omega, by omega⟩
  · rintro (rfl | ⟨-, rfl⟩)
    · rfl
    · exact Nat.add_mod_right k order

theorem natCast_eq_iff {k : Nat} (hk : k < prime) (x : ZMod prime) :
    (k : ZMod prime) = x ↔ x.val = k := by
  constructor
  · rintro rfl
    exact ZMod.val_natCast_of_lt hk
  · rintro rfl
    exact ZMod.natCast_zmod_val x

/-- The comparison without inversion accepts exactly what the affine comparison accepts. -/
theorem matchesX_iff {p : JacobianPoint} {x y : ZMod prime} {h : curve.Nonsingular x y}
    (hp : p.Denotes (.some x y h)) {r : Scalar} (hr : r.toNat < order) :
    matchesX p (toField r) = true ↔ x.val ≡ r.toNat [MOD order] := by
  have hle : order < prime := by decide
  obtain ⟨hpx, -, hpz⟩ := JacobianPoint.holds_coordinates hp
  cases hp.represents with
  | finite hz ex ey =>
      have hz2 := denotes_square hpz
      have hfirst := denotes_mul (denotes_toField r) hz2
      have hsecond := denotes_mul (denotes_add (denotes_toField r) denotes_orderElement) hz2
      have hcancel (v : ZMod prime) : v * p.coordinates.z ^ 2 = p.coordinates.x ↔ v = x := by
        rw [ex]
        exact mul_left_inj' (pow_ne_zero 2 hz)
      have hlow : (prime - order ≤ r.toNat) ↔ ¬ r.toNat < prime - order := not_lt.symm
      rw [matchesX, Bool.or_eq_true, Bool.and_eq_true, beq_iff_eq, beq_iff_eq,
        Bool.not_eq_true', ← Bool.not_eq_true, isAtLeast_toField_iff hr,
        normalize_eq_iff hfirst hpx, normalize_eq_iff hsecond hpx, hcancel, hcancel,
        modEq_order_iff (ZMod.val_lt x) hr, natCast_eq_iff (hr.trans hle), ← Nat.cast_add]
      constructor
      · rintro (h1 | ⟨h2, h3⟩)
        · exact Or.inl h1
        · exact Or.inr ⟨by omega, (natCast_eq_iff (by omega) x).mp h3⟩
      · rintro (h1 | ⟨h2, h3⟩)
        · exact Or.inl h1
        · exact Or.inr ⟨by omega, (natCast_eq_iff (by omega) x).mpr h3⟩

/-- The point that verification takes the first coordinate of. -/
def verificationPoint (g : Signature) (hash : Bytes) (Q : Point) : Point :=
  ((hashInteger hash : ZMod order) * (g.s.toNat : ZMod order)⁻¹).val • generator +
    ((g.r.toNat : ZMod order) * (g.s.toNat : ZMod order)⁻¹).val • Q

theorem denotes_verificationPoint {g : Signature} {key : PublicKey} {Q : Point}
    (hr : g.r.toNat < order) (hs : g.s.toNat < order) (hkey : key.Denotes Q) (hash : Bytes) :
    ((JacobianPoint.mulBaseVar ((hashScalar hash).mul g.s.invert)).addVar
      (key.toJacobian.mulVar (g.r.mul g.s.invert))).Denotes (verificationPoint g hash Q) := by
  have hw := Scalar.denotes_invert (Scalar.denotes_of_reduced hs)
  have h1 := Scalar.denotes_mul (denotes_hashScalar hash) hw
  have h2 := Scalar.denotes_mul (Scalar.denotes_of_reduced hr) hw
  rw [verificationPoint, ← Scalar.toNat_eq_val h1, ← Scalar.toNat_eq_val h2]
  exact JacobianPoint.denotes_addVar (JacobianPoint.denotes_mulBaseVar h1.reduced)
    (JacobianPoint.denotes_mulVar (PublicKey.denotes_toJacobian hkey) h2.reduced)

/-- The textbook relation between a signature, a hash and a key. -/
def Valid (g : Signature) (hash : Bytes) (Q : Point) : Prop :=
  g.r.toNat ≠ 0 ∧ g.s.toNat ≠ 0 ∧ ∃ x y h, verificationPoint g hash Q = .some x y h ∧
    x.val ≡ g.r.toNat [MOD order]

theorem verify_eq_true_iff {g : Signature} {key : PublicKey} {Q : Point} (hr : g.r.toNat < order)
    (hs : g.s.toNat < order) (hkey : key.Denotes Q) (hash : Bytes) :
    g.verify hash key = true ↔ g.Valid hash Q := by
  have hX := denotes_verificationPoint hr hs hkey hash
  have hXi := JacobianPoint.isIdentity_iff hX
  unfold verify Valid
  by_cases hr0 : g.r.toNat = 0
  · rw [(Scalar.isZero_iff g.r).mpr hr0, Bool.true_or, if_pos rfl]
    exact ⟨fun h => (nomatch h), fun h => absurd hr0 h.1⟩
  · by_cases hs0 : g.s.toNat = 0
    · rw [(Scalar.isZero_iff g.s).mpr hs0, Bool.or_true, if_pos rfl]
      exact ⟨fun h => (nomatch h), fun h => absurd hs0 h.2.1⟩
    · rw [(Scalar.isZero_eq_false_iff g.r).mpr hr0, (Scalar.isZero_eq_false_iff g.s).mpr hs0,
        Bool.or_false, if_neg Bool.false_ne_true]
      simp only [Bool.and_eq_true, Bool.not_eq_true', ← Bool.not_eq_true, hXi]
      generalize verificationPoint g hash Q = X at hX
      constructor
      · rintro ⟨hne, hmatch⟩
        cases X with
        | zero => exact absurd rfl hne
        | some x y h => exact ⟨hr0, hs0, x, y, h, rfl, (matchesX_iff hX hr).mp hmatch⟩
      · rintro ⟨-, -, x, y, h, rfl, hx⟩
        exact ⟨WeierstrassCurve.Affine.Point.some_ne_zero h, (matchesX_iff hX hr).mpr hx⟩

/-- Verification is the textbook relation, and its coordinate test is the affine comparison. -/
theorem verify_iff {g : Signature} {key : PublicKey} {Q : Point} (hr : g.r.toNat < order)
    (hs : g.s.toNat < order) (hkey : key.Denotes Q) (hash : Bytes) :
    (g.verify hash key = true ↔
      g.r.toNat ≠ 0 ∧ g.s.toNat ≠ 0 ∧ ∃ x y h,
        ((hashInteger hash : ZMod order) * (g.s.toNat : ZMod order)⁻¹).val • generator +
          ((g.r.toNat : ZMod order) * (g.s.toNat : ZMod order)⁻¹).val • Q = .some x y h ∧
        x.val ≡ g.r.toNat [MOD order]) ∧
    ∀ (p : JacobianPoint) (P : Point), p.Denotes P → P ≠ 0 →
      (matchesX p (toField g.r) = true ↔ p.toAffine.x.toNat ≡ g.r.toNat [MOD order]) := by
  refine ⟨verify_eq_true_iff hr hs hkey hash, ?_⟩
  intro p P hp hP
  have haffine := JacobianPoint.denotes_toAffine hp
  generalize p.toAffine = a at haffine
  cases haffine with
  | infinity _ => exact absurd rfl hP
  | finite cx cy ex ey =>
      rw [matchesX_iff hp hr, ← val_residue cx, ex]

/-- The first coordinate of the base point as a scalar. -/
def generatorScalar : Scalar :=
  ⟨[0x16F81798, 0x59F2815B, 0x2DCE28D9, 0x029BFCDB, 0xCE870B07, 0x55A06295, 0xF9DCBBAC,
    0x79BE667E], rfl⟩

theorem generatorScalar_lt : generatorScalar.toNat < order := by decide

/-- With that coordinate for both components, a signature on nothing holds for the base point. -/
theorem valid_generator : Valid ⟨generatorScalar, generatorScalar⟩ [] generator := by
  have he : hashInteger [] = 0 := by decide
  have hne : (generatorScalar.toNat : ZMod order) ≠ 0 := by decide +kernel
  refine ⟨by decide, by decide, _, _, (nonsingular_iff _ _).mpr generator_equation, ?_, ?_⟩
  · rw [verificationPoint, he, Nat.cast_zero, zero_mul, ZMod.val_zero, zero_nsmul, zero_add,
      mul_inv_cancel₀ hne, ZMod.val_one, one_nsmul]
    rfl
  · decide +kernel

theorem denotes_generatorKey : PublicKey.Denotes ⟨AffinePoint.generator⟩ generator :=
  ⟨AffinePoint.denotes_generator, generator_ne_zero⟩

theorem verify_generator :
    generatorScalar.toNat < order ∧ PublicKey.Denotes ⟨AffinePoint.generator⟩ generator ∧
      verify ⟨generatorScalar, generatorScalar⟩ [] ⟨AffinePoint.generator⟩ = true :=
  ⟨generatorScalar_lt, denotes_generatorKey,
    (verify_iff (g := ⟨generatorScalar, generatorScalar⟩) generatorScalar_lt generatorScalar_lt
      denotes_generatorKey []).1.mpr valid_generator⟩

end CurveKeys.Secp256k1.Signature
