import CurveKeys.Proofs.Secp256k1.Der.Writing
import CurveKeys.Proofs.Secp256k1.Derivation

/-!
The sign of the second component. Its opposite turns the verification point into the opposite
point, which has the same first coordinate, so a signature and its twin hold for the same keys. Of
the two the normal form is the one with the lower second component.
-/

namespace CurveKeys.Secp256k1

namespace Scalar

theorem toNat_negate_eq_mod {a : Scalar} (ha : a.toNat < order) :
    a.negate.toNat = (order - a.toNat) % order := by
  rw [toNat_negate ha]
  split
  · next h => rw [h, Nat.sub_zero, Nat.mod_self]
  · rw [Nat.mod_eq_of_lt (by omega)]

theorem negate_negate {a : Scalar} (ha : a.toNat < order) : a.negate.negate = a := by
  have h := denotes_of_reduced ha
  have hback := denotes_negate (denotes_negate h)
  rw [neg_neg] at hback
  exact eq_of_denotes hback h

end Scalar

namespace Signature
open FieldElement Curve
open Scalar (order)

/-- The signature with the opposite second component. -/
def opposite (g : Signature) : Signature := { g with s := g.s.negate }

theorem opposite_s_lt {g : Signature} (hs : g.s.toNat < order) : g.opposite.s.toNat < order :=
  (Scalar.denotes_negate (Scalar.denotes_of_reduced hs)).reduced

theorem opposite_opposite {g : Signature} (hs : g.s.toNat < order) : g.opposite.opposite = g :=
  congrArg (mk g.r) (Scalar.negate_negate hs)

theorem opposite_s_ne_zero {g : Signature} (hs : g.s.toNat < order) (h0 : g.s.toNat ≠ 0) :
    g.opposite.s.toNat ≠ 0 := by
  have h : g.opposite.s.toNat = _ := Scalar.toNat_negate hs
  rw [h, if_neg h0]
  omega

theorem verificationPoint_opposite {g : Signature} (hs : g.s.toNat < order) (hash : Bytes)
    (Q : Point) : g.opposite.verificationPoint hash Q = -g.verificationPoint hash Q := by
  have hneg : (g.opposite.s.toNat : ZMod order) = -(g.s.toNat : ZMod order) :=
    (Scalar.denotes_negate (Scalar.denotes_of_reduced hs)).residue
  have hr : g.opposite.r = g.r := rfl
  simp only [verificationPoint, hr, hneg, inv_neg, mul_neg, val_nsmul, neg_smul, neg_add]

/-- The opposite point has the same first coordinate. -/
theorem Valid.opposite {g : Signature} (hs : g.s.toNat < order) {hash : Bytes} {Q : Point}
    (h : g.Valid hash Q) : g.opposite.Valid hash Q := by
  obtain ⟨hr0, hs0, x, y, hxy, hX, hx⟩ := h
  refine ⟨hr0, opposite_s_ne_zero hs hs0, x, curve.negY x y,
    (WeierstrassCurve.Affine.nonsingular_neg x y).mpr hxy, ?_, hx⟩
  rw [verificationPoint_opposite hs, hX, WeierstrassCurve.Affine.Point.neg_some]

theorem valid_opposite_iff {g : Signature} (hs : g.s.toNat < order) (hash : Bytes) (Q : Point) :
    g.opposite.Valid hash Q ↔ g.Valid hash Q := by
  constructor
  · intro h
    have hback := h.opposite (opposite_s_lt hs)
    rwa [opposite_opposite hs] at hback
  · exact fun h => h.opposite hs

theorem verify_opposite {g : Signature} (hr : g.r.toNat < order) (hs : g.s.toNat < order)
    {key : PublicKey} {Q : Point} (hkey : key.Denotes Q) (hash : Bytes) :
    g.opposite.verify hash key = g.verify hash key := by
  have hopposite := verify_eq_true_iff (g := g.opposite) hr (opposite_s_lt hs) hkey hash
  rw [Bool.eq_iff_iff, hopposite, verify_eq_true_iff hr hs hkey, valid_opposite_iff hs]

/-- The normal form is the signature itself or its opposite. -/
theorem normalize_cases (g : Signature) : g.normalize = g ∨ g.normalize = g.opposite := by
  rw [normalize, select]
  split
  · exact Or.inr rfl
  · exact Or.inl rfl

theorem verify_normalize {g : Signature} (hr : g.r.toNat < order) (hs : g.s.toNat < order)
    {key : PublicKey} {Q : Point} (hkey : key.Denotes Q) (hash : Bytes) :
    g.normalize.verify hash key = g.verify hash key := by
  rcases g.normalize_cases with h | h
  · rw [h]
  · rw [h, verify_opposite hr hs hkey]

theorem normalize_normalize {g : Signature} (hs : g.s.toNat < order) :
    g.normalize.normalize = g.normalize :=
  normalize_of_low (normalize_s_le hs)

/-- Normal forms are shared by a signature and its opposite, and by no others. -/
theorem normalize_eq_normalize_iff {g h : Signature} (hg : g.s.toNat < order)
    (hh : h.s.toNat < order) : h.normalize = g.normalize ↔ h = g ∨ h = g.opposite := by
  rw [normalize_eq_iff hh hg]
  cases g
  cases h
  simp only [opposite, mk.injEq, ← and_or_left]

/-- Verification sees neither the sign of the second component nor the encoding, and a normal form
stands for a signature and its opposite only. -/
theorem verify_ignores_sign :
    (∀ g : Signature, g.r.toNat < order → g.s.toNat < order →
      g.s.negate.toNat = (order - g.s.toNat) % order ∧
      ∀ (hash : Bytes) (key : PublicKey), key.Obtained →
        verify ⟨g.r, g.s.negate⟩ hash key = g.verify hash key ∧
        g.normalize.verify hash key = g.verify hash key ∧
        (InRange g.r.toNat → InRange g.s.toNat →
          ∃ read, ofDer g.toDer.bytes = .ok read ∧ read.verify hash key = g.verify hash key)) ∧
    ∀ g : Signature, g.s.toNat < order →
      g.normalize.s.toNat ≤ order / 2 ∧ g.normalize.normalize = g.normalize ∧
      ∀ h : Signature, h.s.toNat < order →
        (h.normalize = g.normalize ↔ h = g ∨ h = ⟨g.r, g.s.negate⟩) := by
  refine ⟨fun g hr hs => ⟨Scalar.toNat_negate_eq_mod hs, fun hash key hkey => ?_⟩, fun g hs =>
    ⟨normalize_s_le hs, normalize_normalize hs, fun h hh => normalize_eq_normalize_iff hs hh⟩⟩
  obtain ⟨Q, hQ⟩ := hkey.denotes
  have hnormalize := verify_normalize hr hs hQ hash
  exact ⟨verify_opposite hr hs hQ hash, hnormalize,
    fun hr' hs' => ⟨g.normalize, ofDer_toDer hr' hs', hnormalize⟩⟩

/-- A signature with a high second component that holds for the base point, and still does when it
is written and read back as the low one. -/
theorem verify_high_generator :
    let g : Signature := ⟨generatorScalar, generatorScalar.negate⟩
    InRange g.r.toNat ∧ InRange g.s.toNat ∧ order / 2 < g.s.toNat ∧
      PublicKey.Obtained ⟨AffinePoint.generator⟩ ∧
      g.verify [] ⟨AffinePoint.generator⟩ = true ∧
      ∃ read, ofDer g.toDer.bytes = .ok read ∧ read.verify [] ⟨AffinePoint.generator⟩ = true := by
  intro g
  have hr : InRange g.r.toNat := by decide
  have hs : InRange g.s.toNat := by decide
  have hkey : PublicKey.Obtained ⟨AffinePoint.generator⟩ := .ofAffine .affineGenerator (by decide)
  have hlow : verify ⟨generatorScalar, generatorScalar⟩ [] ⟨AffinePoint.generator⟩ = true :=
    (verify_eq_true_iff generatorScalar_lt generatorScalar_lt denotes_generatorKey []).mpr
      valid_generator
  obtain ⟨hverdict, -⟩ := verify_ignores_sign
  have htwin := (hverdict ⟨generatorScalar, generatorScalar⟩ generatorScalar_lt
    generatorScalar_lt).2 [] _ hkey
  have hhigh : g.verify [] ⟨AffinePoint.generator⟩ = true := htwin.1.trans hlow
  obtain ⟨-, -, hread⟩ := (hverdict g hr.2 hs.2).2 [] _ hkey
  obtain ⟨read, hok, hverify⟩ := hread hr hs
  exact ⟨hr, hs, by decide, hkey, hhigh, read, hok, hverify.trans hhigh⟩

end Signature

end CurveKeys.Secp256k1
