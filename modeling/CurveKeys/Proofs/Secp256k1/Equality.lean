import CurveKeys.Proofs.Secp256k1.Decompression
import CurveKeys.Proofs.Secp256k1.GroupLaw

/-!
Equality of points in Jacobian coordinates. It is the equality of the affine forms and of the points
that are stood for, whatever the denominators, so it is an equivalence that every operation keeps.
Whatever the coordinates of infinity are, it equals infinity only.
-/

namespace CurveKeys.Secp256k1

namespace Curve

/-- Coordinates, or none at infinity, tell points apart. -/
theorem affine_injective : Function.Injective affine := by
  intro P Q h
  cases P with
  | zero =>
      cases Q with
      | zero => rfl
      | some x y hxy => exact nomatch h
  | some x y hxy =>
      cases Q with
      | zero => exact nomatch h
      | some x' y' hxy' =>
          rw [WeierstrassCurve.Affine.Point.some.injEq]
          exact Prod.mk.inj (Option.some.inj h)

end Curve

namespace AffinePoint
open FieldElement Curve

/-- The affine forms are the pair for infinity and the canonical solutions of the equation. -/
theorem exists_denotes_iff (a : AffinePoint) : (∃ P, a.Denotes P) ↔ a = identity ∨ a.OnCurve := by
  constructor
  · rintro ⟨P, ha | ⟨cx, cy, rfl, rfl⟩⟩
    · exact Or.inl ha
    · next hxy => exact Or.inr ⟨cx, cy, hxy.1⟩
  · rintro (rfl | ha)
    · exact ⟨0, denotes_identity⟩
    · exact ⟨_, ha.denotes⟩

end AffinePoint

namespace JacobianPoint
open FieldElement Curve
open Scalar (order)

variable {p p' q q' : JacobianPoint} {P Q : Point}

theorem beq_of_denotes (hp : p.Denotes P) (hq : q.Denotes P) : (p == q) = true :=
  (same_iff hp hq).mpr rfl

/-- Equal triples stand for one point. -/
theorem exists_denotes_of_beq (hp : p.Valid) (hq : q.Valid) (h : (p == q) = true) :
    ∃ P, p.Denotes P ∧ q.Denotes P := by
  obtain ⟨P, hP⟩ := (valid_iff p).mp hp
  obtain ⟨Q, hQ⟩ := (valid_iff q).mp hq
  obtain rfl := (same_iff hP hQ).mp h
  exact ⟨P, hP, hQ⟩

theorem beq_iff_toAffine_eq (hp : p.Valid) (hq : q.Valid) :
    (p == q) = true ↔ p.toAffine = q.toAffine := by
  constructor
  · intro h
    obtain ⟨P, hP, hQ⟩ := exists_denotes_of_beq hp hq h
    exact AffinePoint.eq_of_denotes (denotes_toAffine hP) (denotes_toAffine hQ)
  · intro h
    obtain ⟨P, hP⟩ := (valid_iff p).mp hp
    obtain ⟨Q, hQ⟩ := (valid_iff q).mp hq
    have hQ' := denotes_toAffine hQ
    rw [← h] at hQ'
    exact (same_iff hP hQ).mpr (AffinePoint.point_eq_of_denotes (denotes_toAffine hP) hQ')

theorem beq_iff_affine_eq (hp : p.Valid) (hq : q.Valid) :
    (p == q) = true ↔ p.affine = q.affine := by
  obtain ⟨P, hP⟩ := (valid_iff p).mp hp
  obtain ⟨Q, hQ⟩ := (valid_iff q).mp hq
  rw [affine_eq hP, affine_eq hQ, affine_injective.eq_iff]
  exact same_iff hP hQ

theorem beq_equivalence :
    Equivalence fun p q : {p : JacobianPoint // p.Valid} => (p.1 == q.1) = true := by
  have h : (fun p q : {p : JacobianPoint // p.Valid} => (p.1 == q.1) = true) =
      fun p q => p.1.toAffine = q.1.toAffine := by
    funext p q
    exact propext (beq_iff_toAffine_eq p.2 q.2)
  rw [h]
  exact eq_equivalence.comap fun p : {p : JacobianPoint // p.Valid} => p.1.toAffine

theorem beq_iff_of_isIdentity (hp : p.Valid) (hq : q.Valid) (h : p.isIdentity = true) :
    (p == q) = true ↔ q.isIdentity = true := by
  obtain ⟨P, hP⟩ := (valid_iff p).mp hp
  obtain ⟨Q, hQ⟩ := (valid_iff q).mp hq
  obtain rfl := (isIdentity_iff hP).mp h
  rw [isIdentity_iff hQ, eq_comm (a := Q)]
  exact same_iff hP hQ

theorem ofAffine_toAffine (hp : p.Valid) : (ofAffine p.toAffine == p) = true := by
  obtain ⟨P, hP⟩ := (valid_iff p).mp hp
  exact beq_of_denotes (denotes_ofAffine (denotes_toAffine hP)) hP

theorem toAffine_ofAffine {a : AffinePoint} (h : a = .identity ∨ a.OnCurve) :
    (ofAffine a).toAffine = a := by
  obtain ⟨P, hP⟩ := (AffinePoint.exists_denotes_iff a).mpr h
  exact AffinePoint.eq_of_denotes (denotes_toAffine (denotes_ofAffine hP)) hP

/-- The same point over another denominator. -/
def rescale (p : JacobianPoint) (c : FieldElement) : JacobianPoint :=
  ⟨p.x.mul c.square, (p.y.mul c.square).mul c, p.z.mul c⟩

theorem denotes_rescale (hp : p.Denotes P) {c : FieldElement} (hc : c.Magnitude 1)
    (h : c.residue ≠ 0) : (p.rescale c).Denotes P := by
  obtain ⟨hx, hy, hz⟩ := holds_coordinates hp
  have hc1 : c.Denotes 1 c.residue := ⟨hc, rfl⟩
  have hc2 := denotes_square hc1
  refine denotes_of_coordinates (c := ⟨p.coordinates.x * c.residue ^ 2,
    p.coordinates.y * c.residue ^ 2 * c.residue, p.coordinates.z * c.residue⟩)
    (FieldElement.denotes_mul hx hc2)
    (FieldElement.denotes_mul (FieldElement.denotes_mul hy hc2) hc1)
    (FieldElement.denotes_mul hz hc1) ?_
  cases hp.represents with
  | infinity hz0 => exact .infinity (by rw [hz0, zero_mul])
  | finite hz0 ex ey =>
      refine .finite (mul_ne_zero hz0 h) ?_ ?_
      · rw [ex]
        ring
      · rw [ey]
        ring

/-- Equality does not see what the coordinates are scaled by: it compares affine forms, which are
unique, and it is kept by the operations on points. -/
theorem equality_ignores_scaling :
    (∀ p : JacobianPoint, Obtained (.jacobian p) → p.Valid) ∧
    (∀ a : AffinePoint, Obtained (.affine a) → a = .identity ∨ a.OnCurve) ∧
    Equivalence (fun p q : {p : JacobianPoint // p.Valid} => (p.1 == q.1) = true) ∧
    (∀ p q : JacobianPoint, p.Valid → q.Valid →
      ((p == q) = true ↔ p.toAffine = q.toAffine) ∧
      ((p == q) = true ↔ p.affine = q.affine) ∧
      (p.isIdentity = true → ((p == q) = true ↔ q.isIdentity = true)) ∧
      (ofAffine p.toAffine == p) = true ∧
      ∀ c : FieldElement, c.Magnitude 1 → c.residue ≠ 0 →
        (p.rescale c).Valid ∧ (p.rescale c == p) = true) ∧
    (∀ a : AffinePoint, a = .identity ∨ a.OnCurve → (ofAffine a).toAffine = a) ∧
    ∀ p p' q q' : JacobianPoint, p.Valid → p'.Valid → q.Valid → q'.Valid →
      (p == p') = true → (q == q') = true →
      (p.negate == p'.negate) = true ∧ (p.endomorphism == p'.endomorphism) = true ∧
      (p.add q == p'.add q') = true ∧ (p.addVar q == p'.addVar q') = true ∧
      (p.sub q == p'.sub q') = true ∧
      (p.double == p'.double) = true ∧ (p.doubleVar == p'.doubleVar) = true ∧
      ∀ k : Scalar, k.toNat < order →
        (p.mul k == p'.mul k) = true ∧ (p.mulVar k == p'.mulVar k) = true := by
  refine ⟨fun p hp => (valid_iff p).mpr hp.denotes,
    fun a ha => (AffinePoint.exists_denotes_iff a).mp ha.denotes, beq_equivalence,
    fun p q hp hq => ⟨beq_iff_toAffine_eq hp hq, beq_iff_affine_eq hp hq,
      beq_iff_of_isIdentity hp hq, ofAffine_toAffine hp, fun c hc h => ?_⟩,
    fun a => toAffine_ofAffine, fun p p' q q' hp hp' hq hq' hpp hqq => ?_⟩
  · obtain ⟨P, hP⟩ := (valid_iff p).mp hp
    have hr := denotes_rescale hP hc h
    exact ⟨(valid_iff _).mpr ⟨P, hr⟩, beq_of_denotes hr hP⟩
  · obtain ⟨P, hP, hP'⟩ := exists_denotes_of_beq hp hp' hpp
    obtain ⟨Q, hQ, hQ'⟩ := exists_denotes_of_beq hq hq' hqq
    exact ⟨beq_of_denotes (denotes_negate hP) (denotes_negate hP'),
      beq_of_denotes (denotes_endomorphism hP) (denotes_endomorphism hP'),
      beq_of_denotes (denotes_add hP hQ) (denotes_add hP' hQ'),
      beq_of_denotes (denotes_addVar hP hQ) (denotes_addVar hP' hQ'),
      beq_of_denotes (denotes_sub hP hQ) (denotes_sub hP' hQ'),
      beq_of_denotes (denotes_double hP) (denotes_double hP'),
      beq_of_denotes (denotes_doubleVar hP) (denotes_doubleVar hP'),
      fun k hk => ⟨beq_of_denotes (denotes_mul hP hk) (denotes_mul hP' hk),
        beq_of_denotes (denotes_mulVar hP hk) (denotes_mulVar hP' hk)⟩⟩

/-- The base point over two denominators, infinity with two sets of coordinates, and the largest
scalar. -/
theorem equality_of_rescaled :
    let p := generator
    let p' := generator.double.sub generator
    let o := generator.sub generator
    p.Valid ∧ p'.Valid ∧ o.Valid ∧ Scalar.one.negate.toNat < order ∧
      (p == p') = true ∧ p.toAffine = p'.toAffine ∧ (o == identity) = true ∧
      (p.add o == p'.add identity) = true ∧
      (p.mul Scalar.one.negate == p'.mul Scalar.one.negate) = true ∧
      (ofAffine AffinePoint.generator).toAffine = AffinePoint.generator := by
  intro p p' o
  obtain ⟨hjacobian, haffine, -, hequal, hback, hkept⟩ := equality_ignores_scaling
  have hp := hjacobian p .generator
  have hp' := hjacobian p' (.sub (.double .generator) .generator)
  have ho := hjacobian o (.sub .generator .generator)
  have hi := hjacobian identity .identity
  have hpp : (p == p') = true := by
    have h := denotes_sub (denotes_double denotes_generator) denotes_generator
    rw [add_sub_cancel_right] at h
    exact beq_of_denotes denotes_generator h
  have hoi : (o == identity) = true := by
    have h := denotes_sub denotes_generator denotes_generator
    rw [sub_self] at h
    exact beq_of_denotes h denotes_identity
  have hk : Scalar.one.negate.toNat < order := by decide
  obtain ⟨-, -, hadd, -, -, -, -, hmul⟩ := hkept p p' o identity hp hp' ho hi hpp hoi
  exact ⟨hp, hp', ho, hk, hpp, (hequal p p' hp hp').1.mp hpp, hoi, hadd, (hmul _ hk).1,
    hback _ (haffine _ .affineGenerator)⟩

end JacobianPoint

end CurveKeys.Secp256k1
