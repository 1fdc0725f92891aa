import CurveKeys.Proofs.Secp256k1.Multiple

/-!
The group law as runs of public operations meet it. Every point that such a run produces is infinity
or satisfies the curve equation; on points that do, both ways to add and both ways to double give
the sum by chords and tangents, whatever the coordinates stand over.
-/

namespace CurveKeys.Secp256k1

namespace AffinePoint
open FieldElement Curve

theorem denotes_identity : identity.Denotes 0 := .infinity rfl

theorem denotes_negate {p : AffinePoint} {P : Point} (h : p.Denotes P) : p.negate.Denotes (-P) := by
  by_cases hP : P = 0
  · obtain rfl := eq_of_denotes h (hP ▸ denotes_identity)
    rw [hP, neg_zero]
    exact .infinity (by decide)
  · exact denotes_negate_affine h hP

theorem denotes_select {p q : AffinePoint} {P Q : Point} (flag : Bool) (hp : p.Denotes P)
    (hq : q.Denotes Q) : (select p q flag).Denotes (select P Q flag) :=
  select_related flag hp hq

/-- Accepted coordinates are those of a point, whatever limbs they were given in. -/
theorem exists_denotes_ofCoordinates? {x y : FieldElement} {p : AffinePoint}
    (h : ofCoordinates? x y = some p) : ∃ P, p.Denotes P := by
  have cx := (normalize_weak_spec x).1
  have cy := (normalize_weak_spec y).1
  have hidem : ofCoordinates? x.normalize y.normalize = ofCoordinates? x y := by
    rw [ofCoordinates?, normalize_eq_self cx, normalize_eq_self cy]
    rfl
  obtain ⟨e, hp⟩ := denotes_ofCoordinates? cx.denotes cy.denotes (by decide) (by decide)
    (hidem.trans h)
  exact ⟨_, hp⟩

theorem exists_denotes_decompress? {x : FieldElement} {odd : Bool} {p : AffinePoint}
    (h : decompress? x odd = some p) : ∃ P, p.Denotes P := by
  have cx := (normalize_weak_spec x).1
  have hidem : decompress? x.normalize odd = decompress? x odd := by
    rw [decompress?, normalize_eq_self cx]
    rfl
  obtain ⟨y, e, hp, -⟩ := denotes_of_decompress? cx.denotes (by decide) (hidem.trans h)
  exact ⟨_, hp⟩

end AffinePoint

section Obtained
open Scalar (order)

/-- A point in one of the forms that public operations exchange. -/
inductive PointForm where
  | affine (p : AffinePoint)
  | jacobian (p : JacobianPoint)

def PointForm.Denotes : PointForm → Curve.Point → Prop
  | affine p => p.Denotes
  | jacobian p => p.Denotes

/-- The points that runs of public operations produce. -/
inductive Obtained : PointForm → Prop where
  | affineIdentity : Obtained (.affine .identity)
  | affineGenerator : Obtained (.affine .generator)
  | ofCoordinates {x y : FieldElement} {p : AffinePoint}
      (h : AffinePoint.ofCoordinates? x y = some p) : Obtained (.affine p)
  | decompress {x : FieldElement} {odd : Bool} {p : AffinePoint}
      (h : AffinePoint.decompress? x odd = some p) : Obtained (.affine p)
  | affineNegate {p : AffinePoint} (hp : Obtained (.affine p)) : Obtained (.affine p.negate)
  | affineSelect {p q : AffinePoint} (hp : Obtained (.affine p)) (hq : Obtained (.affine q))
      (flag : Bool) : Obtained (.affine (select p q flag))
  | toAffine {p : JacobianPoint} (hp : Obtained (.jacobian p)) : Obtained (.affine p.toAffine)
  | identity : Obtained (.jacobian .identity)
  | generator : Obtained (.jacobian .generator)
  | ofAffine {p : AffinePoint} (hp : Obtained (.affine p)) : Obtained (.jacobian (.ofAffine p))
  | negate {p : JacobianPoint} (hp : Obtained (.jacobian p)) : Obtained (.jacobian p.negate)
  | endomorphism {p : JacobianPoint} (hp : Obtained (.jacobian p)) :
      Obtained (.jacobian p.endomorphism)
  | double {p : JacobianPoint} (hp : Obtained (.jacobian p)) : Obtained (.jacobian p.double)
  | doubleVar {p : JacobianPoint} (hp : Obtained (.jacobian p)) : Obtained (.jacobian p.doubleVar)
  | add {p q : JacobianPoint} (hp : Obtained (.jacobian p)) (hq : Obtained (.jacobian q)) :
      Obtained (.jacobian (p.add q))
  | addVar {p q : JacobianPoint} (hp : Obtained (.jacobian p)) (hq : Obtained (.jacobian q)) :
      Obtained (.jacobian (p.addVar q))
  | sub {p q : JacobianPoint} (hp : Obtained (.jacobian p)) (hq : Obtained (.jacobian q)) :
      Obtained (.jacobian (p.sub q))
  | mul {p : JacobianPoint} (hp : Obtained (.jacobian p)) {k : Scalar} (hk : k.toNat < order) :
      Obtained (.jacobian (p.mul k))
  | mulVar {p : JacobianPoint} (hp : Obtained (.jacobian p)) {k : Scalar} (hk : k.toNat < order) :
      Obtained (.jacobian (p.mulVar k))
  | mulBase {k : Scalar} (hk : k.toNat < order) : Obtained (.jacobian (.mulBase k))
  | mulBaseVar {k : Scalar} (hk : k.toNat < order) : Obtained (.jacobian (.mulBaseVar k))
  | select {p q : JacobianPoint} (hp : Obtained (.jacobian p)) (hq : Obtained (.jacobian q))
      (flag : Bool) : Obtained (.jacobian (select p q flag))

theorem Obtained.denotes {p : PointForm} (h : Obtained p) : ∃ P, p.Denotes P := by
  induction h with
  | affineIdentity => exact ⟨0, AffinePoint.denotes_identity⟩
  | affineGenerator => exact ⟨_, AffinePoint.denotes_generator⟩
  | ofCoordinates h => exact AffinePoint.exists_denotes_ofCoordinates? h
  | decompress h => exact AffinePoint.exists_denotes_decompress? h
  | affineNegate _ ih =>
      obtain ⟨P, hP⟩ := ih
      exact ⟨-P, AffinePoint.denotes_negate hP⟩
  | affineSelect _ _ flag ihp ihq =>
      obtain ⟨P, hP⟩ := ihp
      obtain ⟨Q, hQ⟩ := ihq
      exact ⟨_, AffinePoint.denotes_select flag hP hQ⟩
  | toAffine _ ih =>
      obtain ⟨P, hP⟩ := ih
      exact ⟨P, JacobianPoint.denotes_toAffine hP⟩
  | identity => exact ⟨0, JacobianPoint.denotes_identity⟩
  | generator => exact ⟨_, JacobianPoint.denotes_generator⟩
  | ofAffine _ ih =>
      obtain ⟨P, hP⟩ := ih
      exact ⟨P, JacobianPoint.denotes_ofAffine hP⟩
  | negate _ ih =>
      obtain ⟨P, hP⟩ := ih
      exact ⟨-P, JacobianPoint.denotes_negate hP⟩
  | endomorphism _ ih =>
      obtain ⟨P, hP⟩ := ih
      exact ⟨_, JacobianPoint.denotes_endomorphism hP⟩
  | double _ ih =>
      obtain ⟨P, hP⟩ := ih
      exact ⟨P + P, JacobianPoint.denotes_double hP⟩
  | doubleVar _ ih =>
      obtain ⟨P, hP⟩ := ih
      exact ⟨P + P, JacobianPoint.denotes_doubleVar hP⟩
  | add _ _ ihp ihq =>
      obtain ⟨P, hP⟩ := ihp
      obtain ⟨Q, hQ⟩ := ihq
      exact ⟨P + Q, JacobianPoint.denotes_add hP hQ⟩
  | addVar _ _ ihp ihq =>
      obtain ⟨P, hP⟩ := ihp
      obtain ⟨Q, hQ⟩ := ihq
      exact ⟨P + Q, JacobianPoint.denotes_addVar hP hQ⟩
  | sub _ _ ihp ihq =>
      obtain ⟨P, hP⟩ := ihp
      obtain ⟨Q, hQ⟩ := ihq
      exact ⟨P - Q, JacobianPoint.denotes_sub hP hQ⟩
  | mul _ hk ih =>
      obtain ⟨P, hP⟩ := ih
      exact ⟨_, JacobianPoint.denotes_mul hP hk⟩
  | mulVar _ hk ih =>
      obtain ⟨P, hP⟩ := ih
      exact ⟨_, JacobianPoint.denotes_mulVar hP hk⟩
  | mulBase hk => exact ⟨_, JacobianPoint.denotes_mulBase hk⟩
  | mulBaseVar hk => exact ⟨_, JacobianPoint.denotes_mulBaseVar hk⟩
  | select _ _ flag ihp ihq =>
      obtain ⟨P, hP⟩ := ihp
      obtain ⟨Q, hQ⟩ := ihq
      exact ⟨_, JacobianPoint.denotes_select flag hP hQ⟩

end Obtained

namespace JacobianPoint
open FieldElement Curve

/-- The limbs are bounded, and the coordinates are infinity or satisfy the curve equation. -/
structure Valid (p : JacobianPoint) : Prop where
  x : p.x.Magnitude 1
  y : p.y.Magnitude 1
  z : p.z.Magnitude 1
  onCurve : p.coordinates.OnCurve

theorem valid_iff (p : JacobianPoint) : p.Valid ↔ ∃ P, p.Denotes P := by
  constructor
  · rintro ⟨hx, hy, hz, hcurve⟩
    obtain ⟨P, hP⟩ := (Coordinates.exists_represents_iff _).mpr hcurve
    exact ⟨P, hx, hy, hz, hP⟩
  · rintro ⟨P, hx, hy, hz, hP⟩
    exact ⟨hx, hy, hz, (Coordinates.exists_represents_iff _).mp ⟨P, hP⟩⟩

/-- The affine coordinates, none for infinity. -/
def affine (p : JacobianPoint) : Option (ZMod prime × ZMod prime) := p.coordinates.affine

theorem affine_eq {p : JacobianPoint} {P : Point} (h : p.Denotes P) : p.affine = Curve.affine P :=
  Coordinates.affine_eq h.represents

theorem isIdentity_add_iff {p q r : JacobianPoint} {P Q : Point} (hp : p.Denotes P)
    (hq : q.Denotes Q) (hr : r.Denotes (P + Q)) :
    r.isIdentity = true ↔ p.same q.negate = true := by
  rw [isIdentity_iff hr, same_iff hp (denotes_negate hq), add_eq_zero_iff_eq_neg]

/-- Both ways to add and both ways to double are the sum by chords and tangents, for any two points
that a run can produce and over any denominators. The sum is infinity for opposite points only,
and no point but infinity is its own opposite. -/
theorem sums_agree :
    (∀ p : JacobianPoint, Obtained (.jacobian p) → p.Valid) ∧
    ∀ p q : JacobianPoint, p.Valid → q.Valid →
      ((p.add q).affine = chordTangent p.affine q.affine ∧
        (p.addVar q).affine = chordTangent p.affine q.affine ∧
        (p.add q).same (p.addVar q) = true ∧
        ((p.add q).isIdentity = true ↔ p.same q.negate = true) ∧
        ((p.addVar q).isIdentity = true ↔ p.same q.negate = true) ∧
        (p.add q).Valid ∧ (p.addVar q).Valid) ∧
      (p.double.affine = chordTangent p.affine p.affine ∧
        p.doubleVar.affine = chordTangent p.affine p.affine ∧
        p.double.same p.doubleVar = true ∧ p.doubleVar.same (p.add p) = true ∧
        (p.double.isIdentity = true ↔ p.isIdentity = true) ∧
        p.double.Valid ∧ p.doubleVar.Valid) ∧
      (q.negate.affine = q.affine.map (fun (x, y) => (x, -y)) ∧
        (p.sub q).affine = chordTangent p.affine q.negate.affine ∧
        (p.sub q).same (p.add q.negate) = true ∧
        ((p.sub q).isIdentity = true ↔ p.same q = true) ∧
        q.negate.Valid ∧ (p.sub q).Valid) ∧
      ∃ P Q : Point, p.Denotes P ∧ q.Denotes Q ∧ (p.add q).Denotes (P + Q) ∧
        (p.addVar q).Denotes (P + Q) ∧ p.double.Denotes (P + P) ∧ p.doubleVar.Denotes (P + P) ∧
        (p.sub q).Denotes (P - Q) := by
  refine ⟨fun p hp => (valid_iff p).mpr hp.denotes, fun p q hp hq => ?_⟩
  obtain ⟨P, hP⟩ := (valid_iff p).mp hp
  obtain ⟨Q, hQ⟩ := (valid_iff q).mp hq
  have hadd := denotes_add hP hQ
  have haddVar := denotes_addVar hP hQ
  have hdouble := denotes_double hP
  have hdoubleVar := denotes_doubleVar hP
  have hneg := denotes_negate hQ
  have hsub := denotes_sub hP hQ
  have valid {r : JacobianPoint} {R : Point} (hr : r.Denotes R) : r.Valid :=
    (valid_iff r).mpr ⟨R, hr⟩
  refine ⟨⟨?_, ?_, (same_iff hadd haddVar).mpr rfl, isIdentity_add_iff hP hQ hadd,
    isIdentity_add_iff hP hQ haddVar, valid hadd, valid haddVar⟩,
    ⟨?_, ?_, (same_iff hdouble hdoubleVar).mpr rfl,
      (same_iff hdoubleVar (denotes_add hP hP)).mpr rfl, ?_, valid hdouble, valid hdoubleVar⟩,
    ⟨?_, ?_, (same_iff hsub (denotes_add hP hneg)).mpr (sub_eq_add_neg P Q), ?_, valid hneg,
      valid hsub⟩,
    P, Q, hP, hQ, hadd, haddVar, hdouble, hdoubleVar, hsub⟩
  · rw [affine_eq hadd, affine_eq hP, affine_eq hQ, affine_add]
  · rw [affine_eq haddVar, affine_eq hP, affine_eq hQ, affine_add]
  · rw [affine_eq hdouble, affine_eq hP, affine_add]
  · rw [affine_eq hdoubleVar, affine_eq hP, affine_add]
  · rw [isIdentity_iff hdouble, isIdentity_iff hP, add_eq_zero_iff_eq_neg, eq_neg_iff]
  · rw [affine_eq hneg, affine_eq hQ, affine_neg]
  · rw [affine_eq hsub, affine_eq hP, affine_eq hneg, sub_eq_add_neg, affine_add]
  · rw [isIdentity_iff hsub, same_iff hP hQ, sub_eq_zero]

/-- The base point twice, over different denominators. -/
theorem sums_agree_of_rescaled :
    generator.Valid ∧ (generator.double.sub generator).Valid ∧
    (generator.add (generator.double.sub generator)).same
      (generator.addVar (generator.double.sub generator)) = true ∧
    (generator.sub (generator.double.sub generator)).isIdentity = true := by
  obtain ⟨hobtained, hlaw⟩ := sums_agree
  have hg := hobtained generator .generator
  have hr := hobtained _ (.sub (.double .generator) .generator)
  obtain ⟨⟨-, -, hadd, -⟩, -, ⟨-, -, -, hsub, -⟩, -⟩ := hlaw _ _ hg hr
  refine ⟨hg, hr, hadd, hsub.mpr ?_⟩
  have h := denotes_sub (denotes_double denotes_generator) denotes_generator
  rw [add_sub_cancel_right] at h
  exact (same_iff denotes_generator h).mpr rfl

end JacobianPoint

end CurveKeys.Secp256k1
