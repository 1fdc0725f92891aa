import CurveKeys.Proofs.Secp256k1.Field.Power
import CurveKeys.Proofs.Secp256k1.Order
import CurveKeys.Secp256k1.Point.Jacobian

/-!
Points in limbs. A triple of limb lists denotes a point of the curve when its coordinates have
magnitude 1 and represent the point; every operation takes denotations to denotations.
-/

namespace CurveKeys.Secp256k1.JacobianPoint
open FieldElement Curve

def coordinates (p : JacobianPoint) : Coordinates := ⟨p.x.residue, p.y.residue, p.z.residue⟩

/-- The triple stands for a point of the curve. -/
structure Denotes (p : JacobianPoint) (P : Point) : Prop where
  x : p.x.Magnitude 1
  y : p.y.Magnitude 1
  z : p.z.Magnitude 1
  represents : p.coordinates.Represents P

theorem denotes_of_coordinates {p : JacobianPoint} {c : Coordinates} {P : Point}
    (hx : p.x.Denotes 1 c.x) (hy : p.y.Denotes 1 c.y) (hz : p.z.Denotes 1 c.z)
    (hc : c.Represents P) : p.Denotes P := by
  refine ⟨hx.magnitude, hy.magnitude, hz.magnitude, ?_⟩
  rw [coordinates, hx.residue, hy.residue, hz.residue]
  exact hc

theorem denotes_identity : identity.Denotes 0 :=
  denotes_of_coordinates (c := ⟨0, 1, 0⟩) denotes_zero denotes_one denotes_zero (.infinity rfl)

theorem isIdentity_iff {p : JacobianPoint} {P : Point} (h : p.Denotes P) :
    p.isIdentity = true ↔ P = 0 := by
  rw [← Coordinates.z_eq_zero_iff h.represents]
  exact isZeroResidue_iff ⟨h.z, rfl⟩ (by decide)

/-- The triple has magnitude 1 and these residues. -/
structure Holds (p : JacobianPoint) (c : Coordinates) : Prop where
  x : p.x.Denotes 1 c.x
  y : p.y.Denotes 1 c.y
  z : p.z.Denotes 1 c.z

theorem holds_coordinates {p : JacobianPoint} {P : Point} (h : p.Denotes P) :
    p.Holds p.coordinates :=
  ⟨⟨h.x, rfl⟩, ⟨h.y, rfl⟩, ⟨h.z, rfl⟩⟩

theorem denotes_double {p : JacobianPoint} {P : Point} (h : p.Denotes P) :
    p.double.Denotes (P + P) := by
  obtain ⟨hx, hy, hz⟩ := holds_coordinates h
  have hrep := Coordinates.represents_double h.represents
  generalize p.coordinates = t at hx hy hz hrep
  unfold double
  extract_lets a b c cross d e f x y z
  have ha : a.Denotes 1 (t.x ^ 2) := denotes_square hx
  have hb : b.Denotes 1 (t.y ^ 2) := denotes_square hy
  have hc : c.Denotes 1 ((t.y ^ 2) ^ 2) := denotes_square hb
  have hcross : cross.Denotes 5 (2 * t.x * t.y ^ 2) :=
    denotes_congr (denotes_add (denotes_add (denotes_square (denotes_add hx hb))
      (denotes_negate 1 ha)) (denotes_negate 1 hc)) (by ring)
  have hd : d.Denotes 2 (4 * t.x * t.y ^ 2) :=
    denotes_congr (FieldElement.denotes_double (denotes_normalizeWeak hcross)) (by ring)
  have he : e.Denotes 3 (3 * t.x ^ 2) :=
    denotes_congr (denotes_mulInt 3 ha) (by push_cast; ring)
  have hf : f.Denotes 1 ((3 * t.x ^ 2) ^ 2) := denotes_square he
  have hx' : x.Denotes 1 (Coordinates.double t).x :=
    denotes_congr (denotes_normalizeWeak (denotes_add hf
      (denotes_negate 4 (FieldElement.denotes_double hd)))) (by rw [Coordinates.double]; ring)
  have hy' : y.Denotes 1 (Coordinates.double t).y :=
    denotes_congr (denotes_normalizeWeak (denotes_add
      (denotes_mul he (denotes_add hd (denotes_negate 1 hx')))
      (denotes_negate 8 (denotes_mulInt 8 hc))))
      (by simp only [Coordinates.double]; push_cast; ring)
  have hz' : z.Denotes 1 (Coordinates.double t).z :=
    denotes_congr (denotes_normalizeWeak (FieldElement.denotes_double (denotes_mul hy hz)))
      (by rw [Coordinates.double]; ring)
  exact denotes_of_coordinates hx' hy' hz' hrep

theorem denotes_doubleVar {p : JacobianPoint} {P : Point} (h : p.Denotes P) :
    p.doubleVar.Denotes (P + P) := by
  rw [doubleVar]
  split
  · next hz =>
      rw [(isIdentity_iff h).mp hz, add_zero]
      exact denotes_identity
  · exact denotes_double h

theorem holds_addFormula {p q : JacobianPoint} {s t : Coordinates} (hp : p.Holds s)
    (hq : q.Holds t) :
    (addFormula p q).1.Holds (s.chord t) ∧
      ((addFormula p q).2.1 = true ↔ s.differenceX t = 0) ∧
      ((addFormula p q).2.2 = true ↔ s.differenceY t = 0) := by
  obtain ⟨hpx, hpy, hpz⟩ := hp
  obtain ⟨hqx, hqy, hqz⟩ := hq
  unfold addFormula
  extract_lets z1z1 z2z2 u1 u2 s1 s2 h rHalf i j r v x y z
  have hz1 : z1z1.Denotes 1 (s.z ^ 2) := denotes_square hpz
  have hz2 : z2z2.Denotes 1 (t.z ^ 2) := denotes_square hqz
  have hu1 : u1.Denotes 1 (s.x * t.z ^ 2) := denotes_mul hpx hz2
  have hu2 : u2.Denotes 1 (t.x * s.z ^ 2) := denotes_mul hqx hz1
  have hs1 : s1.Denotes 1 (s.y * t.z ^ 3) :=
    denotes_congr (denotes_mul (denotes_mul hpy hqz) hz2) (by ring)
  have hs2 : s2.Denotes 1 (t.y * s.z ^ 3) :=
    denotes_congr (denotes_mul (denotes_mul hqy hpz) hz1) (by ring)
  have hh : h.Denotes 3 (s.differenceX t) :=
    denotes_congr (denotes_add hu2 (denotes_negate 1 hu1)) (by rw [Coordinates.differenceX]; ring)
  have hrHalf : rHalf.Denotes 3 (s.differenceY t) :=
    denotes_congr (denotes_add hs2 (denotes_negate 1 hs1)) (by rw [Coordinates.differenceY]; ring)
  have hi : i.Denotes 1 (4 * s.differenceX t ^ 2) :=
    denotes_congr (denotes_square (FieldElement.denotes_double hh)) (by ring)
  have hj : j.Denotes 1 (4 * s.differenceX t ^ 3) :=
    denotes_congr (denotes_mul hh hi) (by ring)
  have hr : r.Denotes 6 (2 * s.differenceY t) := FieldElement.denotes_double hrHalf
  have hv : v.Denotes 1 (s.x * t.z ^ 2 * (4 * s.differenceX t ^ 2)) :=
    denotes_mul hu1 hi
  have hx : x.Denotes 1 (s.chord t).x :=
    denotes_congr (denotes_normalizeWeak (denotes_add
      (denotes_add (denotes_square hr) (denotes_negate 1 hj))
      (denotes_negate 2 (FieldElement.denotes_double hv)))) (by rw [Coordinates.chord]; ring)
  have hy : y.Denotes 1 (s.chord t).y :=
    denotes_congr (denotes_normalizeWeak (denotes_add
      (denotes_mul hr (denotes_add hv (denotes_negate 1 hx)))
      (denotes_negate 2 (FieldElement.denotes_double (denotes_mul hs1 hj)))))
      (by simp only [Coordinates.chord]; ring)
  have hz : z.Denotes 1 (s.chord t).z :=
    denotes_congr (denotes_mul (denotes_add (denotes_add (denotes_square (denotes_add hpz hqz))
      (denotes_negate 1 hz1)) (denotes_negate 1 hz2)) hh)
      (by rw [Coordinates.chord]; ring)
  exact ⟨⟨hx, hy, hz⟩, isZeroResidue_iff hh, isZeroResidue_iff hrHalf⟩

theorem denotes_of_holds {p : JacobianPoint} {c : Coordinates} {P : Point} (h : p.Holds c)
    (hc : c.Represents P) : p.Denotes P :=
  denotes_of_coordinates h.x h.y h.z hc

/-- The generic formulas on two points other than infinity: both differences vanish for equal points
only, the first one alone for opposite points, and unless both do the formulas give the sum. -/
theorem denotes_addFormula {p q : JacobianPoint} {P Q : Point} (hp : p.Denotes P)
    (hq : q.Denotes Q) (hP : P ≠ 0) (hQ : Q ≠ 0) :
    ((addFormula p q).2.1 = true ∧ (addFormula p q).2.2 = true ↔ P = Q) ∧
      ((addFormula p q).2.1 = true → (addFormula p q).2.2 ≠ true → P + Q = 0) ∧
      (¬((addFormula p q).2.1 = true ∧ (addFormula p q).2.2 = true) →
        (addFormula p q).1.Denotes (P + Q)) := by
  obtain ⟨hsum, hsameX, hsameY⟩ := holds_addFormula (holds_coordinates hp) (holds_coordinates hq)
  rw [hsameX, hsameY]
  have hopposite := Coordinates.add_eq_zero_of_differences hp.represents hq.represents hP hQ
  refine ⟨(Coordinates.eq_iff_differences hp.represents hq.represents hP hQ).symm,
    fun hx hy => hopposite hx fun h => hy (hsameY.mpr h), fun hne => denotes_of_holds hsum ?_⟩
  by_cases hx : p.coordinates.differenceX q.coordinates = 0
  · rw [hopposite hx fun hy => hne ⟨hx, hy⟩]
    exact .infinity (by rw [Coordinates.chord, hx, mul_zero])
  · have hsz := fun h => hP ((Coordinates.z_eq_zero_iff hp.represents).mp h)
    have htz := fun h => hQ ((Coordinates.z_eq_zero_iff hq.represents).mp h)
    exact Coordinates.represents_chord hp.represents hq.represents hsz htz hx

theorem denotes_add {p q : JacobianPoint} {P Q : Point} (hp : p.Denotes P) (hq : q.Denotes Q) :
    (p.add q).Denotes (P + Q) := by
  have hpi := isIdentity_iff hp
  have hqi := isIdentity_iff hq
  have hformula := denotes_addFormula hp hq
  unfold add
  generalize addFormula p q = f at hformula
  obtain ⟨sum, sameX, sameY⟩ := f
  simp only at hformula ⊢
  by_cases hQ : Q = 0
  · rw [hqi.mpr hQ, hQ, add_zero]
    exact hp
  · rw [Bool.eq_false_iff.mpr fun h => hQ (hqi.mp h)]
    by_cases hP : P = 0
    · rw [hpi.mpr hP, hP, zero_add]
      exact hq
    · rw [Bool.eq_false_iff.mpr fun h => hP (hpi.mp h)]
      obtain ⟨hsame, -, hsum⟩ := hformula hP hQ
      rw [← Bool.and_eq_true] at hsame hsum
      cases hboth : sameX && sameY with
      | true =>
          rw [← hsame.mp hboth]
          exact denotes_double hp
      | false => exact hsum (Bool.eq_false_iff.mp hboth)

theorem denotes_addVar {p q : JacobianPoint} {P Q : Point} (hp : p.Denotes P)
    (hq : q.Denotes Q) : (p.addVar q).Denotes (P + Q) := by
  have hpi := isIdentity_iff hp
  have hqi := isIdentity_iff hq
  have hformula := denotes_addFormula hp hq
  unfold addVar
  generalize addFormula p q = f at hformula
  obtain ⟨sum, sameX, sameY⟩ := f
  simp only at hformula ⊢
  split
  · next h =>
      rw [hpi.mp h, zero_add]
      exact hq
  · next hP =>
      split
      · next h =>
          rw [hqi.mp h, add_zero]
          exact hp
      · next hQ =>
          obtain ⟨hsame, hopposite, hsum⟩ :=
            hformula (fun e => hP (hpi.mpr e)) fun e => hQ (hqi.mpr e)
          split
          · next hx =>
              split
              · next hy =>
                  rw [← hsame.mp ⟨hx, hy⟩]
                  exact denotes_double hp
              · next hy =>
                  rw [hopposite hx hy]
                  exact denotes_identity
          · next hx => exact hsum fun h => hx h.1

theorem denotes_negate {p : JacobianPoint} {P : Point} (h : p.Denotes P) :
    p.negate.Denotes (-P) := by
  obtain ⟨hx, hy, hz⟩ := holds_coordinates h
  have hy' := denotes_normalizeWeak (FieldElement.denotes_negate 1 hy)
  unfold negate
  exact denotes_of_coordinates (c := ⟨p.coordinates.x, -p.coordinates.y, p.coordinates.z⟩) hx hy' hz
    (Coordinates.represents_neg h.represents)

theorem denotes_sub {p q : JacobianPoint} {P Q : Point} (hp : p.Denotes P) (hq : q.Denotes Q) :
    (p.sub q).Denotes (P - Q) := by
  rw [sub_eq_add_neg]
  exact denotes_add hp (denotes_negate hq)

theorem denotes_beta : beta.Denotes 1 Curve.beta := by
  have hv : beta.toNat =
      0x7AE96A2B657C07106E64479EAC3434E99CF0497512F58995C1396C28719501EE := by decide
  refine ⟨by constructor <;> decide, ?_⟩
  rw [residue, hv, Curve.beta, Nat.cast_ofNat]

theorem denotes_endomorphism {p : JacobianPoint} {P : Point} (h : p.Denotes P) :
    p.endomorphism.Denotes (Curve.endomorphism P) := by
  obtain ⟨hx, hy, hz⟩ := holds_coordinates h
  have hx' := denotes_mul hx denotes_beta
  unfold endomorphism
  exact denotes_of_coordinates (c := ⟨p.coordinates.x * Curve.beta, p.coordinates.y,
    p.coordinates.z⟩) hx' hy hz (represents_endomorphism h.represents)

theorem denotes_select {p q : JacobianPoint} {P Q : Point} (flag : Bool) (hp : p.Denotes P)
    (hq : q.Denotes Q) : (select p q flag).Denotes (select P Q flag) :=
  select_related flag hp hq

theorem same_iff {p q : JacobianPoint} {P Q : Point} (hp : p.Denotes P) (hq : q.Denotes Q) :
    p.same q = true ↔ P = Q := by
  have hpi := isIdentity_iff hp
  have hqi := isIdentity_iff hq
  obtain ⟨hpx, hpy, hpz⟩ := holds_coordinates hp
  obtain ⟨hqx, hqy, hqz⟩ := holds_coordinates hq
  unfold same
  extract_lets z1z1 z2z2 x1 x2 y1 y2 sameX sameY
  have hz1 : z1z1.Denotes 1 (p.coordinates.z ^ 2) := denotes_square hpz
  have hz2 : z2z2.Denotes 1 (q.coordinates.z ^ 2) := denotes_square hqz
  have hx1 : x1.Denotes 1 _ := denotes_mul hpx hz2
  have hx2 : x2.Denotes 1 _ := denotes_mul hqx hz1
  have hy1 : y1.Denotes 1 _ := denotes_mul (denotes_mul hpy hz2) hqz
  have hy2 : y2.Denotes 1 _ := denotes_mul (denotes_mul hqy hz1) hpz
  have hX : sameX = true ↔ p.coordinates.differenceX q.coordinates = 0 := by
    have h := isZeroResidue_iff (FieldElement.denotes_add (FieldElement.denotes_negate 1 hx1) hx2)
    rw [neg_add_eq_sub] at h
    exact h
  have hY : sameY = true ↔ p.coordinates.differenceY q.coordinates = 0 := by
    have h := isZeroResidue_iff (FieldElement.denotes_add (FieldElement.denotes_negate 1 hy1) hy2)
    rw [neg_add_eq_sub, mul_assoc, mul_assoc, ← pow_succ, ← pow_succ] at h
    exact h
  simp only [Bool.or_eq_true, Bool.and_eq_true, Bool.not_eq_true', ← Bool.not_eq_true, hX, hY, hpi,
    hqi]
  exact Coordinates.both_infinity_or_no_difference_iff hp.represents hq.represents

end CurveKeys.Secp256k1.JacobianPoint
