import CurveKeys.Proofs.Edwards25519.Curve
import CurveKeys.Edwards25519.Point.Sum

/-!
The coordinate forms of points. Each form represents a point of the curve at some scaling that is
not zero, and each operation on forms is the operation of the group, for all points alike.
-/

namespace CurveKeys.Edwards25519
open FieldElement
open Curve (constant)

theorem denotes_d : FieldElement.d.Denotes constant := by
  refine ⟨?_, rfl⟩
  constructor <;> decide

theorem denotes_twiceD : FieldElement.twiceD.Denotes (2 * constant) := by
  refine ⟨?_, by decide +kernel⟩
  constructor <;> decide

/-- Extended coordinates: the two coordinates and their product, all over `z`. -/
inductive Point.Represents (p : Point) (P : Curve.Point) : Prop where
  | scaled (z : ZMod prime) (ne : z ≠ 0) (x : p.x.Denotes (P.x * z)) (y : p.y.Denotes (P.y * z))
      (den : p.z.Denotes z) (t : p.t.Denotes (P.x * P.y * z))

inductive ProjectivePoint.Represents (p : ProjectivePoint) (P : Curve.Point) : Prop where
  | scaled (z : ZMod prime) (ne : z ≠ 0) (x : p.x.Denotes (P.x * z)) (y : p.y.Denotes (P.y * z))
      (den : p.z.Denotes z)

/-- The two coordinates have denominators of their own. -/
inductive CompletedPoint.Represents (p : CompletedPoint) (P : Curve.Point) : Prop where
  | scaled (z t : ZMod prime) (z_ne : z ≠ 0) (t_ne : t ≠ 0) (x : p.x.Denotes (P.x * z))
      (y : p.y.Denotes (P.y * t)) (denX : p.z.Denotes z) (denY : p.t.Denotes t)

inductive PreparedPoint.Represents (q : PreparedPoint) (Q : Curve.Point) : Prop where
  | scaled (z : ZMod prime) (ne : z ≠ 0) (plus : q.yPlusX.Denotes ((Q.y + Q.x) * z))
      (minus : q.yMinusX.Denotes ((Q.y - Q.x) * z)) (den : q.z.Denotes z)
      (t2d : q.t2d.Denotes (2 * constant * (Q.x * Q.y) * z))

structure PreparedAffine.Represents (q : PreparedAffine) (Q : Curve.Point) : Prop where
  plus : q.yPlusX.Denotes (Q.y + Q.x)
  minus : q.yMinusX.Denotes (Q.y - Q.x)
  t2d : q.t2d.Denotes (2 * constant * (Q.x * Q.y))

namespace Point

theorem represents_identity : identity.Represents 0 :=
  .scaled 1 one_ne_zero (denotes_congr denotes_zero (by simp))
    (denotes_congr denotes_one (by simp)) denotes_one (denotes_congr denotes_zero (by simp))

theorem represents_generator : generator.Represents Curve.base := by
  have carried (a : FieldElement) (h0 : a.l0.toNat < 0x8000000040000)
      (h1 : a.l1.toNat < 0x8000000040000) (h2 : a.l2.toNat < 0x8000000040000)
      (h3 : a.l3.toNat < 0x8000000040000) (h4 : a.l4.toNat < 0x8000000040000) : a.Carried :=
    ⟨h0, h1, h2, h3, h4⟩
  have ht : generator.t.residue = Curve.base.x * Curve.base.y := by decide +kernel
  exact .scaled 1 one_ne_zero
    ⟨carried _ (by decide) (by decide) (by decide) (by decide) (by decide), (mul_one _).symm⟩
    ⟨carried _ (by decide) (by decide) (by decide) (by decide) (by decide), (mul_one _).symm⟩
    denotes_one
    ⟨carried _ (by decide) (by decide) (by decide) (by decide) (by decide),
      ht.trans (mul_one _).symm⟩

theorem represents_negate {p : Point} {P : Curve.Point} (h : p.Represents P) :
    p.negate.Represents (-P) := by
  obtain ⟨z, hz, hx, hy, hden, ht⟩ := h
  rw [negate]
  exact .scaled z hz (denotes_congr (denotes_negate hx) (by rw [Curve.Point.neg_x]; ring)) hy hden
    (denotes_congr (denotes_negate ht) (by rw [Curve.Point.neg_x, Curve.Point.neg_y]; ring))

end Point

namespace CompletedPoint

theorem represents_toExtended {p : CompletedPoint} {P : Curve.Point} (h : p.Represents P) :
    p.toExtended.Represents P := by
  obtain ⟨z, t, hz, ht, hx, hy, hdx, hdy⟩ := h
  rw [toExtended]
  exact .scaled (z * t) (mul_ne_zero hz ht) (denotes_congr (denotes_mul hx hdy) (by ring))
    (denotes_congr (denotes_mul hy hdx) (by ring)) (denotes_mul hdx hdy)
    (denotes_congr (denotes_mul hx hy) (by ring))

theorem represents_toProjective {p : CompletedPoint} {P : Curve.Point} (h : p.Represents P) :
    p.toProjective.Represents P := by
  obtain ⟨z, t, hz, ht, hx, hy, hdx, hdy⟩ := h
  rw [toProjective]
  exact .scaled (z * t) (mul_ne_zero hz ht) (denotes_congr (denotes_mul hx hdy) (by ring))
    (denotes_congr (denotes_mul hy hdx) (by ring)) (denotes_mul hdx hdy)

/-- The sum of two points, from the numerators and denominators of the addition law. -/
theorem represents_sum {p : CompletedPoint} {P Q : Curve.Point} {k : ZMod prime} (hk : k ≠ 0)
    (hx : p.x.Denotes ((P.x * Q.y + Q.x * P.y) * k))
    (hy : p.y.Denotes ((P.y * Q.y + P.x * Q.x) * k))
    (hz : p.z.Denotes ((1 + Curve.Point.cross P Q) * k))
    (ht : p.t.Denotes ((1 - Curve.Point.cross P Q) * k)) : p.Represents (P + Q) := by
  refine .scaled _ _ (mul_ne_zero (Curve.Point.one_add_cross_ne_zero P Q) hk)
    (mul_ne_zero (Curve.Point.one_sub_cross_ne_zero P Q) hk) (denotes_congr hx ?_)
    (denotes_congr hy ?_) hz ht
  · rw [← mul_assoc, Curve.Point.add_x_mul]
  · rw [← mul_assoc, Curve.Point.add_y_mul]

end CompletedPoint

namespace ProjectivePoint

theorem represents_identity : identity.Represents 0 :=
  .scaled 1 one_ne_zero (denotes_congr denotes_zero (by simp))
    (denotes_congr denotes_one (by simp)) denotes_one

theorem represents_ofExtended {p : Point} {P : Curve.Point} (h : p.Represents P) :
    (ofExtended p).Represents P := by
  obtain ⟨z, hz, hx, hy, hden, -⟩ := h
  exact .scaled z hz hx hy hden

theorem represents_toExtended {p : ProjectivePoint} {P : Curve.Point} (h : p.Represents P) :
    p.toExtended.Represents P := by
  obtain ⟨z, hz, hx, hy, hden⟩ := h
  rw [toExtended]
  exact .scaled (z ^ 2) (pow_ne_zero 2 hz) (denotes_congr (denotes_mul hx hden) (by ring))
    (denotes_congr (denotes_mul hy hden) (by ring)) (denotes_square hden)
    (denotes_congr (denotes_mul hx hy) (by ring))

/-- The curve equation turns the denominators of a double into `y² - x²` and `2 - (y² - x²)`. -/
theorem represents_double {p : ProjectivePoint} {P : Curve.Point} (h : p.Represents P) :
    p.double.Represents (P + P) := by
  obtain ⟨z, hz, hx, hy, hden⟩ := h
  rw [double]
  have hcurve := P.onCurve
  rw [Addition.OnCurve] at hcurve
  have hxx := denotes_square hx
  have hyy := denotes_square hy
  have hzz := denotes_square hden
  have hsum := denotes_add hyy hxx
  have hdiff := denotes_sub hyy hxx
  refine CompletedPoint.represents_sum (pow_ne_zero 2 hz)
    (denotes_congr (denotes_sub (denotes_square (denotes_add hx hy)) hsum) (by ring))
    (denotes_congr hsum (by ring)) (denotes_congr hdiff ?_)
    (denotes_congr (denotes_sub (denotes_add hzz hzz) hdiff) ?_)
  · rw [Curve.Point.cross, Addition.cross]
    linear_combination z ^ 2 * hcurve
  · rw [Curve.Point.cross, Addition.cross]
    linear_combination (-z ^ 2) * hcurve

theorem represents_doubleTimes {p : ProjectivePoint} {P : Curve.Point} (h : p.Represents P)
    (k : Nat) : (p.doubleTimes k).Represents (2 ^ k • P) := by
  induction k generalizing p P with
  | zero =>
      rw [pow_zero, one_nsmul]
      exact h
  | succ k ih =>
      have hstep := ih (CompletedPoint.represents_toProjective (represents_double h))
      rw [← two_nsmul, ← mul_nsmul, ← pow_succ'] at hstep
      exact hstep

end ProjectivePoint

namespace PreparedPoint

theorem represents_identity : identity.Represents 0 :=
  .scaled 1 one_ne_zero (denotes_congr denotes_one (by simp))
    (denotes_congr denotes_one (by simp)) denotes_one (denotes_congr denotes_zero (by simp))

theorem represents_ofExtended {p : Point} {P : Curve.Point} (h : p.Represents P) :
    (ofExtended p).Represents P := by
  obtain ⟨z, hz, hx, hy, hden, ht⟩ := h
  rw [ofExtended]
  exact .scaled z hz (denotes_congr (denotes_add hy hx) (by ring))
    (denotes_congr (denotes_sub hy hx) (by ring)) hden
    (denotes_congr (denotes_mul ht denotes_twiceD) (by ring))

theorem represents_negate {q : PreparedPoint} {Q : Curve.Point} (h : q.Represents Q) :
    q.negate.Represents (-Q) := by
  obtain ⟨z, hz, hplus, hminus, hden, ht⟩ := h
  rw [negate]
  refine .scaled z hz (denotes_congr hminus ?_) (denotes_congr hplus ?_) hden
    (denotes_congr (denotes_negate ht) ?_) <;> rw [Curve.Point.neg_x, Curve.Point.neg_y] <;> ring

theorem represents_addTo {q : PreparedPoint} {p : Point} {P Q : Curve.Point}
    (hq : q.Represents Q) (hp : p.Represents P) : (q.addTo p).Represents (P + Q) := by
  rw [addTo]
  obtain ⟨w, hw, hplus, hminus, hqden, ht2d⟩ := hq
  obtain ⟨z, hz, hx, hy, hpden, ht⟩ := hp
  have hpp := denotes_mul (denotes_add hy hx) hplus
  have hmm := denotes_mul (denotes_sub hy hx) hminus
  have htt := denotes_mul ht ht2d
  have hzz := denotes_mul hpden hqden
  have hzz2 := denotes_add hzz hzz
  refine CompletedPoint.represents_sum (k := 2 * (z * w))
    (mul_ne_zero Curve.two_ne_zero (mul_ne_zero hz hw))
    (denotes_congr (denotes_sub hpp hmm) (by ring)) (denotes_congr (denotes_add hpp hmm) (by ring))
    (denotes_congr (denotes_add hzz2 htt) ?_) (denotes_congr (denotes_sub hzz2 htt) ?_) <;>
  · rw [Curve.Point.cross, Addition.cross]
    ring

theorem represents_subFrom {q : PreparedPoint} {p : Point} {P Q : Curve.Point}
    (hq : q.Represents Q) (hp : p.Represents P) : (q.subFrom p).Represents (P - Q) := by
  obtain ⟨w, hw, hplus, hminus, hqden, ht2d⟩ := hq
  obtain ⟨z, hz, hx, hy, hpden, ht⟩ := hp
  have hpp := denotes_mul (denotes_add hy hx) hminus
  have hmm := denotes_mul (denotes_sub hy hx) hplus
  have htt := denotes_mul ht ht2d
  have hzz := denotes_mul hpden hqden
  have hzz2 := denotes_add hzz hzz
  rw [sub_eq_add_neg, subFrom]
  refine CompletedPoint.represents_sum (k := 2 * (z * w))
    (mul_ne_zero Curve.two_ne_zero (mul_ne_zero hz hw))
    (denotes_congr (denotes_sub hpp hmm) ?_) (denotes_congr (denotes_add hpp hmm) ?_)
    (denotes_congr (denotes_sub hzz2 htt) ?_) (denotes_congr (denotes_add hzz2 htt) ?_) <;>
  · simp only [Curve.Point.cross, Addition.cross, Curve.Point.neg_x, Curve.Point.neg_y]
    ring

end PreparedPoint

namespace PreparedAffine

theorem represents_identity : identity.Represents 0 :=
  ⟨denotes_congr denotes_one (by simp), denotes_congr denotes_one (by simp),
    denotes_congr denotes_zero (by simp)⟩

/-- The scaling of the extended coordinates is divided out. -/
theorem represents_ofExtended {p : Point} {P : Curve.Point} (h : p.Represents P) :
    (ofExtended p).Represents P := by
  obtain ⟨z, hz, hx, hy, hden, ht⟩ := h
  have hinv := denotes_invert hden
  have hcancel : z * z⁻¹ = 1 := mul_inv_cancel₀ hz
  rw [ofExtended]
  exact ⟨denotes_congr (denotes_mul (denotes_add hy hx) hinv)
      (by linear_combination (P.y + P.x) * hcancel),
    denotes_congr (denotes_mul (denotes_sub hy hx) hinv)
      (by linear_combination (P.y - P.x) * hcancel),
    denotes_congr (denotes_mul (denotes_mul ht denotes_twiceD) hinv)
      (by linear_combination 2 * constant * (P.x * P.y) * hcancel)⟩

theorem represents_negate {q : PreparedAffine} {Q : Curve.Point} (h : q.Represents Q) :
    q.negate.Represents (-Q) := by
  obtain ⟨hplus, hminus, ht⟩ := h
  rw [negate]
  refine ⟨denotes_congr hminus ?_, denotes_congr hplus ?_, denotes_congr (denotes_negate ht) ?_⟩ <;>
    rw [Curve.Point.neg_x, Curve.Point.neg_y] <;> ring

theorem represents_addTo {q : PreparedAffine} {p : Point} {P Q : Curve.Point}
    (hq : q.Represents Q) (hp : p.Represents P) : (q.addTo p).Represents (P + Q) := by
  obtain ⟨hplus, hminus, ht2d⟩ := hq
  obtain ⟨z, hz, hx, hy, hden, ht⟩ := hp
  have hpp := denotes_mul (denotes_add hy hx) hplus
  have hmm := denotes_mul (denotes_sub hy hx) hminus
  have htt := denotes_mul ht ht2d
  have hz2 := denotes_add hden hden
  rw [addTo]
  refine CompletedPoint.represents_sum (k := 2 * z) (mul_ne_zero Curve.two_ne_zero hz)
    (denotes_congr (denotes_sub hpp hmm) (by ring)) (denotes_congr (denotes_add hpp hmm) (by ring))
    (denotes_congr (denotes_add hz2 htt) ?_) (denotes_congr (denotes_sub hz2 htt) ?_) <;>
  · rw [Curve.Point.cross, Addition.cross]
    ring

theorem represents_subFrom {q : PreparedAffine} {p : Point} {P Q : Curve.Point}
    (hq : q.Represents Q) (hp : p.Represents P) : (q.subFrom p).Represents (P - Q) := by
  obtain ⟨hplus, hminus, ht2d⟩ := hq
  obtain ⟨z, hz, hx, hy, hden, ht⟩ := hp
  have hpp := denotes_mul (denotes_add hy hx) hminus
  have hmm := denotes_mul (denotes_sub hy hx) hplus
  have htt := denotes_mul ht ht2d
  have hz2 := denotes_add hden hden
  rw [sub_eq_add_neg, subFrom]
  refine CompletedPoint.represents_sum (k := 2 * z) (mul_ne_zero Curve.two_ne_zero hz)
    (denotes_congr (denotes_sub hpp hmm) ?_) (denotes_congr (denotes_add hpp hmm) ?_)
    (denotes_congr (denotes_sub hz2 htt) ?_) (denotes_congr (denotes_add hz2 htt) ?_) <;>
  · simp only [Curve.Point.cross, Addition.cross, Curve.Point.neg_x, Curve.Point.neg_y]
    ring

end PreparedAffine

namespace Point

theorem represents_add {p q : Point} {P Q : Curve.Point} (hp : p.Represents P)
    (hq : q.Represents Q) : (p.add q).Represents (P + Q) :=
  CompletedPoint.represents_toExtended
    (PreparedPoint.represents_addTo (PreparedPoint.represents_ofExtended hq) hp)

theorem represents_sub {p q : Point} {P Q : Curve.Point} (hp : p.Represents P)
    (hq : q.Represents Q) : (p.sub q).Represents (P - Q) :=
  CompletedPoint.represents_toExtended
    (PreparedPoint.represents_subFrom (PreparedPoint.represents_ofExtended hq) hp)

theorem represents_double {p : Point} {P : Curve.Point} (h : p.Represents P) :
    p.double.Represents (P + P) :=
  CompletedPoint.represents_toExtended
    (ProjectivePoint.represents_double (ProjectivePoint.represents_ofExtended h))

theorem represents_select {p q : Point} {P Q : Curve.Point} (flag : Bool) (hp : p.Represents P)
    (hq : q.Represents Q) : (select p q flag).Represents (select P Q flag) :=
  select_related flag hp hq

/-- Neither scaling vanishes, so the cross-multiplied coordinates decide equality. -/
theorem same_iff {p q : Point} {P Q : Curve.Point} (hp : p.Represents P) (hq : q.Represents Q) :
    p.same q = true ↔ P = Q := by
  obtain ⟨z, hz, hpx, hpy, hpz, -⟩ := hp
  obtain ⟨w, hw, hqx, hqy, hqz, -⟩ := hq
  have hzw : z * w ≠ 0 := mul_ne_zero hz hw
  have cancel (u v : ZMod prime) : u * z * w = v * w * z ↔ u = v := by
    rw [mul_assoc, mul_assoc, mul_comm w z]
    exact mul_left_inj' hzw
  rw [same, Bool.and_eq_true, beq_iff (denotes_mul hpx hqz).residue (denotes_mul hqx hpz).residue,
    beq_iff (denotes_mul hpy hqz).residue (denotes_mul hqy hpz).residue, cancel, cancel,
    Curve.Point.ext_iff]

end Point

end CurveKeys.Edwards25519
