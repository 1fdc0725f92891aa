import CurveKeys.Proofs.Edwards25519.Encoding
import CurveKeys.Proofs.Edwards25519.Multiple

/-!
The group of points as runs of public operations meet it. Every point that such a run produces
satisfies the equations of extended coordinates; on points that do, the operations are the affine
addition law without exceptions, and the three ways to multiply are repeated addition.
-/

namespace CurveKeys.Edwards25519.Point
open FieldElement
open Curve (constant base)
open Limbs (order)

section Coordinates

/-- The affine coordinates. -/
def affine (p : Point) : ZMod prime × ZMod prime :=
  (p.x.residue / p.z.residue, p.y.residue / p.z.residue)

/-- The limbs are bounded, and the coordinates satisfy the equations of the extended form. -/
structure Valid (p : Point) : Prop where
  x : p.x.Carried
  y : p.y.Carried
  z : p.z.Carried
  t : p.t.Carried
  z_ne_zero : p.z.residue ≠ 0
  product : p.x.residue * p.y.residue = p.z.residue * p.t.residue
  curve : -p.x.residue ^ 2 * p.z.residue ^ 2 + p.y.residue ^ 2 * p.z.residue ^ 2 =
    p.z.residue ^ 4 + constant * p.x.residue ^ 2 * p.y.residue ^ 2

theorem affine_eq {p : Point} {P : Curve.Point} (h : p.Represents P) : p.affine = (P.x, P.y) := by
  obtain ⟨z, hz, hx, hy, hden, -⟩ := h
  rw [affine, hx.residue, hy.residue, hden.residue, mul_div_cancel_right₀ _ hz,
    mul_div_cancel_right₀ _ hz]

theorem valid_of_represents {p : Point} {P : Curve.Point} (h : p.Represents P) : p.Valid := by
  obtain ⟨z, hz, hx, hy, hden, ht⟩ := h
  have hcurve := P.onCurve
  rw [Addition.OnCurve] at hcurve
  refine ⟨hx.carried, hy.carried, hden.carried, ht.carried, ?_, ?_, ?_⟩
  · rw [hden.residue]
    exact hz
  · rw [hx.residue, hy.residue, hden.residue, ht.residue]
    ring
  · rw [hx.residue, hy.residue, hden.residue]
    linear_combination z ^ 4 * hcurve

theorem Valid.represents {p : Point} (h : p.Valid) : ∃ P, p.Represents P := by
  obtain ⟨hx, hy, hz, ht, hne, hproduct, hcurve⟩ := h
  have honCurve : Addition.OnCurve constant (p.x.residue / p.z.residue)
      (p.y.residue / p.z.residue) := by
    rw [Addition.OnCurve]
    field_simp
    linear_combination hcurve
  refine ⟨⟨_, _, honCurve⟩, .scaled p.z.residue hne ⟨hx, ?_⟩ ⟨hy, ?_⟩ ⟨hz, rfl⟩ ⟨ht, ?_⟩⟩
  · rw [div_mul_cancel₀ _ hne]
  · rw [div_mul_cancel₀ _ hne]
  · field_simp
    linear_combination -hproduct

theorem affine_add {p q : Point} {P Q : Curve.Point} (hp : p.Represents P) (hq : q.Represents Q) :
    (p.add q).affine = ((P.x * Q.y + Q.x * P.y) / (1 + constant * P.x * Q.x * P.y * Q.y),
      (P.y * Q.y + P.x * Q.x) / (1 - constant * P.x * Q.x * P.y * Q.y)) :=
  affine_eq (represents_add hp hq)

theorem affine_sub {p q : Point} {P Q : Curve.Point} (hp : p.Represents P) (hq : q.Represents Q) :
    (p.sub q).affine = ((P.x * Q.y - Q.x * P.y) / (1 - constant * P.x * Q.x * P.y * Q.y),
      (P.y * Q.y - P.x * Q.x) / (1 + constant * P.x * Q.x * P.y * Q.y)) := by
  have h := represents_sub hp hq
  rw [sub_eq_add_neg] at h
  refine (affine_eq h).trans ?_
  change (Addition.sumX constant P.x P.y (-Q.x) Q.y, Addition.sumY constant P.x P.y (-Q.x) Q.y) = _
  rw [Addition.sumX, Addition.sumY, Addition.cross]
  ring_nf

end Coordinates

/-- The points that runs of public operations produce. -/
inductive Obtained : Point → Prop where
  | identity : Obtained identity
  | generator : Obtained generator
  | read {b : Vector UInt8 32} {p : Point} (h : ofBytes b = .ok p) : Obtained p
  | add {p q : Point} (hp : Obtained p) (hq : Obtained q) : Obtained (p.add q)
  | sub {p q : Point} (hp : Obtained p) (hq : Obtained q) : Obtained (p.sub q)
  | negate {p : Point} (hp : Obtained p) : Obtained p.negate
  | double {p : Point} (hp : Obtained p) : Obtained p.double
  | mul {p : Point} (hp : Obtained p) {k : Scalar} (hk : k.toNat < order) : Obtained (p.mul k)
  | mulBase {k : Scalar} (hk : k.toNat < order) : Obtained (mulBase k)
  | doubleMulBase {p : Point} (hp : Obtained p) {a b : Scalar} (ha : a.toNat < order)
      (hb : b.toNat < order) : Obtained (doubleMulBase a p b)
  | select {p q : Point} (hp : Obtained p) (hq : Obtained q) (flag : Bool) :
      Obtained (select p q flag)

theorem Obtained.represents {p : Point} (h : p.Obtained) : ∃ P, p.Represents P := by
  have order_lt : order < 2 ^ 255 := by decide
  induction h with
  | identity => exact ⟨0, represents_identity⟩
  | generator => exact ⟨base, represents_generator⟩
  | read h =>
      obtain ⟨P, hP, -⟩ := represents_of_ofBytes h
      exact ⟨P, hP⟩
  | add _ _ ihp ihq =>
      obtain ⟨P, hP⟩ := ihp
      obtain ⟨Q, hQ⟩ := ihq
      exact ⟨P + Q, represents_add hP hQ⟩
  | sub _ _ ihp ihq =>
      obtain ⟨P, hP⟩ := ihp
      obtain ⟨Q, hQ⟩ := ihq
      exact ⟨P - Q, represents_sub hP hQ⟩
  | negate _ ih =>
      obtain ⟨P, hP⟩ := ih
      exact ⟨-P, represents_negate hP⟩
  | double _ ih =>
      obtain ⟨P, hP⟩ := ih
      exact ⟨P + P, represents_double hP⟩
  | mul _ hk ih =>
      obtain ⟨P, hP⟩ := ih
      exact ⟨_, represents_mul hP (hk.trans order_lt)⟩
  | mulBase hk => exact ⟨_, represents_mulBase (hk.trans order_lt)⟩
  | doubleMulBase _ ha hb ih =>
      obtain ⟨P, hP⟩ := ih
      exact ⟨_, represents_doubleMulBase hP (ha.trans order_lt).le (hb.trans order_lt).le⟩
  | select _ _ flag ihp ihq =>
      obtain ⟨P, hP⟩ := ihp
      obtain ⟨Q, hQ⟩ := ihq
      exact ⟨_, represents_select flag hP hQ⟩

theorem Obtained.valid {p : Point} (h : p.Obtained) : p.Valid := by
  obtain ⟨P, hP⟩ := h.represents
  exact valid_of_represents hP

/-- No run leaves the curve, and on any two of its points the operations are the affine addition
law, whose denominators never vanish. -/
theorem addition_complete :
    (∀ p : Point, p.Obtained → p.Valid) ∧
    ∀ p q : Point, p.Valid → q.Valid →
      let x₁ := p.affine.1
      let y₁ := p.affine.2
      let x₂ := q.affine.1
      let y₂ := q.affine.2
      1 + constant * x₁ * x₂ * y₁ * y₂ ≠ 0 ∧ 1 - constant * x₁ * x₂ * y₁ * y₂ ≠ 0 ∧
      (p.add q).affine = ((x₁ * y₂ + x₂ * y₁) / (1 + constant * x₁ * x₂ * y₁ * y₂),
        (y₁ * y₂ + x₁ * x₂) / (1 - constant * x₁ * x₂ * y₁ * y₂)) ∧
      (p.sub q).affine = ((x₁ * y₂ - x₂ * y₁) / (1 - constant * x₁ * x₂ * y₁ * y₂),
        (y₁ * y₂ - x₁ * x₂) / (1 + constant * x₁ * x₂ * y₁ * y₂)) ∧
      p.double.affine = ((x₁ * y₁ + x₁ * y₁) / (1 + constant * x₁ * x₁ * y₁ * y₁),
        (y₁ * y₁ + x₁ * x₁) / (1 - constant * x₁ * x₁ * y₁ * y₁)) ∧
      p.negate.affine = (-x₁, y₁) ∧
      (p.add q).Valid ∧ (p.sub q).Valid ∧ p.double.Valid ∧ p.negate.Valid := by
  refine ⟨fun p hp => hp.valid, fun p q hp hq => ?_⟩
  obtain ⟨P, hP⟩ := hp.represents
  obtain ⟨Q, hQ⟩ := hq.represents
  rw [affine_eq hP, affine_eq hQ]
  exact ⟨Curve.Point.one_add_cross_ne_zero P Q, Curve.Point.one_sub_cross_ne_zero P Q,
    affine_add hP hQ, affine_sub hP hQ, affine_eq (represents_double hP),
    affine_eq (represents_negate hP), valid_of_represents (represents_add hP hQ),
    valid_of_represents (represents_sub hP hQ), valid_of_represents (represents_double hP),
    valid_of_represents (represents_negate hP)⟩

/-- The sum of opposite points is the neutral one. -/
theorem addition_opposite : generator.Valid ∧ generator.negate.Valid ∧
    (generator.add generator.negate).affine = (0, 1) := by
  obtain ⟨hobtained, hlaw⟩ := addition_complete
  have hg := hobtained generator .generator
  have hn := hobtained generator.negate (.negate .generator)
  obtain ⟨-, hne, hadd, -⟩ := hlaw _ _ hg hn
  have hcurve := base.onCurve
  rw [Addition.OnCurve] at hcurve
  rw [affine_eq represents_generator, affine_eq (represents_negate represents_generator),
    Curve.Point.neg_x, Curve.Point.neg_y] at hne hadd
  refine ⟨hg, hn, hadd.trans (Prod.ext ?_ ?_)⟩
  · exact div_eq_zero_iff.mpr (Or.inl (by ring))
  · exact (div_eq_one_iff_eq hne).mpr (by linear_combination hcurve)

section Repeated

/-- The point added up a number of times. -/
def repeated (p : Point) : Nat → Point
  | 0 => identity
  | n + 1 => (p.repeated n).add p

theorem represents_repeated {p : Point} {P : Curve.Point} (h : p.Represents P) (n : Nat) :
    (p.repeated n).Represents (n • P) := by
  induction n with
  | zero =>
      rw [zero_nsmul]
      exact represents_identity
  | succ n ih =>
      rw [succ_nsmul]
      exact represents_add ih h

/-- Every way to multiply gives what adding up gives, for points of any order. -/
theorem multiples_repeat_addition {p : Point} (hp : p.Obtained) {a b : Scalar}
    (ha : a.toNat < order) (hb : b.toNat < order) :
    (p.mul a).same (p.repeated a.toNat) = true ∧
    (mulBase b).same (generator.repeated b.toNat) = true ∧
    (doubleMulBase a p b).same ((p.repeated a.toNat).add (generator.repeated b.toNat)) = true ∧
    (mulBase b).same (generator.mul b) = true ∧
    (doubleMulBase a p b).same ((p.mul a).add (mulBase b)) = true ∧
    ∃ P, p.Represents P ∧ (p.mul a).Represents (a.toNat • P) ∧
      (mulBase b).Represents (b.toNat • base) ∧
      (doubleMulBase a p b).Represents (a.toNat • P + b.toNat • base) := by
  obtain ⟨P, hP⟩ := hp.represents
  have ha := ha.trans (show order < 2 ^ 255 by decide)
  have hb := hb.trans (show order < 2 ^ 255 by decide)
  have hmul := represents_mul hP ha
  have hbase := represents_mulBase hb
  have hjoint := represents_doubleMulBase hP ha.le hb.le
  have hsumP := represents_repeated hP a.toNat
  have hsumB := represents_repeated represents_generator b.toNat
  exact ⟨(same_iff hmul hsumP).mpr rfl, (same_iff hbase hsumB).mpr rfl,
    (same_iff hjoint (represents_add hsumP hsumB)).mpr rfl,
    (same_iff hbase (represents_mul represents_generator hb)).mpr rfl,
    (same_iff hjoint (represents_add hmul hbase)).mpr rfl, P, hP, hmul, hbase, hjoint⟩

/-- The point of order two, which no multiple of the base point is. -/
theorem multiples_of_order_two : ∃ p, ofBytes FieldElement.minusOne.toBytes = .ok p ∧
    p.double.same identity = true ∧ Scalar.minusOne.toNat < order ∧
    (p.mul .minusOne).same (p.repeated Scalar.minusOne.toNat) = true ∧
    (doubleMulBase .minusOne p .minusOne).same ((p.mul .minusOne).add (mulBase .minusOne)) =
      true := by
  have hdecodes : Curve.Decodes FieldElement.minusOne.toBytes
      ⟨0, -1, by rw [Addition.OnCurve]; ring⟩ := by
    have hvalue : FieldElement.minusOne.residue = -1 := by decide +kernel
    refine ⟨?_, Or.inl rfl⟩
    rw [toNatLE_toBytes hvalue, Nat.mod_eq_of_lt (Curve.val_lt _), ZMod.natCast_zmod_val]
  obtain ⟨p, hread, hp⟩ := exists_ofBytes_of_decodes hdecodes
  have hlt : Scalar.minusOne.toNat < order := by decide +kernel
  obtain ⟨hmul, -, -, -, hjoint, -⟩ := multiples_repeat_addition (.read hread) hlt hlt
  refine ⟨p, hread, (same_iff (represents_double hp) represents_identity).mpr ?_, hlt, hmul,
    hjoint⟩
  apply Curve.Point.ext
  · change Addition.sumX constant 0 (-1) 0 (-1) = 0
    simp [Addition.sumX]
  · change Addition.sumY constant 0 (-1) 0 (-1) = 1
    simp [Addition.sumY, Addition.cross]

end Repeated

end CurveKeys.Edwards25519.Point
