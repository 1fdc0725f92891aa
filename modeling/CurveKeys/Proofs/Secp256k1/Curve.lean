import CurveKeys.Proofs.Primality

/-!
The curve `y² = x³ + 7` with its group of points, whose sum is the one by chords and tangents, and
Jacobian coordinates over the field. The formulas for doubling and for adding points with different
first coordinates are proved against the group law.
-/

namespace CurveKeys.Secp256k1
open FieldElement (prime)

def curve : WeierstrassCurve.Affine (ZMod prime) := ⟨0, 0, 0, 0, 7⟩

namespace Curve

abbrev Point := curve.Point

theorem two_ne_zero : (2 : ZMod prime) ≠ 0 := by decide +kernel

theorem equation_iff (x y : ZMod prime) : curve.Equation x y ↔ y ^ 2 = x ^ 3 + 7 := by
  rw [WeierstrassCurve.Affine.equation_iff]
  simp only [curve, zero_mul, add_zero]

theorem discriminant_ne_zero : curve.Δ ≠ 0 := by
  have h : curve.Δ = -21168 := by
    simp only [WeierstrassCurve.Δ, WeierstrassCurve.b₂, WeierstrassCurve.b₄, WeierstrassCurve.b₆,
      WeierstrassCurve.b₈, curve]
    ring
  rw [h]
  decide +kernel

theorem nonsingular_iff (x y : ZMod prime) : curve.Nonsingular x y ↔ y ^ 2 = x ^ 3 + 7 := by
  rw [← equation_iff, WeierstrassCurve.Affine.equation_iff_nonsingular_of_Δ_ne_zero
    discriminant_ne_zero]

/-- The point over a solution of the equation. -/
def point (x y : ZMod prime) (h : y ^ 2 = x ^ 3 + 7) : Point :=
  .some x y ((nonsingular_iff x y).mpr h)

theorem negY_eq (x y : ZMod prime) : curve.negY x y = -y := by
  simp only [WeierstrassCurve.Affine.negY, curve, zero_mul, sub_zero]

theorem addX_eq (x₁ x₂ l : ZMod prime) : curve.addX x₁ x₂ l = l ^ 2 - x₁ - x₂ := by
  simp only [WeierstrassCurve.Affine.addX, curve, zero_mul, sub_zero, add_zero]

theorem addY_eq (x₁ x₂ y₁ l : ZMod prime) :
    curve.addY x₁ x₂ y₁ l = -(l * (l ^ 2 - x₁ - x₂ - x₁) + y₁) := by
  rw [WeierstrassCurve.Affine.addY, negY_eq, WeierstrassCurve.Affine.negAddY, addX_eq]

/-- The constant -7 is not a cube. -/
theorem no_root (x : ZMod prime) : x ^ 3 + 7 ≠ 0 := by
  intro h
  have hcube : x ^ 3 = ((prime - 7 : Nat) : ZMod prime) := by
    rw [Nat.cast_sub (by decide), ZMod.natCast_self, zero_sub]
    exact eq_neg_of_add_eq_zero_left h
  have hx : x ≠ 0 := by
    rintro rfl
    exact absurd h (by decide +kernel)
  have hpow : ((prime - 7 : Nat) : ZMod prime) ^ ((prime - 1) / 3) = 1 := by
    rw [← hcube, ← pow_mul, show 3 * ((prime - 1) / 3) = prime - 1 by decide]
    exact ZMod.pow_card_sub_one_eq_one hx
  have hchain := (Primality.cast_pow_eq_one_iff (by decide) (prime - 7)
    (show (prime - 1) / 3 < 2 ^ 256 by decide)).mp hpow
  exact absurd hchain (by decide +kernel)

/-- No point has order two. -/
theorem y_ne_zero {x y : ZMod prime} (h : y ^ 2 = x ^ 3 + 7) : y ≠ 0 := by
  rintro rfl
  rw [zero_pow (by decide)] at h
  exact no_root x h.symm

theorem y_ne_neg {x y : ZMod prime} (h : y ^ 2 = x ^ 3 + 7) : y ≠ -y := by
  intro hy
  have h2 : 2 * y = 0 := by
    rw [two_mul]
    exact eq_neg_iff_add_eq_zero.mp hy
  exact mul_ne_zero two_ne_zero (y_ne_zero h) h2

/-- The coordinates of a point, none for infinity. -/
def affine : Point → Option (ZMod prime × ZMod prime)
  | .zero => none
  | .some x y _ => some (x, y)

/-- The third point of the line through two points, or of the tangent in one, mirrored. -/
def chordTangent : Option (ZMod prime × ZMod prime) → Option (ZMod prime × ZMod prime) →
    Option (ZMod prime × ZMod prime)
  | none, b => b
  | a, none => a
  | some (x₁, y₁), some (x₂, y₂) =>
    if x₁ = x₂ ∧ y₁ = -y₂ then none
    else
      let l := if x₁ = x₂ then 3 * x₁ ^ 2 / (2 * y₁) else (y₁ - y₂) / (x₁ - x₂)
      let x := l ^ 2 - x₁ - x₂
      some (x, l * (x₁ - x) - y₁)

theorem slope_eq {x₁ x₂ y₁ y₂ : ZMod prime} (h : ¬(x₁ = x₂ ∧ y₁ = -y₂)) :
    curve.slope x₁ x₂ y₁ y₂ =
      if x₁ = x₂ then 3 * x₁ ^ 2 / (2 * y₁) else (y₁ - y₂) / (x₁ - x₂) := by
  by_cases hx : x₁ = x₂
  · have hy : y₁ ≠ curve.negY x₂ y₂ := by
      rw [negY_eq]
      exact fun hy => h ⟨hx, hy⟩
    rw [if_pos hx, WeierstrassCurve.Affine.slope_of_Y_ne hx hy, negY_eq, sub_neg_eq_add, ← two_mul]
    simp only [curve, zero_mul, mul_zero, add_zero, sub_zero]
  · rw [if_neg hx, WeierstrassCurve.Affine.slope_of_X_ne hx]

theorem affine_add (P Q : Point) : affine (P + Q) = chordTangent (affine P) (affine Q) := by
  cases P with
  | zero =>
      change affine (0 + Q) = _
      rw [zero_add]
      rfl
  | @some x₁ y₁ h₁ =>
      cases Q with
      | zero =>
          change affine (_ + 0) = _
          rw [add_zero]
          rfl
      | @some x₂ y₂ h₂ =>
          rw [affine, affine, chordTangent]
          by_cases h : x₁ = x₂ ∧ y₁ = -y₂
          · have hneg : y₁ = curve.negY x₂ y₂ := by
              rw [negY_eq]
              exact h.2
            rw [if_pos h, WeierstrassCurve.Affine.Point.add_of_Y_eq h.1 hneg]
            rfl
          · have hneg : ¬(x₁ = x₂ ∧ y₁ = curve.negY x₂ y₂) := by
              rw [negY_eq]
              exact h
            rw [if_neg h, ← slope_eq h, WeierstrassCurve.Affine.Point.add_some hneg, affine,
              addX_eq, addY_eq]
            congr 2
            ring

theorem affine_neg (P : Point) : affine (-P) = (affine P).map fun (x, y) => (x, -y) := by
  cases P with
  | zero => rfl
  | some x y h =>
      rw [WeierstrassCurve.Affine.Point.neg_some, affine, negY_eq]
      rfl

end Curve

/-- A triple `(x, y, z)` for `(x / z², y / z³)`, and for infinity when `z` is zero. -/
structure Coordinates where
  x : ZMod prime
  y : ZMod prime
  z : ZMod prime

namespace Coordinates
open Curve

inductive Represents (c : Coordinates) : Point → Prop where
  | infinity (hz : c.z = 0) : c.Represents 0
  | finite {x y : ZMod prime} {h : curve.Nonsingular x y} (hz : c.z ≠ 0)
      (hx : c.x = x * c.z ^ 2) (hy : c.y = y * c.z ^ 3) : c.Represents (.some x y h)

theorem z_eq_zero_iff {c : Coordinates} {P : Point} (h : c.Represents P) : c.z = 0 ↔ P = 0 := by
  cases h with
  | infinity hz => exact ⟨fun _ => rfl, fun _ => hz⟩
  | finite hz hx hy =>
      exact ⟨fun h => absurd h hz,
        fun h => absurd h (WeierstrassCurve.Affine.Point.some_ne_zero _)⟩

/-- The double, for every point. -/
def double (c : Coordinates) : Coordinates :=
  let d := 4 * c.x * c.y ^ 2
  let e := 3 * c.x ^ 2
  let x := e ^ 2 - 2 * d
  ⟨x, e * (d - x) - 8 * c.y ^ 4, 2 * c.y * c.z⟩

theorem represents_double {c : Coordinates} {P : Point} (h : c.Represents P) :
    c.double.Represents (P + P) := by
  cases h with
  | infinity hz =>
      rw [add_zero]
      exact .infinity (by rw [double, hz, mul_zero])
  | @finite x y hxy hz hx hy =>
      have heq := (nonsingular_iff x y).mp hxy
      have hneg : y ≠ curve.negY x y := by
        rw [negY_eq]
        exact y_ne_neg heq
      have hy0 := y_ne_zero heq
      rw [WeierstrassCurve.Affine.Point.add_self_of_Y_ne hneg]
      have hslope : 2 * y * curve.slope x x y y = 3 * x ^ 2 := by
        rw [WeierstrassCurve.Affine.slope_of_Y_ne rfl hneg, negY_eq,
          show y - -y = 2 * y by ring, mul_div_cancel₀ _ (mul_ne_zero two_ne_zero hy0)]
        simp only [curve, zero_mul, mul_zero, add_zero, sub_zero]
      refine .finite (mul_ne_zero (mul_ne_zero two_ne_zero ?_) hz) ?_ ?_
      · rw [hy]
        exact mul_ne_zero hy0 (pow_ne_zero 3 hz)
      · rw [addX_eq]
        generalize curve.slope x x y y = l at hslope
        simp only [double, hx, hy]
        linear_combination (-(2 * y * l + 3 * x ^ 2) * c.z ^ 8) * hslope
      · rw [addY_eq]
        generalize curve.slope x x y y = l at hslope
        simp only [double, hx, hy]
        linear_combination ((2 * y * l) ^ 2 + 2 * y * l * (3 * x ^ 2) + (3 * x ^ 2) ^ 2 -
          12 * x * y ^ 2) * c.z ^ 12 * hslope

/-- The differences of the first and of the second coordinates over a common denominator. -/
def differenceX (c d : Coordinates) : ZMod prime := d.x * c.z ^ 2 - c.x * d.z ^ 2

@[inherit_doc differenceX]
def differenceY (c d : Coordinates) : ZMod prime := d.y * c.z ^ 3 - c.y * d.z ^ 3

/-- The sum of two points with different first coordinates. -/
def chord (c d : Coordinates) : Coordinates :=
  let h := differenceX c d
  let r := 2 * differenceY c d
  let j := 4 * h ^ 3
  let v := c.x * d.z ^ 2 * (4 * h ^ 2)
  let x := r ^ 2 - j - 2 * v
  ⟨x, r * (v - x) - 2 * (c.y * d.z ^ 3 * j), 2 * c.z * d.z * h⟩

theorem represents_chord {c d : Coordinates} {P Q : Point} (hc : c.Represents P)
    (hd : d.Represents Q) (hcz : c.z ≠ 0) (hdz : d.z ≠ 0) (h : differenceX c d ≠ 0) :
    (c.chord d).Represents (P + Q) := by
  cases hc with
  | infinity hz => exact absurd hz hcz
  | @finite x₁ y₁ h₁ _ hcx hcy =>
      cases hd with
      | infinity hz => exact absurd hz hdz
      | @finite x₂ y₂ h₂ _ hdx hdy =>
          have hX : differenceX c d = (x₂ - x₁) * (c.z * d.z) ^ 2 := by
            rw [differenceX, hcx, hdx]
            ring
          have hY : differenceY c d = (y₂ - y₁) * (c.z * d.z) ^ 3 := by
            rw [differenceY, hcy, hdy]
            ring
          have hne : x₁ ≠ x₂ := by
            rintro rfl
            rw [hX, sub_self, zero_mul] at h
            exact h rfl
          rw [WeierstrassCurve.Affine.Point.add_of_X_ne hne]
          have hslope : (x₁ - x₂) * curve.slope x₁ x₂ y₁ y₂ = y₁ - y₂ := by
            rw [WeierstrassCurve.Affine.slope_of_X_ne hne, mul_div_cancel₀ _ (sub_ne_zero.mpr hne)]
          refine .finite (mul_ne_zero (mul_ne_zero (mul_ne_zero two_ne_zero hcz) hdz) h) ?_ ?_
          · rw [addX_eq]
            generalize curve.slope x₁ x₂ y₁ y₂ = l at hslope
            simp only [chord, hX, hY, hcx]
            linear_combination (-4 * (c.z * d.z) ^ 6 * (y₁ - y₂ + (x₁ - x₂) * l)) * hslope
          · rw [addY_eq]
            generalize curve.slope x₁ x₂ y₁ y₂ = l at hslope
            simp only [chord, hX, hY, hcx, hcy]
            linear_combination (8 * (c.z * d.z) ^ 9 * ((x₂ - x₁) ^ 2 * (2 * x₁ + x₂) -
              ((y₂ - y₁) ^ 2 + (y₂ - y₁) * ((x₂ - x₁) * l) + ((x₂ - x₁) * l) ^ 2))) * hslope

theorem differenceX_eq_zero_iff {c d : Coordinates} {x₁ y₁ x₂ y₂ : ZMod prime}
    {h₁ : curve.Nonsingular x₁ y₁} {h₂ : curve.Nonsingular x₂ y₂}
    (hc : c.Represents (.some x₁ y₁ h₁)) (hd : d.Represents (.some x₂ y₂ h₂)) :
    differenceX c d = 0 ↔ x₁ = x₂ := by
  cases hc with | finite hcz hcx _
  cases hd with | finite hdz hdx _
  have hX : differenceX c d = (x₂ - x₁) * (c.z * d.z) ^ 2 := by
    rw [differenceX, hcx, hdx]
    ring
  rw [hX, mul_eq_zero_iff_right (pow_ne_zero 2 (mul_ne_zero hcz hdz)), sub_eq_zero, eq_comm]

theorem differenceY_eq_zero_iff {c d : Coordinates} {x₁ y₁ x₂ y₂ : ZMod prime}
    {h₁ : curve.Nonsingular x₁ y₁} {h₂ : curve.Nonsingular x₂ y₂}
    (hc : c.Represents (.some x₁ y₁ h₁)) (hd : d.Represents (.some x₂ y₂ h₂)) :
    differenceY c d = 0 ↔ y₁ = y₂ := by
  cases hc with | finite hcz _ hcy
  cases hd with | finite hdz _ hdy
  have hY : differenceY c d = (y₂ - y₁) * (c.z * d.z) ^ 3 := by
    rw [differenceY, hcy, hdy]
    ring
  rw [hY, mul_eq_zero_iff_right (pow_ne_zero 3 (mul_ne_zero hcz hdz)), sub_eq_zero, eq_comm]

/-- Two points other than infinity are equal when both differences vanish. -/
theorem eq_iff_differences {c d : Coordinates} {P Q : Point} (hc : c.Represents P)
    (hd : d.Represents Q) (hP : P ≠ 0) (hQ : Q ≠ 0) :
    P = Q ↔ differenceX c d = 0 ∧ differenceY c d = 0 := by
  cases P with
  | zero => exact absurd rfl hP
  | some x₁ y₁ h₁ =>
      cases Q with
      | zero => exact absurd rfl hQ
      | some x₂ y₂ h₂ =>
          rw [differenceX_eq_zero_iff hc hd, differenceY_eq_zero_iff hc hd,
            WeierstrassCurve.Affine.Point.some.injEq]

/-- Equality decided on the coordinates: infinity on both sides, or on neither and no difference. -/
theorem both_infinity_or_no_difference_iff {c d : Coordinates} {P Q : Point} (hc : c.Represents P)
    (hd : d.Represents Q) :
    (P = 0 ∧ Q = 0 ∨ ((P ≠ 0 ∧ Q ≠ 0) ∧ differenceX c d = 0) ∧ differenceY c d = 0) ↔ P = Q := by
  by_cases hP : P = 0
  · subst hP
    constructor
    · rintro (⟨-, hQ⟩ | ⟨⟨⟨h, -⟩, -⟩, -⟩)
      · exact hQ.symm
      · exact absurd rfl h
    · intro h
      exact Or.inl ⟨rfl, h.symm⟩
  · by_cases hQ : Q = 0
    · subst hQ
      simp only [hP, false_and, ne_eq, not_true_eq_false, and_false, or_self]
    · rw [eq_iff_differences hc hd hP hQ, and_assoc, and_iff_right (And.intro hP hQ)]
      exact or_iff_right (mt And.left hP)

/-- Two points other than infinity are opposite when only the second difference remains. -/
theorem add_eq_zero_of_differences {c d : Coordinates} {P Q : Point} (hc : c.Represents P)
    (hd : d.Represents Q) (hP : P ≠ 0) (hQ : Q ≠ 0) (hx : differenceX c d = 0)
    (hy : differenceY c d ≠ 0) : P + Q = 0 := by
  cases P with
  | zero => exact absurd rfl hP
  | some x₁ y₁ h₁ =>
      cases Q with
      | zero => exact absurd rfl hQ
      | some x₂ y₂ h₂ =>
          have hx' := (differenceX_eq_zero_iff hc hd).mp hx
          have hy' : y₁ ≠ y₂ := fun h => hy ((differenceY_eq_zero_iff hc hd).mpr h)
          have hsq : y₁ ^ 2 = y₂ ^ 2 := by
            rw [(nonsingular_iff x₁ y₁).mp h₁, (nonsingular_iff x₂ y₂).mp h₂, hx']
          apply WeierstrassCurve.Affine.Point.add_of_Y_eq hx'
          rw [negY_eq]
          exact (sq_eq_sq_iff_eq_or_eq_neg.mp hsq).resolve_left hy'

/-- The sum of any two points. -/
def add (c d : Coordinates) : Coordinates :=
  if c.z = 0 then d
  else if d.z = 0 then c
  else if differenceX c d = 0 then
    if differenceY c d = 0 then c.double else ⟨0, 1, 0⟩
  else c.chord d

theorem represents_add {c d : Coordinates} {P Q : Point} (hc : c.Represents P)
    (hd : d.Represents Q) : (c.add d).Represents (P + Q) := by
  rw [add]
  split
  · next hcz =>
      rw [(z_eq_zero_iff hc).mp hcz, zero_add]
      exact hd
  · next hcz =>
      have hP : P ≠ 0 := fun h => hcz ((z_eq_zero_iff hc).mpr h)
      split
      · next hdz =>
          rw [(z_eq_zero_iff hd).mp hdz, add_zero]
          exact hc
      · next hdz =>
          have hQ : Q ≠ 0 := fun h => hdz ((z_eq_zero_iff hd).mpr h)
          split
          · next hx =>
              split
              · next hy =>
                  rw [← (eq_iff_differences hc hd hP hQ).mpr ⟨hx, hy⟩]
                  exact represents_double hc
              · next hy =>
                  rw [add_eq_zero_of_differences hc hd hP hQ hx hy]
                  exact .infinity rfl
          · next hx => exact represents_chord hc hd hcz hdz hx

theorem represents_neg {c : Coordinates} {P : Point} (h : c.Represents P) :
    Represents ⟨c.x, -c.y, c.z⟩ (-P) := by
  cases h with
  | infinity hz => exact .infinity hz
  | finite hz hx hy =>
      refine .finite hz hx ?_
      rw [negY_eq, hy, neg_mul]

/-- The multiple of a point for an integer of at most the given number of bits. -/
def multiple (c : Coordinates) : Nat → Nat → Coordinates
  | 0, _ => ⟨0, 1, 0⟩
  | bits + 1, k =>
    let half := (c.multiple bits (k / 2)).double
    if k % 2 = 0 then half else half.add c

theorem represents_multiple {c : Coordinates} {P : Point} (h : c.Represents P) (bits k : Nat)
    (hk : k < 2 ^ bits) : (c.multiple bits k).Represents (k • P) := by
  induction bits generalizing k with
  | zero =>
      have hk0 : k = 0 := by simpa using hk
      rw [hk0, zero_nsmul]
      exact .infinity rfl
  | succ bits ih =>
      have hhalf := represents_double (ih (k / 2) (by rw [pow_succ] at hk; omega))
      rw [← add_nsmul] at hhalf
      rw [multiple]
      split
      · next he =>
          rw [show k / 2 + k / 2 = k by omega] at hhalf
          exact hhalf
      · next ho =>
          have hsum := represents_add hhalf h
          rw [← succ_nsmul, show k / 2 + k / 2 + 1 = k by omega] at hsum
          exact hsum

/-- Coordinates with a `z` of one are the affine ones. -/
theorem represents_point {x y : ZMod prime} (h : y ^ 2 = x ^ 3 + 7) :
    Represents ⟨x, y, 1⟩ (point x y h) :=
  .finite one_ne_zero (by rw [one_pow, mul_one]) (by rw [one_pow, mul_one])

/-- The affine coordinates, none for infinity. -/
def affine (c : Coordinates) : Option (ZMod prime × ZMod prime) :=
  if c.z = 0 then none else some (c.x / c.z ^ 2, c.y / c.z ^ 3)

/-- The triple is infinity, whatever its first two coordinates, or satisfies the equation. -/
def OnCurve (c : Coordinates) : Prop := c.z = 0 ∨ c.y ^ 2 = c.x ^ 3 + 7 * c.z ^ 6

theorem affine_eq {c : Coordinates} {P : Point} (h : c.Represents P) :
    c.affine = Curve.affine P := by
  cases h with
  | infinity hz =>
      rw [affine, if_pos hz]
      rfl
  | finite hz hx hy =>
      rw [affine, if_neg hz, hx, hy, mul_div_cancel_right₀ _ (pow_ne_zero 2 hz),
        mul_div_cancel_right₀ _ (pow_ne_zero 3 hz), Curve.affine]

theorem exists_represents_iff (c : Coordinates) : (∃ P, c.Represents P) ↔ c.OnCurve := by
  constructor
  · rintro ⟨P, hz | @⟨x, y, hxy, hz, hx, hy⟩⟩
    · exact Or.inl hz
    · right
      rw [hx, hy]
      linear_combination c.z ^ 6 * (nonsingular_iff x y).mp hxy
  · intro h
    by_cases hz : c.z = 0
    · exact ⟨0, .infinity hz⟩
    · have hcurve := h.resolve_left hz
      have haffine : (c.y / c.z ^ 3) ^ 2 = (c.x / c.z ^ 2) ^ 3 + 7 := by
        field_simp
        linear_combination hcurve
      exact ⟨point _ _ haffine, .finite hz (div_mul_cancel₀ _ (pow_ne_zero 2 hz)).symm
        (div_mul_cancel₀ _ (pow_ne_zero 3 hz)).symm⟩

end Coordinates

end CurveKeys.Secp256k1
