import Mathlib

/-!
The addition law of the curve `-x² + y² = 1 + d x² y²` over a field where -1 is a square and `d` is
not. No denominator vanishes, sums lie on the curve, and the law is associative; the second
coordinate follows the first through the rotation `(x, y) ↦ (i y, i x)`.
-/

namespace CurveKeys.Edwards25519.Addition

variable {F : Type*} [Field F]

/-- The curve equation. -/
def OnCurve (d x y : F) : Prop := -x ^ 2 + y ^ 2 = 1 + d * x ^ 2 * y ^ 2

/-- Constants for which the law has no exceptions. -/
structure Complete (d i : F) : Prop where
  nonsquare : ¬IsSquare d
  root : i ^ 2 = -1
  two_ne_zero : (2 : F) ≠ 0

/-- The term that is added to one and taken from one in the denominators. -/
def cross (d x₁ y₁ x₂ y₂ : F) : F := d * x₁ * x₂ * y₁ * y₂

def sumX (d x₁ y₁ x₂ y₂ : F) : F := (x₁ * y₂ + x₂ * y₁) / (1 + cross d x₁ y₁ x₂ y₂)

def sumY (d x₁ y₁ x₂ y₂ : F) : F := (y₁ * y₂ + x₁ * x₂) / (1 - cross d x₁ y₁ x₂ y₂)

variable {d i x₁ y₁ x₂ y₂ x₃ y₃ : F}

theorem onCurve_iff {x y : F} : OnCurve d x y ↔ y ^ 2 - x ^ 2 = 1 + d * (x * y) ^ 2 := by
  rw [OnCurve]
  constructor <;> intro h <;> linear_combination h

/-- A unit cross term would make `d` a quotient of squares. -/
theorem cross_sq_ne_one (hc : Complete d i) (h₁ : OnCurve d x₁ y₁) (h₂ : OnCurve d x₂ y₂) :
    cross d x₁ y₁ x₂ y₂ ^ 2 ≠ 1 := by
  intro h
  rw [OnCurve] at h₁ h₂
  have hne : cross d x₁ y₁ x₂ y₂ ≠ 0 := by
    intro h0
    rw [h0] at h
    exact zero_ne_one ((zero_pow (by decide)).symm.trans h)
  have hx₁ : x₁ ≠ 0 := by
    rintro rfl
    exact hne (by rw [cross]; ring)
  have hy₁ : y₁ ≠ 0 := by
    rintro rfl
    exact hne (by rw [cross]; ring)
  have hy₂ : y₂ ≠ 0 := by
    rintro rfl
    exact hne (by rw [cross]; ring)
  -- both signs of the root give a square multiple of `d`, so both sums vanish
  have hzero (j : F) (hj : j ^ 2 = -1) : y₂ + j * x₂ = 0 := by
    by_contra hsum
    have hsq : d * (x₁ * y₁ * (y₂ + j * x₂)) ^ 2 =
        (y₁ + cross d x₁ y₁ x₂ y₂ * j * x₁) ^ 2 := by
      rw [cross] at h ⊢
      linear_combination (-1 : F) * h₁ + d * x₁ ^ 2 * y₁ ^ 2 * h₂ +
        (d * x₁ ^ 2 * y₁ ^ 2 * x₂ ^ 2 + (-1) * (d * x₁ * x₂ * y₁ * y₂) ^ 2 * x₁ ^ 2) * hj +
        (x₁ ^ 2 + 1) * h
    have hden : x₁ * y₁ * (y₂ + j * x₂) ≠ 0 := mul_ne_zero (mul_ne_zero hx₁ hy₁) hsum
    refine hc.nonsquare ⟨(y₁ + cross d x₁ y₁ x₂ y₂ * j * x₁) / (x₁ * y₁ * (y₂ + j * x₂)), ?_⟩
    rw [div_mul_div_comm, eq_div_iff (mul_ne_zero hden hden)]
    linear_combination hsq
  have hplus := hzero i hc.root
  have hminus := hzero (-i) (by rw [neg_sq, hc.root])
  have htwo : 2 * y₂ = 0 := by linear_combination hplus + hminus
  exact mul_ne_zero hc.two_ne_zero hy₂ htwo

theorem one_add_cross_ne_zero (hc : Complete d i) (h₁ : OnCurve d x₁ y₁) (h₂ : OnCurve d x₂ y₂) :
    1 + cross d x₁ y₁ x₂ y₂ ≠ 0 := by
  intro h
  apply cross_sq_ne_one hc h₁ h₂
  rw [eq_neg_of_add_eq_zero_right h, neg_one_sq]

theorem one_sub_cross_ne_zero (hc : Complete d i) (h₁ : OnCurve d x₁ y₁) (h₂ : OnCurve d x₂ y₂) :
    1 - cross d x₁ y₁ x₂ y₂ ≠ 0 := by
  intro h
  apply cross_sq_ne_one hc h₁ h₂
  rw [← sub_eq_zero.mp h, one_pow]

/-- The curve equation of a sum, with its denominators cleared. -/
theorem onCurve_sum_cleared (h₁ : OnCurve d x₁ y₁) (h₂ : OnCurve d x₂ y₂) {a b c : F}
    (ha : a = x₁ * y₂ + x₂ * y₁) (hb : b = y₁ * y₂ + x₁ * x₂) (hc : c = cross d x₁ y₁ x₂ y₂) :
    -(a * (1 - c)) ^ 2 + (b * (1 + c)) ^ 2 = ((1 + c) * (1 - c)) ^ 2 + d * (a * b) ^ 2 := by
  have key : -(a * (1 - c)) ^ 2 + (b * (1 + c)) ^ 2 - ((1 + c) * (1 - c)) ^ 2 - d * (a * b) ^ 2 =
      (y₁ ^ 2 - x₁ ^ 2) * (y₂ ^ 2 - x₂ ^ 2) * (1 + c ^ 2) - (1 - c ^ 2) ^ 2 -
        d * (x₁ * y₁) ^ 2 * (y₂ ^ 2 - x₂ ^ 2) ^ 2 - d * (x₂ * y₂) ^ 2 * (y₁ ^ 2 - x₁ ^ 2) ^ 2 := by
    subst ha hb hc
    rw [cross]
    ring
  rw [onCurve_iff.mp h₁, onCurve_iff.mp h₂] at key
  rw [cross] at hc
  subst hc
  linear_combination key

theorem onCurve_sum (hc : Complete d i) (h₁ : OnCurve d x₁ y₁) (h₂ : OnCurve d x₂ y₂) :
    OnCurve d (sumX d x₁ y₁ x₂ y₂) (sumY d x₁ y₁ x₂ y₂) := by
  have hadd := one_add_cross_ne_zero hc h₁ h₂
  have hsub := one_sub_cross_ne_zero hc h₁ h₂
  have h := onCurve_sum_cleared h₁ h₂ rfl rfl rfl
  rw [OnCurve, sumX, sumY]
  field_simp
  linear_combination h

theorem onCurve_neg {x y : F} (h : OnCurve d x y) : OnCurve d (-x) y := by
  rw [OnCurve] at h ⊢
  linear_combination h

theorem sumX_comm (d x₁ y₁ x₂ y₂ : F) : sumX d x₁ y₁ x₂ y₂ = sumX d x₂ y₂ x₁ y₁ := by
  simp only [sumX, cross]
  congr 1 <;> ring

theorem sumY_comm (d x₁ y₁ x₂ y₂ : F) : sumY d x₁ y₁ x₂ y₂ = sumY d x₂ y₂ x₁ y₁ := by
  simp only [sumY, cross]
  congr 1 <;> ring

/-- The numerator of the first coordinate of a threefold sum. -/
def numerator (d x₁ y₁ x₂ y₂ x₃ y₃ : F) : F :=
  (x₁ * y₂ + x₂ * y₁) * (1 - cross d x₁ y₁ x₂ y₂) * y₃ +
    (y₁ * y₂ + x₁ * x₂) * (1 + cross d x₁ y₁ x₂ y₂) * x₃

/-- The denominator of the first coordinate of a threefold sum. -/
def denominator (d x₁ y₁ x₂ y₂ x₃ y₃ : F) : F :=
  (1 + cross d x₁ y₁ x₂ y₂) * (1 - cross d x₁ y₁ x₂ y₂) +
    d * (x₁ * y₂ + x₂ * y₁) * (y₁ * y₂ + x₁ * x₂) * x₃ * y₃

theorem one_add_cross_sum (hadd : 1 + cross d x₁ y₁ x₂ y₂ ≠ 0)
    (hsub : 1 - cross d x₁ y₁ x₂ y₂ ≠ 0) :
    1 + cross d (sumX d x₁ y₁ x₂ y₂) (sumY d x₁ y₁ x₂ y₂) x₃ y₃ =
      denominator d x₁ y₁ x₂ y₂ x₃ y₃ /
        ((1 + cross d x₁ y₁ x₂ y₂) * (1 - cross d x₁ y₁ x₂ y₂)) := by
  rw [denominator, sumX, sumY]
  generalize cross d x₁ y₁ x₂ y₂ = c at *
  rw [cross]
  field_simp

theorem denominator_ne_zero (hc : Complete d i) (h₁ : OnCurve d x₁ y₁) (h₂ : OnCurve d x₂ y₂)
    (h₃ : OnCurve d x₃ y₃) : denominator d x₁ y₁ x₂ y₂ x₃ y₃ ≠ 0 := by
  have h := one_add_cross_ne_zero hc (onCurve_sum hc h₁ h₂) h₃
  rw [one_add_cross_sum (one_add_cross_ne_zero hc h₁ h₂) (one_sub_cross_ne_zero hc h₁ h₂)] at h
  exact (div_ne_zero_iff.mp h).1

theorem sumX_sum (hc : Complete d i) (h₁ : OnCurve d x₁ y₁) (h₂ : OnCurve d x₂ y₂) :
    sumX d (sumX d x₁ y₁ x₂ y₂) (sumY d x₁ y₁ x₂ y₂) x₃ y₃ =
      numerator d x₁ y₁ x₂ y₂ x₃ y₃ / denominator d x₁ y₁ x₂ y₂ x₃ y₃ := by
  have hadd := one_add_cross_ne_zero hc h₁ h₂
  have hsub := one_sub_cross_ne_zero hc h₁ h₂
  rw [sumX, one_add_cross_sum hadd hsub, div_div_eq_mul_div, sumX, sumY, numerator]
  congr 1
  field_simp

/-- Both ways to add three points, cross-multiplied. -/
theorem numerator_mul_denominator (h₁ : OnCurve d x₁ y₁) (h₂ : OnCurve d x₂ y₂)
    (h₃ : OnCurve d x₃ y₃) :
    numerator d x₁ y₁ x₂ y₂ x₃ y₃ * denominator d x₂ y₂ x₃ y₃ x₁ y₁ =
      numerator d x₂ y₂ x₃ y₃ x₁ y₁ * denominator d x₁ y₁ x₂ y₂ x₃ y₃ := by
  rw [OnCurve] at h₁ h₂ h₃
  simp only [numerator, denominator, cross]
  -- the difference of both sides lies in the ideal of the three curve equations
  linear_combination (-d * x₂ * y₂) *
    ((d * (x₂ * y₂) ^ 2 * x₃ * y₃ * (x₁ * (y₂ * y₃ + x₂ * x₃) - y₁ * (x₂ * y₃ + x₃ * y₂)) +
        x₂ ^ 2 * x₃ * y₃ * (x₁ * x₂ * x₃ - y₁ * x₂ * y₃) +
        y₂ ^ 2 * x₃ * y₃ * (y₁ * y₂ * x₃ - x₁ * y₂ * y₃) +
        x₂ * y₂ * x₃ ^ 2 * (x₁ * x₂ * x₃ + y₁ * y₂ * x₃) -
        x₂ * y₂ * y₃ ^ 2 * (x₁ * y₂ * y₃ + y₁ * x₂ * y₃) +
        x₂ * y₂ * (x₁ * (y₂ * y₃ + x₂ * x₃) + y₁ * (x₂ * y₃ + x₃ * y₂))) * h₁ +
      (-d * x₁ * y₁ * (x₃ * y₃) ^ 2 *
          (x₁ * (x₂ * x₃ - y₂ * y₃) + y₁ * (y₂ * x₃ - x₂ * y₃)) +
        x₃ * y₃ * (y₁ ^ 2 - x₁ ^ 2 - 1) *
          (x₁ * (y₂ * y₃ + x₂ * x₃) - y₁ * (x₂ * y₃ + x₃ * y₂))) * h₂ +
      (x₂ * y₂ * (y₁ ^ 2 - x₁ ^ 2 - 1) *
          (x₁ * (y₂ * y₃ + x₂ * x₃) + y₁ * (x₂ * y₃ + x₃ * y₂)) +
        x₁ * y₁ * (x₁ * (x₂ * x₃ - y₂ * y₃) - y₁ * (x₂ * y₃ - y₂ * x₃))) * h₃)

theorem sumX_assoc (hc : Complete d i) (h₁ : OnCurve d x₁ y₁) (h₂ : OnCurve d x₂ y₂)
    (h₃ : OnCurve d x₃ y₃) :
    sumX d (sumX d x₁ y₁ x₂ y₂) (sumY d x₁ y₁ x₂ y₂) x₃ y₃ =
      sumX d x₁ y₁ (sumX d x₂ y₂ x₃ y₃) (sumY d x₂ y₂ x₃ y₃) := by
  rw [sumX_comm d x₁ y₁ (sumX d x₂ y₂ x₃ y₃), sumX_sum hc h₁ h₂,
    sumX_sum hc h₂ h₃,
    div_eq_div_iff (denominator_ne_zero hc h₁ h₂ h₃) (denominator_ne_zero hc h₂ h₃ h₁)]
  exact numerator_mul_denominator h₁ h₂ h₃

/-- The rotated point lies on the curve too. -/
theorem onCurve_rotate (hc : Complete d i) {x y : F} (h : OnCurve d x y) :
    OnCurve d (i * y) (i * x) := by
  rw [OnCurve] at h ⊢
  linear_combination h + (x ^ 2 - y ^ 2 - d * x ^ 2 * y ^ 2 * (i ^ 2 - 1)) * hc.root

theorem sumX_rotate (hc : Complete d i) :
    sumX d x₁ y₁ (i * y₂) (i * x₂) = i * sumY d x₁ y₁ x₂ y₂ := by
  have h : 1 + cross d x₁ y₁ (i * y₂) (i * x₂) = 1 - cross d x₁ y₁ x₂ y₂ := by
    rw [cross, cross]
    linear_combination d * x₁ * x₂ * y₁ * y₂ * hc.root
  rw [sumX, sumY, h, mul_div_assoc']
  congr 1
  ring

theorem sumY_rotate (hc : Complete d i) :
    sumY d x₁ y₁ (i * y₂) (i * x₂) = i * sumX d x₁ y₁ x₂ y₂ := by
  have h : 1 - cross d x₁ y₁ (i * y₂) (i * x₂) = 1 + cross d x₁ y₁ x₂ y₂ := by
    rw [cross, cross]
    linear_combination (-d) * x₁ * x₂ * y₁ * y₂ * hc.root
  rw [sumX, sumY, h, mul_div_assoc']
  congr 1
  ring

theorem sumY_assoc (hc : Complete d i) (h₁ : OnCurve d x₁ y₁) (h₂ : OnCurve d x₂ y₂)
    (h₃ : OnCurve d x₃ y₃) :
    sumY d (sumX d x₁ y₁ x₂ y₂) (sumY d x₁ y₁ x₂ y₂) x₃ y₃ =
      sumY d x₁ y₁ (sumX d x₂ y₂ x₃ y₃) (sumY d x₂ y₂ x₃ y₃) := by
  have hi : i ≠ 0 := by
    rintro rfl
    exact neg_ne_zero.mpr one_ne_zero ((zero_pow (by decide)).symm.trans hc.root).symm
  apply mul_left_cancel₀ hi
  rw [← sumX_rotate hc, ← sumX_rotate hc, sumX_assoc hc h₁ h₂ (onCurve_rotate hc h₃),
    sumX_rotate hc, sumY_rotate hc]

end CurveKeys.Edwards25519.Addition
