import CurveKeys.Proofs.Edwards25519.Addition
import CurveKeys.Proofs.Edwards25519.Field.Power
import CurveKeys.Edwards25519.Point.Basic

/-!
The group of points of the curve, with the base point and its prime order. The order is checked by
doubling and adding in projective coordinates, which need no division.
-/

namespace CurveKeys.Edwards25519.Curve
open FieldElement (prime rootMinusOne)
open Limbs (order)
open Addition

/-- The constant of the curve equation. -/
def constant : ZMod prime := FieldElement.d.residue

theorem two_ne_zero : (2 : ZMod prime) ≠ 0 := by decide +kernel

theorem constant_ne_zero : constant ≠ 0 := by decide +kernel

/-- Euler's criterion at the constant. -/
theorem not_isSquare_constant : ¬IsSquare constant := by
  rw [ZMod.euler_criterion prime constant_ne_zero]
  intro h
  have hchain := (Primality.cast_pow_eq_one_iff (by decide) FieldElement.d.toNat
    (show prime / 2 < 2 ^ 256 by decide)).mp h
  exact absurd hchain (by decide +kernel)

theorem complete : Complete constant rootMinusOne :=
  ⟨not_isSquare_constant, FieldElement.sq_rootMinusOne, two_ne_zero⟩

@[ext]
structure Point where
  x : ZMod prime
  y : ZMod prime
  onCurve : OnCurve constant x y

namespace Point

instance : Zero Point where
  zero := ⟨0, 1, by rw [OnCurve]; ring⟩

instance : Neg Point where
  neg P := ⟨-P.x, P.y, onCurve_neg P.onCurve⟩

instance : Add Point where
  add P Q := ⟨sumX constant P.x P.y Q.x Q.y, sumY constant P.x P.y Q.x Q.y,
    onCurve_sum complete P.onCurve Q.onCurve⟩

@[simp] theorem zero_x : (0 : Point).x = 0 := rfl

@[simp] theorem zero_y : (0 : Point).y = 1 := rfl

@[simp] theorem neg_x (P : Point) : (-P).x = -P.x := rfl

@[simp] theorem neg_y (P : Point) : (-P).y = P.y := rfl

/-- The term in the denominators of a sum. -/
def cross (P Q : Point) : ZMod prime := Addition.cross constant P.x P.y Q.x Q.y

theorem one_add_cross_ne_zero (P Q : Point) : 1 + cross P Q ≠ 0 :=
  Addition.one_add_cross_ne_zero complete P.onCurve Q.onCurve

theorem one_sub_cross_ne_zero (P Q : Point) : 1 - cross P Q ≠ 0 :=
  Addition.one_sub_cross_ne_zero complete P.onCurve Q.onCurve

theorem add_x_mul (P Q : Point) : (P + Q).x * (1 + cross P Q) = P.x * Q.y + Q.x * P.y :=
  div_mul_cancel₀ _ (one_add_cross_ne_zero P Q)

theorem add_y_mul (P Q : Point) : (P + Q).y * (1 - cross P Q) = P.y * Q.y + P.x * Q.x :=
  div_mul_cancel₀ _ (one_sub_cross_ne_zero P Q)

theorem cross_zero_left (P : Point) : cross 0 P = 0 := by
  simp [cross, Addition.cross]

protected theorem zero_add (P : Point) : 0 + P = P := by
  have hx := add_x_mul 0 P
  have hy := add_y_mul 0 P
  rw [cross_zero_left] at hx hy
  ext
  · simpa using hx
  · simpa using hy

protected theorem neg_add_cancel (P : Point) : -P + P = 0 := by
  have hx := add_x_mul (-P) P
  have hy := add_y_mul (-P) P
  have hcurve := P.onCurve
  ext
  · apply mul_right_cancel₀ (one_add_cross_ne_zero (-P) P)
    rw [hx, zero_x, neg_x, neg_y]
    ring
  · apply mul_right_cancel₀ (one_sub_cross_ne_zero (-P) P)
    rw [hy, zero_y, neg_x, neg_y, cross, Addition.cross, neg_x, neg_y]
    rw [OnCurve] at hcurve
    linear_combination hcurve

instance : AddCommGroup Point where
  add_assoc P Q R := Point.ext (sumX_assoc complete P.onCurve Q.onCurve R.onCurve)
    (sumY_assoc complete P.onCurve Q.onCurve R.onCurve)
  zero_add := Point.zero_add
  add_zero P := Point.ext ((sumX_comm _ _ _ _ _).trans (congrArg Point.x (Point.zero_add P)))
    ((sumY_comm _ _ _ _ _).trans (congrArg Point.y (Point.zero_add P)))
  neg_add_cancel := Point.neg_add_cancel
  add_comm _ _ := Point.ext (sumX_comm _ _ _ _ _) (sumY_comm _ _ _ _ _)
  nsmul := nsmulRec
  zsmul := zsmulRec

end Point

/-- The base point. -/
def base : Point where
  x := Edwards25519.Point.generator.x.residue
  y := Edwards25519.Point.generator.y.residue
  onCurve := by
    rw [OnCurve]
    decide +kernel

theorem base_spec : base.y * 5 = 4 ∧ base.x.val % 2 = 0 := by decide +kernel

/-- A triple for the point `(x / z, y / z)`. -/
structure Coordinates where
  x : ZMod prime
  y : ZMod prime
  z : ZMod prime

namespace Coordinates

structure Represents (c : Coordinates) (P : Point) : Prop where
  z_ne_zero : c.z ≠ 0
  x : c.x = P.x * c.z
  y : c.y = P.y * c.z

def zero : Coordinates := ⟨0, 1, 1⟩

theorem represents_zero : zero.Represents 0 :=
  ⟨one_ne_zero, (zero_mul _).symm, (one_mul _).symm⟩

/-- The sum of any two points. -/
def add (c e : Coordinates) : Coordinates :=
  let z := c.z * e.z
  let zz := z * z
  let t := constant * (c.x * e.x) * (c.y * e.y)
  ⟨z * (zz - t) * (c.x * e.y + e.x * c.y), z * (zz + t) * (c.y * e.y + c.x * e.x),
    (zz - t) * (zz + t)⟩

theorem represents_add {c e : Coordinates} {P Q : Point} (hc : c.Represents P)
    (he : e.Represents Q) : (c.add e).Represents (P + Q) := by
  obtain ⟨hcz, hcx, hcy⟩ := hc
  obtain ⟨hez, hex, hey⟩ := he
  have hz : c.z * e.z ≠ 0 := mul_ne_zero hcz hez
  have ht : constant * (c.x * e.x) * (c.y * e.y) =
      Point.cross P Q * (c.z * e.z * (c.z * e.z)) := by
    rw [hcx, hcy, hex, hey, Point.cross, Addition.cross]
    ring
  have hsub := Point.one_sub_cross_ne_zero P Q
  have hadd := Point.one_add_cross_ne_zero P Q
  have hx := Point.add_x_mul P Q
  have hy := Point.add_y_mul P Q
  refine ⟨?_, ?_, ?_⟩ <;> simp only [add, ht]
  · have h : (1 - Point.cross P Q) * (1 + Point.cross P Q) * (c.z * e.z * (c.z * e.z)) ^ 2 ≠ 0 :=
      mul_ne_zero (mul_ne_zero hsub hadd) (pow_ne_zero 2 (mul_ne_zero hz hz))
    convert h using 1
    ring
  · rw [hcx, hcy, hex, hey]
    linear_combination (-(c.z * e.z) ^ 4 * (1 - Point.cross P Q)) * hx
  · rw [hcx, hcy, hex, hey]
    linear_combination (-(c.z * e.z) ^ 4 * (1 + Point.cross P Q)) * hy

/-- The multiple of a point for an integer of at most the given number of bits. -/
def multiple (c : Coordinates) : Nat → Nat → Coordinates
  | 0, _ => zero
  | bits + 1, k =>
    let half := c.multiple bits (k / 2)
    let even := half.add half
    if k % 2 = 0 then even else even.add c

theorem represents_multiple {c : Coordinates} {P : Point} (h : c.Represents P) (bits k : Nat)
    (hk : k < 2 ^ bits) : (c.multiple bits k).Represents (k • P) := by
  induction bits generalizing k with
  | zero =>
      have hk0 : k = 0 := by simpa using hk
      rw [hk0, zero_nsmul]
      exact represents_zero
  | succ bits ih =>
      have hhalf := ih (k / 2) (by rw [pow_succ] at hk; omega)
      have heven := represents_add hhalf hhalf
      rw [← add_nsmul] at heven
      rw [multiple]
      split
      · next he =>
          rw [show k / 2 + k / 2 = k by omega] at heven
          exact heven
      · next ho =>
          have hsum := represents_add heven h
          rw [← succ_nsmul, show k / 2 + k / 2 + 1 = k by omega] at hsum
          exact hsum

theorem eq_zero_of_represents {c : Coordinates} {P : Point} (h : c.Represents P) (hx : c.x = 0)
    (hy : c.y = c.z) : P = 0 := by
  obtain ⟨hz, hcx, hcy⟩ := h
  ext
  · rw [hx] at hcx
    exact (mul_eq_zero.mp hcx.symm).resolve_right hz
  · rw [hy] at hcy
    exact (mul_eq_right₀ hz).mp hcy.symm

end Coordinates

def baseCoordinates : Coordinates := ⟨base.x, base.y, 1⟩

theorem represents_base : baseCoordinates.Represents base :=
  ⟨one_ne_zero, (mul_one _).symm, (mul_one _).symm⟩

theorem base_ne_zero : base ≠ 0 := by
  intro h
  exact absurd (congrArg Point.x h) (by decide +kernel)

theorem order_nsmul_base : order • base = 0 :=
  Coordinates.eq_zero_of_represents
    (Coordinates.represents_multiple represents_base 253 order (by decide))
    (by decide +kernel) (by decide +kernel)

theorem addOrderOf_base : addOrderOf base = order :=
  addOrderOf_eq_prime order_nsmul_base base_ne_zero

theorem nsmul_base_eq_iff (m n : Nat) : m • base = n • base ↔ m % order = n % order := by
  rw [nsmul_eq_nsmul_iff_modEq, addOrderOf_base]
  rfl

theorem mod_nsmul_base (n : Nat) : (n % order) • base = n • base :=
  (nsmul_base_eq_iff _ _).mpr (Nat.mod_mod n order)

end CurveKeys.Edwards25519.Curve
