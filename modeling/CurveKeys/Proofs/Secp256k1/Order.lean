import CurveKeys.Proofs.Secp256k1.Curve
import CurveKeys.Proofs.Secp256k1.Split

/-!
The order of the group of points. The base point has prime order `n`, there are at most `2p + 1`
points and none of order two, so the base point generates the whole group. The endomorphism
`(x, y) ↦ (βx, y)` is then the multiplication by its eigenvalue.
-/

namespace CurveKeys.Secp256k1.Curve
open FieldElement (prime)
open Scalar (order lambda)

theorem generator_equation :
    (0x483ADA7726A3C4655DA4FBFC0E1108A8FD17B448A68554199C47D08FFB10D4B8 : ZMod prime) ^ 2 =
      0x79BE667EF9DCBBAC55A06295CE870B07029BFCDB2DCE28D959F2815B16F81798 ^ 3 + 7 := by
  decide +kernel

/-- The base point. -/
def generator : Point :=
  point 0x79BE667EF9DCBBAC55A06295CE870B07029BFCDB2DCE28D959F2815B16F81798
    0x483ADA7726A3C4655DA4FBFC0E1108A8FD17B448A68554199C47D08FFB10D4B8 generator_equation

def generatorCoordinates : Coordinates :=
  ⟨0x79BE667EF9DCBBAC55A06295CE870B07029BFCDB2DCE28D959F2815B16F81798,
    0x483ADA7726A3C4655DA4FBFC0E1108A8FD17B448A68554199C47D08FFB10D4B8, 1⟩

theorem represents_generator : generatorCoordinates.Represents generator :=
  Coordinates.represents_point generator_equation

theorem generator_ne_zero : generator ≠ 0 :=
  WeierstrassCurve.Affine.Point.some_ne_zero _

theorem order_nsmul_generator : order • generator = 0 := by
  have h := Coordinates.represents_multiple represents_generator 256 order (by decide)
  have hz : (generatorCoordinates.multiple 256 order).z = 0 := by decide +kernel
  exact (Coordinates.z_eq_zero_iff h).mp hz

/-- Negation flips the parity of a representative, since the modulus is odd. -/
theorem odd_neg {y : ZMod prime} (h : y ≠ 0) :
    decide ((-y).val % 2 = 1) = !decide (y.val % 2 = 1) := by
  have hval : (-y).val = prime - y.val := by
    rw [ZMod.neg_val, if_neg h]
  have hlt := ZMod.val_lt y
  have hp : prime % 2 = 1 := by decide
  rw [hval, ← decide_not, decide_eq_decide]
  omega

/-- Both parities occur over a first coordinate. -/
theorem exists_y_of_parity {x y : ZMod prime} (h : y ^ 2 = x ^ 3 + 7) (odd : Bool) :
    ∃ z : ZMod prime, z ^ 2 = x ^ 3 + 7 ∧ decide (z.val % 2 = 1) = odd := by
  by_cases hy : decide (y.val % 2 = 1) = odd
  · exact ⟨y, h, hy⟩
  · refine ⟨-y, by rw [neg_sq, h], ?_⟩
    rw [odd_neg (y_ne_zero h)]
    exact Bool.not_eq.mpr hy

/-- A point by its first coordinate and the parity of the second. -/
def code : Point → Option (ZMod prime × Bool)
  | .zero => none
  | .some x y _ => some (x, decide (y.val % 2 = 1))

theorem code_injective : Function.Injective code := by
  intro P Q h
  cases P with
  | zero =>
      cases Q with
      | zero => rfl
      | some x y hxy => exact absurd h (by simp [code])
  | some x₁ y₁ h₁ =>
      cases Q with
      | zero => exact absurd h (by simp [code])
      | some x₂ y₂ h₂ =>
          simp only [code, Option.some.injEq, Prod.mk.injEq] at h
          obtain ⟨rfl, hodd⟩ := h
          have e₁ := (nonsingular_iff x₁ y₁).mp h₁
          have e₂ := (nonsingular_iff x₁ y₂).mp h₂
          rcases sq_eq_sq_iff_eq_or_eq_neg.mp (e₁.trans e₂.symm) with rfl | rfl
          · rfl
          · rw [odd_neg (y_ne_zero e₂)] at hodd
            exact absurd hodd (Bool.not_ne_self _)

instance : Finite Point := Finite.of_injective code code_injective

theorem card_le : Nat.card Point ≤ 2 * prime + 1 := by
  have h := Nat.card_le_card_of_injective code code_injective
  rw [Finite.card_option, Nat.card_prod, Nat.card_zmod,
    Nat.card_eq_fintype_card (α := Bool), Fintype.card_bool] at h
  omega

theorem addOrderOf_generator : addOrderOf generator = order :=
  addOrderOf_eq_prime order_nsmul_generator generator_ne_zero

theorem eq_neg_iff (P : Point) : P = -P ↔ P = 0 := by
  constructor
  · intro h
    cases P with
    | zero => rfl
    | some x y hxy =>
        rw [WeierstrassCurve.Affine.Point.neg_some, WeierstrassCurve.Affine.Point.some.injEq,
          negY_eq] at h
        exact absurd h.2 (y_ne_neg ((nonsingular_iff x y).mp hxy))
  · rintro rfl
    rfl

theorem card_eq : Nat.card Point = order := by
  obtain ⟨m, hm⟩ : order ∣ Nat.card Point := by
    rw [← addOrderOf_generator]
    exact addOrderOf_dvd_natCard generator
  have hle := card_le
  have hpos : 0 < Nat.card Point := Nat.card_pos
  have hm3 : m < 3 := by
    have hp : 2 * prime + 1 < order * 3 := by decide
    exact Nat.lt_of_mul_lt_mul_left (a := order) (by omega)
  interval_cases m
  · omega
  · rw [hm, mul_one]
  · -- an even number of points would give a point of order two
    have : Fact (Nat.Prime 2) := ⟨Nat.prime_two⟩
    obtain ⟨P, hP⟩ := exists_prime_addOrderOf_dvd_card' 2 (Dvd.intro_left order hm.symm)
    have hdouble : P + P = 0 := by
      rw [← two_nsmul, ← hP]
      exact addOrderOf_nsmul_eq_zero P
    have hzero := (eq_neg_iff P).mp (eq_neg_of_add_eq_zero_left hdouble)
    rw [hzero, addOrderOf_zero] at hP
    exact absurd hP (by decide)

theorem order_nsmul (P : Point) : order • P = 0 := by
  rw [← card_eq]
  exact card_nsmul_eq_zero'

theorem exists_zsmul_generator (P : Point) : ∃ k : ℤ, k • generator = P :=
  AddSubgroup.mem_zmultiples_iff.mp (mem_zmultiples_of_prime_card card_eq generator_ne_zero)

/-- Multiples depend on the residue of the integer only. -/
instance : Module (ZMod order) Point := AddCommGroup.zmodModule order_nsmul

theorem natCast_smul (k : Nat) (P : Point) : (k : ZMod order) • P = k • P :=
  Nat.cast_smul_eq_nsmul (ZMod order) k P

theorem intCast_smul (k : ℤ) (P : Point) : (k : ZMod order) • P = k • P :=
  Int.cast_smul_eq_zsmul (ZMod order) k P

theorem val_nsmul (v : ZMod order) (P : Point) : v.val • P = v • P := by
  rw [← natCast_smul, ZMod.natCast_zmod_val]

theorem smul_generator_eq_zero_iff (v : ZMod order) : v • generator = 0 ↔ v = 0 := by
  rw [smul_eq_zero_iff_left generator_ne_zero]

/-- Multiples of the base point below the order are different. -/
theorem nsmul_generator_injOn : Set.InjOn (fun k : Nat => k • generator) (Set.Iio order) := by
  rw [← addOrderOf_generator]
  exact nsmul_injOn_Iio_addOrderOf

/-- A cube root of unity. -/
def beta : ZMod prime := 0x7AE96A2B657C07106E64479EAC3434E99CF0497512F58995C1396C28719501EE

theorem beta_pow_three : beta ^ 3 = 1 := by decide +kernel

theorem beta_equation {x y : ZMod prime} (h : y ^ 2 = x ^ 3 + 7) :
    y ^ 2 = (beta * x) ^ 3 + 7 := by
  rw [mul_pow, beta_pow_three, one_mul, h]

theorem beta_nonsingular {x y : ZMod prime} (h : curve.Nonsingular x y) :
    curve.Nonsingular (beta * x) y := by
  rw [nonsingular_iff] at h ⊢
  exact beta_equation h

/-- The endomorphism `(x, y) ↦ (βx, y)`. -/
def endomorphism : Point → Point
  | .zero => 0
  | .some _ _ h => .some _ _ (beta_nonsingular h)

theorem represents_endomorphism {c : Coordinates} {P : Point} (h : c.Represents P) :
    Coordinates.Represents ⟨c.x * beta, c.y, c.z⟩ (endomorphism P) := by
  cases h with
  | infinity hz => exact .infinity hz
  | finite hz hx hy => exact .finite hz (by rw [hx]; ring) hy

theorem endomorphism_zero : endomorphism 0 = 0 := rfl

theorem endomorphism_some {x y : ZMod prime} (h : curve.Nonsingular x y) :
    ∃ h', endomorphism (.some x y h) = .some (beta * x) y h' :=
  ⟨_, rfl⟩

theorem beta_ne_zero : beta ≠ 0 := by decide +kernel

theorem slope_beta {x₁ x₂ y₁ y₂ : ZMod prime} (h : ¬(x₁ = x₂ ∧ y₁ = -y₂)) :
    curve.slope (beta * x₁) (beta * x₂) y₁ y₂ = beta ^ 2 * curve.slope x₁ x₂ y₁ y₂ := by
  by_cases hx : x₁ = x₂
  · have hy : y₁ ≠ curve.negY x₂ y₂ := by
      rw [negY_eq]
      exact fun hy => h ⟨hx, hy⟩
    have hy' : y₁ ≠ curve.negY (beta * x₂) y₂ := by
      rw [negY_eq] at hy ⊢
      exact hy
    rw [WeierstrassCurve.Affine.slope_of_Y_ne (congrArg (beta * ·) hx) hy',
      WeierstrassCurve.Affine.slope_of_Y_ne hx hy, negY_eq, negY_eq]
    simp only [curve, zero_mul, mul_zero, add_zero, sub_zero]
    rw [mul_pow, mul_left_comm, mul_div_assoc]
  · have hbx : beta * x₁ ≠ beta * x₂ := fun e => hx (mul_left_cancel₀ beta_ne_zero e)
    have hd : x₁ - x₂ ≠ 0 := sub_ne_zero.mpr hx
    rw [WeierstrassCurve.Affine.slope_of_X_ne hbx, WeierstrassCurve.Affine.slope_of_X_ne hx,
      ← mul_sub, div_eq_iff (mul_ne_zero beta_ne_zero hd), mul_div_assoc', div_mul_eq_mul_div,
      eq_div_iff hd]
    linear_combination (-((y₁ - y₂) * (x₁ - x₂))) * beta_pow_three

theorem endomorphism_add (P Q : Point) :
    endomorphism (P + Q) = endomorphism P + endomorphism Q := by
  cases P with
  | zero =>
      change endomorphism (0 + Q) = endomorphism 0 + endomorphism Q
      rw [zero_add, endomorphism_zero, zero_add]
  | some x₁ y₁ h₁ =>
      cases Q with
      | zero =>
          change endomorphism (_ + 0) = _ + endomorphism 0
          rw [add_zero, endomorphism_zero, add_zero]
      | some x₂ y₂ h₂ =>
          obtain ⟨h₁', e₁⟩ := endomorphism_some h₁
          obtain ⟨h₂', e₂⟩ := endomorphism_some h₂
          rw [e₁, e₂]
          by_cases hxy : x₁ = x₂ ∧ y₁ = -y₂
          · have hy : y₁ = curve.negY x₂ y₂ := by rw [negY_eq, hxy.2]
            have hy' : y₁ = curve.negY (beta * x₂) y₂ := by rw [negY_eq, hxy.2]
            rw [WeierstrassCurve.Affine.Point.add_of_Y_eq hxy.1 hy,
              WeierstrassCurve.Affine.Point.add_of_Y_eq (congrArg (beta * ·) hxy.1) hy',
              endomorphism_zero]
          · have hn : ¬(x₁ = x₂ ∧ y₁ = curve.negY x₂ y₂) := by
              rw [negY_eq]
              exact hxy
            have hn' : ¬(beta * x₁ = beta * x₂ ∧ y₁ = curve.negY (beta * x₂) y₂) := by
              rw [negY_eq]
              exact fun e => hxy ⟨mul_left_cancel₀ beta_ne_zero e.1, e.2⟩
            rw [WeierstrassCurve.Affine.Point.add_some hn,
              WeierstrassCurve.Affine.Point.add_some hn']
            obtain ⟨h₃, e₃⟩ := endomorphism_some
              (WeierstrassCurve.Affine.nonsingular_add h₁ h₂ hn)
            rw [e₃, WeierstrassCurve.Affine.Point.some.injEq, addX_eq, addX_eq, addY_eq, addY_eq,
              slope_beta hxy]
            generalize curve.slope x₁ x₂ y₁ y₂ = l
            constructor
            · linear_combination (-(beta * l ^ 2)) * beta_pow_three
            · linear_combination (l ^ 3 * (beta ^ 3 + 1) - l * (2 * x₁ + x₂)) * beta_pow_three

/-- The eigenvalue as an integer. -/
def lambdaNat : Nat := order - Scalar.minusLambda.toNat

theorem cast_lambdaNat : (lambdaNat : ZMod order) = lambda := by
  rw [lambdaNat, Nat.cast_sub (by decide), ZMod.natCast_self, zero_sub]
  rfl

theorem endomorphism_generator : endomorphism generator = lambda • generator := by
  have hm := Coordinates.represents_multiple represents_generator 256 lambdaNat (by decide)
  have he : Coordinates.Represents ⟨beta * generatorCoordinates.x, generatorCoordinates.y, 1⟩
      (endomorphism generator) :=
    Coordinates.represents_point (beta_equation generator_equation)
  have hz : (generatorCoordinates.multiple 256 lambdaNat).z ≠ 0 := by decide +kernel
  have hx : Coordinates.differenceX
      ⟨beta * generatorCoordinates.x, generatorCoordinates.y, 1⟩
      (generatorCoordinates.multiple 256 lambdaNat) = 0 := by decide +kernel
  have hy : Coordinates.differenceY
      ⟨beta * generatorCoordinates.x, generatorCoordinates.y, 1⟩
      (generatorCoordinates.multiple 256 lambdaNat) = 0 := by decide +kernel
  rw [← cast_lambdaNat, natCast_smul]
  refine (Coordinates.eq_iff_differences he hm ?_ ?_).mpr ⟨hx, hy⟩
  · exact WeierstrassCurve.Affine.Point.some_ne_zero _
  · exact fun h => hz ((Coordinates.z_eq_zero_iff hm).mpr h)

/-- The endomorphism multiplies every point by the eigenvalue. -/
theorem endomorphism_eq (P : Point) : endomorphism P = lambda • P := by
  obtain ⟨k, rfl⟩ := exists_zsmul_generator P
  have hk : endomorphism (k • generator) = k • endomorphism generator :=
    map_zsmul (AddMonoidHom.mk' endomorphism endomorphism_add) k generator
  rw [hk, endomorphism_generator, ← intCast_smul, smul_comm, intCast_smul]

end CurveKeys.Secp256k1.Curve
