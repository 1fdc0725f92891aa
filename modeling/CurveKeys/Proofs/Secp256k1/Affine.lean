import CurveKeys.Proofs.Secp256k1.Jacobian

/-!
Affine points in limbs. Coordinates are canonical, so a point of the curve has one affine form; a
first coordinate and a parity lead back to the only point that has both.
-/

namespace CurveKeys.Secp256k1

namespace AffinePoint
open FieldElement Curve

/-- The pair stands for a point of the curve, infinity being `(0, 0)`. -/
inductive Denotes (p : AffinePoint) : Point → Prop where
  | infinity (h : p = identity) : p.Denotes 0
  | finite {x y : ZMod prime} {h : curve.Nonsingular x y} (canonicalX : p.x.Canonical)
      (canonicalY : p.y.Canonical) (residueX : p.x.residue = x) (residueY : p.y.residue = y) :
      p.Denotes (.some x y h)

theorem residue_of_toNat {a : FieldElement} {n : Nat} (h : a.toNat = n) :
    a.residue = (n : ZMod prime) := by
  rw [residue, h]

theorem denotes_generator : generator.Denotes Curve.generator := by
  refine .finite ⟨?_, ?_⟩ ⟨?_, ?_⟩ ?_ ?_
  · rw [carried_iff]
    decide
  · rw [toNat_generator_x]
    decide
  · rw [carried_iff]
    decide
  · rw [toNat_generator_y]
    decide
  · rw [residue_of_toNat toNat_generator_x, Nat.cast_ofNat]
  · rw [residue_of_toNat toNat_generator_y, Nat.cast_ofNat]

theorem isIdentity_iff {p : AffinePoint} {P : Point} (h : p.Denotes P) :
    p.isIdentity = true ↔ P = 0 := by
  cases h with
  | infinity hp =>
      rw [hp]
      exact ⟨fun _ => rfl, fun _ => rfl⟩
  | @finite x y hxy cx cy ex ey =>
      rw [isIdentity, Bool.and_eq_true, isZero_iff cx, isZero_iff cy, ex, ey]
      constructor
      · rintro ⟨-, hy⟩
        exact absurd hy (y_ne_zero ((nonsingular_iff x y).mp hxy))
      · intro h
        exact absurd h (WeierstrassCurve.Affine.Point.some_ne_zero hxy)

/-- The affine form of a point is unique. -/
theorem eq_of_denotes {p q : AffinePoint} {P : Point} (hp : p.Denotes P) (hq : q.Denotes P) :
    p = q := by
  cases hp with
  | infinity ep =>
      cases hq with
      | infinity eq => rw [ep, eq]
  | finite cpx cpy rpx rpy =>
      cases hq with
      | finite cqx cqy rqx rqy =>
          have hx := eq_of_residue_eq cpx cqx (rpx.trans rqx.symm)
          have hy := eq_of_residue_eq cpy cqy (rpy.trans rqy.symm)
          cases p
          cases q
          rw [mk.injEq]
          exact ⟨hx, hy⟩

/-- A pair stands for one point only. -/
theorem point_eq_of_denotes {p : AffinePoint} {P Q : Point} (hP : p.Denotes P)
    (hQ : p.Denotes Q) : P = Q := by
  have hPi := isIdentity_iff hP
  have hQi := isIdentity_iff hQ
  cases hP with
  | infinity ep => exact (hQi.mp (hPi.mpr rfl)).symm
  | finite cpx cpy rpx rpy =>
      cases hQ with
      | infinity eq => exact hPi.mp (hQi.mpr rfl)
      | finite cqx cqy rqx rqy =>
          rw [WeierstrassCurve.Affine.Point.some.injEq]
          exact ⟨rpx.symm.trans rqx, rpy.symm.trans rqy⟩

theorem denotes_seven : seven.Denotes 1 7 := by
  have hv : seven.toNat = 7 := by decide
  exact ⟨by constructor <;> decide, by rw [residue_of_toNat hv, Nat.cast_ofNat]⟩

theorem denotes_rhs {x : FieldElement} {v : ZMod prime} (h : x.Denotes 1 v) :
    ((x.square.mul x).add seven).Denotes 2 (v ^ 3 + 7) :=
  denotes_congr (denotes_add (denotes_mul (denotes_square h) h) denotes_seven) (by ring)

theorem isOnCurve_iff {p : AffinePoint} {x y : ZMod prime} (hx : p.x.Denotes 1 x)
    (hy : p.y.Denotes 1 y) : p.isOnCurve = true ↔ y ^ 2 = x ^ 3 + 7 := by
  have h := denotes_add (denotes_negate 1 (denotes_square hy)) (denotes_rhs hx)
  have hz := isZeroResidue_iff h
  rw [neg_add_eq_zero] at hz
  exact hz

theorem denotes_ofCoordinates? {x y : FieldElement} {m k : Nat} {v w : ZMod prime}
    (hx : x.Denotes m v) (hy : y.Denotes k w) (hm : m ≤ 31) (hk : k ≤ 31) {p : AffinePoint}
    (h : ofCoordinates? x y = some p) : ∃ e : w ^ 2 = v ^ 3 + 7, p.Denotes (point v w e) := by
  have hx' := denotes_normalize hx hm
  have hy' := denotes_normalize hy hk
  have hcurve := isOnCurve_iff (p := ⟨x.normalize, y.normalize⟩) hx' hy'
  unfold ofCoordinates? at h
  extract_lets q at h
  by_cases hq : q.isOnCurve = true
  · rw [if_pos hq] at h
    obtain rfl := Option.some.inj h
    exact ⟨hcurve.mp hq, .finite (canonical_normalize hx hm) (canonical_normalize hy hk)
      hx'.residue hy'.residue⟩
  · rw [if_neg hq] at h
    exact absurd h (Option.some_ne_none p).symm

theorem exists_coordinates {p : AffinePoint} {P : Point} (h : p.Denotes P) (hP : P ≠ 0) :
    ∃ x y hxy, P = .some x y hxy ∧ p.x.Canonical ∧ p.y.Canonical ∧ p.x.residue = x ∧
      p.y.residue = y := by
  cases h with
  | infinity _ => exact absurd rfl hP
  | finite cx cy ex ey => exact ⟨_, _, _, rfl, cx, cy, ex, ey⟩

/-- The coordinates of a point are accepted and give it back. -/
theorem ofCoordinates?_eq {p : AffinePoint} {x y : ZMod prime} {h : curve.Nonsingular x y}
    (hp : p.Denotes (.some x y h)) : ofCoordinates? p.x p.y = some p := by
  obtain ⟨x', y', h', e, cx, cy, rx, ry⟩ :=
    exists_coordinates hp (WeierstrassCurve.Affine.Point.some_ne_zero h)
  have hcurve := (isOnCurve_iff cx.denotes cy.denotes).mpr (by
    rw [rx, ry]
    exact (nonsingular_iff x' y').mp h')
  rw [ofCoordinates?, normalize_eq_self cx, normalize_eq_self cy]
  exact if_pos hcurve

theorem denotes_negate_affine {p : AffinePoint} {P : Point} (h : p.Denotes P) (hP : P ≠ 0) :
    p.negate.Denotes (-P) := by
  cases h with
  | infinity _ => exact absurd rfl hP
  | finite cx cy ex ey =>
      have hy := denotes_negate 1 cy.denotes
      rw [ey] at hy
      have cy' := canonical_normalize hy
      have ry' := (denotes_normalize hy).residue
      rw [← negY_eq] at ry'
      unfold negate
      exact .finite cx cy' ex ry'

/-- The canonical root of the given parity. -/
theorem yOf?_spec {x : FieldElement} {v y : ZMod prime} (hx : x.Denotes 1 v)
    (h : y ^ 2 = v ^ 3 + 7) :
    ∃ r, yOf? x (decide (y.val % 2 = 1)) = some r ∧ r.Canonical ∧ r.residue = y := by
  classical
  have hrhs := denotes_rhs hx
  have hsquare : IsSquare (v ^ 3 + 7) := ⟨y, by rw [← h, pow_two]⟩
  have hroot := denotes_rootCandidate hrhs
  have hsqrt := sqrt?_eq hrhs
  rw [if_pos hsquare] at hsqrt
  generalize ((x.square.mul x).add seven).rootCandidate = root at hroot hsqrt
  have hr := denotes_normalize hroot
  have cr := canonical_normalize hroot
  have hn := denotes_negate 1 hr
  have hodd := isOdd_eq cr
  rw [yOf?, hsqrt]
  simp only [Option.map_some, Option.some.injEq, exists_eq_left']
  rw [hodd, hr.residue]
  rcases sq_eq_sq_iff_eq_or_eq_neg.mp ((pow_quarter_sq hsquare).trans h.symm) with hy | hy
  · rw [hy, bne_self_eq_false, select, if_neg Bool.false_ne_true]
    exact ⟨cr, hr.residue.trans hy⟩
  · have cn := canonical_normalize hn
    have rn := (denotes_normalize hn).residue
    rw [hy, neg_neg] at rn
    rw [hy, odd_neg (y_ne_zero h), Bool.not_bne_self, select, if_pos rfl]
    exact ⟨cn, rn⟩

theorem decompress?_some {x : FieldElement} {m : Nat} {v y : ZMod prime} (hx : x.Denotes m v)
    (hm : m ≤ 31) (h : y ^ 2 = v ^ 3 + 7) :
    ∃ p, decompress? x (decide (y.val % 2 = 1)) = some p ∧ p.Denotes (point v y h) := by
  have hx' := denotes_normalize hx hm
  obtain ⟨r, hr, cr, er⟩ := yOf?_spec hx' h
  refine ⟨⟨x.normalize, r⟩, ?_, .finite (canonical_normalize hx hm) cr hx'.residue er⟩
  rw [decompress?, hr, Option.map_some]

/-- The first coordinate of a point and the parity of the second give it back. -/
theorem decompress?_eq {p : AffinePoint} {x y : ZMod prime} {h : curve.Nonsingular x y}
    (hp : p.Denotes (.some x y h)) : decompress? p.x (decide (y.val % 2 = 1)) = some p := by
  obtain ⟨x', y', h', e, cx, -, rfl, -⟩ :=
    exists_coordinates hp (WeierstrassCurve.Affine.Point.some_ne_zero h)
  rw [WeierstrassCurve.Affine.Point.some.injEq] at e
  obtain ⟨rfl, rfl⟩ := e
  obtain ⟨q, hq, hd⟩ := decompress?_some cx.denotes (by decide) ((nonsingular_iff _ _).mp h)
  rw [hq, eq_of_denotes hd hp]

theorem decompress?_none {x : FieldElement} {m : Nat} {v : ZMod prime} (hx : x.Denotes m v)
    (hm : m ≤ 31) (h : ∀ y, y ^ 2 ≠ v ^ 3 + 7) (odd : Bool) : decompress? x odd = none := by
  classical
  have hrhs := denotes_rhs (denotes_normalize hx hm)
  have hsquare : ¬ IsSquare (v ^ 3 + 7) := by
    rintro ⟨y, hy⟩
    exact h y (by rw [hy, pow_two])
  rw [decompress?, yOf?, sqrt?_eq hrhs, if_neg hsquare]
  rfl

/-- What decompression returns has the first coordinate and the parity it was asked for. -/
theorem denotes_of_decompress? {x : FieldElement} {m : Nat} {v : ZMod prime}
    (hx : x.Denotes m v) (hm : m ≤ 31) {odd : Bool} {p : AffinePoint}
    (h : decompress? x odd = some p) :
    ∃ (y : ZMod prime) (e : y ^ 2 = v ^ 3 + 7), p.Denotes (point v y e) ∧
      decide (y.val % 2 = 1) = odd := by
  by_cases hy : ∃ y, y ^ 2 = v ^ 3 + 7
  · obtain ⟨y, hy⟩ := hy
    obtain ⟨z, hz, hodd⟩ := exists_y_of_parity hy odd
    obtain ⟨q, hq, hd⟩ := decompress?_some hx hm hz
    rw [hodd, h] at hq
    obtain rfl := Option.some.inj hq
    exact ⟨z, hz, hd, hodd⟩
  · rw [decompress?_none hx hm (fun y e => hy ⟨y, e⟩) odd] at h
    exact absurd h (Option.some_ne_none p).symm

end AffinePoint

namespace JacobianPoint
open FieldElement Curve

theorem denotes_ofAffine {p : AffinePoint} {P : Point} (h : p.Denotes P) :
    (ofAffine p).Denotes P := by
  have hi := AffinePoint.isIdentity_iff h
  rw [ofAffine]
  cases h with
  | infinity hp =>
      rw [if_pos (hi.mpr rfl)]
      exact denotes_identity
  | @finite _ _ hxy cx cy ex ey =>
      rw [if_neg fun e => WeierstrassCurve.Affine.Point.some_ne_zero _ (hi.mp e)]
      have hx := cx.denotes
      have hy := cy.denotes
      rw [ex] at hx
      rw [ey] at hy
      exact denotes_of_coordinates (c := ⟨_, _, 1⟩) hx hy denotes_one
        (Coordinates.represents_point ((nonsingular_iff _ _).mp hxy))

theorem denotes_generator : generator.Denotes Curve.generator := by
  have h := denotes_ofAffine AffinePoint.denotes_generator
  have hi : ¬ AffinePoint.generator.isIdentity = true := by decide
  rw [ofAffine, if_neg hi] at h
  exact h

theorem denotes_toAffine {p : JacobianPoint} {P : Point} (h : p.Denotes P) :
    p.toAffine.Denotes P := by
  obtain ⟨hx, hy, hz⟩ := holds_coordinates h
  have hrep := h.represents
  generalize p.coordinates = c at hx hy hz hrep
  unfold toAffine
  extract_lets zinv zinv2
  have hi : zinv.Denotes 1 c.z⁻¹ := denotes_invert hz
  have hi2 : zinv2.Denotes 1 (c.z⁻¹ ^ 2) := denotes_square hi
  have hX := denotes_mul hx hi2
  have hY := denotes_mul (denotes_mul hy hi2) hi
  have cX := canonical_normalize hX
  have cY := canonical_normalize hY
  have rX := (denotes_normalize hX).residue
  have rY := (denotes_normalize hY).residue
  cases hrep with
  | infinity hz0 =>
      apply AffinePoint.Denotes.infinity
      rw [hz0, inv_zero, zero_pow (by decide), mul_zero] at rX
      rw [hz0, inv_zero, mul_zero] at rY
      rw [eq_of_residue_eq cX canonical_zero (rX.trans denotes_zero.residue.symm),
        eq_of_residue_eq cY canonical_zero (rY.trans denotes_zero.residue.symm)]
      rfl
  | finite hz0 ex ey =>
      refine .finite cX cY (rX.trans ?_) (rY.trans ?_)
      · rw [ex]
        field_simp
      · rw [ey]
        field_simp

end JacobianPoint

end CurveKeys.Secp256k1
