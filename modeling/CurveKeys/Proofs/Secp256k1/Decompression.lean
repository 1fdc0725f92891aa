import CurveKeys.Proofs.Secp256k1.Affine

/-!
Decompression of affine points. Over a first coordinate there is no point of the curve, or there are
two opposite ones; their second coordinates differ in parity, since none of them is zero, and the
parity asked for picks the one that is returned.
-/

namespace CurveKeys.Secp256k1.AffinePoint
open FieldElement Curve

/-- A point of the curve other than infinity, in canonical coordinates. -/
structure OnCurve (p : AffinePoint) : Prop where
  x : p.x.Canonical
  y : p.y.Canonical
  equation : curve.Equation p.x.residue p.y.residue

theorem OnCurve.sq_y {p : AffinePoint} (h : p.OnCurve) :
    p.y.residue ^ 2 = p.x.residue ^ 3 + 7 :=
  (equation_iff _ _).mp h.equation

theorem OnCurve.denotes {p : AffinePoint} (h : p.OnCurve) :
    p.Denotes (point p.x.residue p.y.residue h.sq_y) :=
  .finite h.x h.y rfl rfl

theorem onCurve_of_denotes {p : AffinePoint} {v y : ZMod prime} {e : y ^ 2 = v ^ 3 + 7}
    (h : p.Denotes (point v y e)) : p.OnCurve ∧ p.x.residue = v ∧ p.y.residue = y := by
  obtain ⟨x', y', h', hP, cx, cy, rfl, rfl⟩ :=
    exists_coordinates h (WeierstrassCurve.Affine.Point.some_ne_zero _)
  rw [point, WeierstrassCurve.Affine.Point.some.injEq] at hP
  exact ⟨⟨cx, cy, h'.1⟩, hP.1.symm, hP.2.symm⟩

/-- Decompression returns the only point with this first coordinate and this parity. -/
theorem decompress?_eq_some_iff {x : FieldElement} {m : Nat} {v : ZMod prime} (hx : x.Denotes m v)
    (hm : m ≤ 31) (odd : Bool) (p : AffinePoint) :
    decompress? x odd = some p ↔ p.OnCurve ∧ p.x.residue = v ∧ p.y.isOdd = odd := by
  constructor
  · intro h
    obtain ⟨y, e, hp, hodd⟩ := denotes_of_decompress? hx hm h
    obtain ⟨hcurve, rx, ry⟩ := onCurve_of_denotes hp
    rw [← ry, ← isOdd_eq hcurve.y] at hodd
    exact ⟨hcurve, rx, hodd⟩
  · rintro ⟨hcurve, rfl, rfl⟩
    obtain ⟨q, hq, hd⟩ := decompress?_some hx hm hcurve.sq_y
    rw [← isOdd_eq hcurve.y] at hq
    rw [hq, eq_of_denotes hd hcurve.denotes]

theorem exists_decompress?_iff {x : FieldElement} {m : Nat} {v : ZMod prime} (hx : x.Denotes m v)
    (hm : m ≤ 31) (odd : Bool) :
    (∃ p, decompress? x odd = some p) ↔ ∃ y, curve.Equation v y := by
  constructor
  · rintro ⟨p, hp⟩
    obtain ⟨hcurve, rfl, -⟩ := (decompress?_eq_some_iff hx hm odd p).mp hp
    exact ⟨_, hcurve.equation⟩
  · rintro ⟨y, hy⟩
    obtain ⟨z, hz, rfl⟩ := exists_y_of_parity ((equation_iff v y).mp hy) odd
    obtain ⟨p, hp, -⟩ := decompress?_some hx hm hz
    exact ⟨p, hp⟩

theorem OnCurve.negate {p : AffinePoint} (h : p.OnCurve) :
    p.negate.OnCurve ∧ p.negate.x = p.x ∧ p.negate.y.isOdd = !p.y.isOdd := by
  have hy := denotes_negate 1 h.y.denotes
  have cy := canonical_normalize hy
  have ry := (denotes_normalize hy).residue
  unfold AffinePoint.negate
  refine ⟨⟨h.x, cy, ?_⟩, rfl, ?_⟩
  · rw [ry, equation_iff, neg_sq]
    exact h.sq_y
  · rw [isOdd_eq cy, isOdd_eq h.y, ry, odd_neg (y_ne_zero h.sq_y)]

/-- The other parity gives the opposite point. -/
theorem decompress?_not {x : FieldElement} {m : Nat} {v : ZMod prime} (hx : x.Denotes m v)
    (hm : m ≤ 31) {odd : Bool} {p : AffinePoint} (h : decompress? x odd = some p) :
    decompress? x (!odd) = some p.negate := by
  obtain ⟨hcurve, rx, rfl⟩ := (decompress?_eq_some_iff hx hm odd p).mp h
  obtain ⟨hneg, hsame, hodd⟩ := hcurve.negate
  rw [← hsame] at rx
  exact (decompress?_eq_some_iff hx hm _ _).mpr ⟨hneg, rx, hodd⟩

/-- Decompression succeeds over the first coordinates of points only, and then returns the one point
that has this first coordinate and the parity asked for. The other parity gives the opposite point,
and every point comes back from its first coordinate and its parity. -/
theorem decompress_exact :
    (∀ (x : FieldElement) (odd : Bool), x.Magnitude 31 →
      ((∃ p, decompress? x odd = some p) ↔ ∃ y, curve.Equation x.residue y) ∧
      (∀ p, decompress? x odd = some p ↔
        p.OnCurve ∧ p.x.residue = x.residue ∧ p.y.isOdd = odd) ∧
      ∀ p, decompress? x odd = some p →
        decompress? x (!odd) = some p.negate ∧
        ∃ P : Point, p.Denotes P ∧ p.negate.Denotes (-P)) ∧
    ∀ p : AffinePoint, p.OnCurve → decompress? p.x p.y.isOdd = some p := by
  constructor
  · intro x odd hx
    have hd : x.Denotes 31 x.residue := ⟨hx, rfl⟩
    refine ⟨exists_decompress?_iff hd le_rfl odd, decompress?_eq_some_iff hd le_rfl odd, ?_⟩
    intro p hp
    have hP := ((decompress?_eq_some_iff hd le_rfl odd p).mp hp).1.denotes
    exact ⟨decompress?_not hd le_rfl hp, _, hP,
      denotes_negate_affine hP (WeierstrassCurve.Affine.Point.some_ne_zero _)⟩
  · intro p hp
    exact (decompress?_eq_some_iff hp.x.denotes (by decide) _ p).mpr ⟨hp, rfl, rfl⟩

/-- The base point, its first coordinate taken on top of sixty times the modulus. -/
theorem decompress_exact_of_unreduced :
    let x := (modulus.mulInt 60).add generator.x
    x.Magnitude 31 ∧ generator.OnCurve ∧ decompress? generator.x false = some generator ∧
      decompress? x false = some generator ∧ decompress? x true = some generator.negate := by
  intro x
  have hx : x.Magnitude 31 := by constructor <;> decide
  have hg : generator.OnCurve := (onCurve_of_denotes denotes_generator).1
  have hr : generator.x.residue = x.residue := by
    have h : generator.x.toNat ≡ x.toNat [MOD prime] := by decide
    exact (ZMod.natCast_eq_natCast_iff _ _ _).mpr h
  have hodd : generator.y.isOdd = false := by decide
  obtain ⟨hover, hback⟩ := decompress_exact
  obtain ⟨-, heven, hother⟩ := hover x false hx
  have hself := hback generator hg
  rw [hodd] at hself
  have hxg := (heven generator).mpr ⟨hg, hr, hodd⟩
  exact ⟨hx, hg, hself, hxg, (hother generator hxg).1⟩

end CurveKeys.Secp256k1.AffinePoint
