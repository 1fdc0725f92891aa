import CurveKeys.Proofs.Edwards25519.Field.Expression

/-!
Inverses, root powers and roots of quotients as their bytes show them. The powers are exact for all
elements within the bound on limbs, and the root of a quotient is the only non-negative element that
answers the case at hand.
-/

namespace CurveKeys.Edwards25519.FieldElement
open FieldExpression (carried_eval words)

/-- The bytes of an element that denotes a power spell the power of the limbs, reduced. -/
theorem toNatLE_pow {a b : FieldElement} {n : Nat} (h : b.Denotes (a.residue ^ n)) :
    Bytes.toNatLE b.toBytes.toList = a.toNat ^ n % prime := by
  rw [toNatLE_toBytes h.residue, residue, ← Nat.cast_pow, ZMod.val_natCast]

/-- For every element the two chains are exact powers, the first of which inverts. -/
theorem powers_exact :
    prime = 2 ^ 255 - 19 ∧ (∀ e : FieldExpression, (e.eval words).Carried) ∧
      ∀ a : FieldElement, a.Carried →
        a.invert? = some a.invert ∧ a.rootPower? = some a.rootPower ∧
        Bytes.toNatLE a.invert.toBytes.toList = a.toNat ^ (prime - 2) % prime ∧
        Bytes.toNatLE a.rootPower.toBytes.toList = a.toNat ^ (2 ^ 252 - 3) % prime ∧
        ((a == zero) = false → (a.mul a.invert == one) = true) ∧
        ((a == zero) = true → (a.invert == zero) = true) := by
  refine ⟨by decide, carried_eval, fun a ha => ?_⟩
  have hd : a.Denotes a.residue := ⟨ha, rfl⟩
  have hi := denotes_invert hd
  have hzero : (a == zero) = true ↔ a.residue = 0 := beq_iff rfl denotes_zero.residue
  refine ⟨invert?_eq ha, rootPower?_eq ha, toNatLE_pow (denotes_invert_pow hd),
    toNatLE_pow (denotes_rootPower_pow hd), fun hne => ?_, fun he => ?_⟩
  · have hne : a.residue ≠ 0 := fun e => Bool.eq_false_iff.mp hne (hzero.mpr e)
    exact (beq_iff (denotes_mul hd hi).residue denotes_one.residue).mpr (mul_inv_cancel₀ hne)
  · apply (beq_iff hi.residue denotes_zero.residue).mpr
    rw [hzero.mp he, inv_zero]

/-- The largest limbs within the bound, and zero as the limbs of the modulus. -/
theorem powers_exact_at_bound :
    let a : FieldElement :=
      ⟨0x800000003FFFF, 0x800000003FFFF, 0x800000003FFFF, 0x800000003FFFF, 0x800000003FFFF⟩
    let z : FieldElement :=
      ⟨0x7FFFFFFFFFFED, 0x7FFFFFFFFFFFF, 0x7FFFFFFFFFFFF, 0x7FFFFFFFFFFFF, 0x7FFFFFFFFFFFF⟩
    a.Carried ∧ z.Carried ∧ (a == zero) = false ∧ (z == zero) = true ∧
      a.invert? = some a.invert ∧ (a.mul a.invert == one) = true ∧
      z.invert? = some z.invert ∧ (z.invert == zero) = true := by
  intro a z
  have ha : a.Carried := by decide
  have hz : z.Carried := by decide
  have hne : (a == zero) = false := by decide +kernel
  have he : (z == zero) = true := by decide +kernel
  obtain ⟨-, -, h⟩ := powers_exact
  obtain ⟨hca, -, -, -, hone, -⟩ := h a ha
  obtain ⟨hcz, -, -, -, -, hzero⟩ := h z hz
  exact ⟨ha, hz, hne, he, hca, hone hne, hcz, hzero he⟩

variable {u v r s : ZMod prime} {square flag : Bool}

/-- The four cases of a root of `u / v`. -/
structure RatioCases (u v r : ZMod prime) (square : Bool) : Prop where
  zero : u = 0 → r = 0 ∧ square = true
  infinite : u ≠ 0 → v = 0 → r = 0 ∧ square = false
  root : u ≠ 0 → v ≠ 0 → IsSquare (u / v) → v * r ^ 2 = u ∧ square = true
  turned : v ≠ 0 → ¬IsSquare (u / v) → v * r ^ 2 = rootMinusOne * u ∧ square = false

theorem RatioRoot.square_eq_false (h : RatioRoot u v r square) (hu : u ≠ 0)
    (hv : ¬(v ≠ 0 ∧ IsSquare (u / v))) : square = false :=
  Bool.eq_false_iff.mpr fun hs => (h.square_iff.mp hs).elim hu hv

theorem RatioRoot.cases (h : RatioRoot u v r square) : RatioCases u v r square where
  zero hu := ⟨h.zero (Or.inl hu), h.square_iff.mpr (Or.inl hu)⟩
  infinite hu hv := ⟨h.zero (Or.inr hv), h.square_eq_false hu fun hs => hs.1 hv⟩
  root hu hv hs := by
    have hsquare := h.square_iff.mpr (Or.inr ⟨hv, hs⟩)
    have hroot := h.root hv
    rw [if_pos hsquare] at hroot
    exact ⟨hroot, hsquare⟩
  turned hv hs := by
    have hu : u ≠ 0 := by
      rintro rfl
      exact hs (by rw [zero_div]; exact IsSquare.zero)
    have hsquare := h.square_eq_false hu fun hn => hs hn.2
    have hroot := h.root hv
    rw [hsquare, if_neg Bool.false_ne_true] at hroot
    exact ⟨hroot, hsquare⟩

/-- Of the two roots of a square only one is even. -/
theorem eq_of_even_of_sq_eq (hr : r.val % 2 = 0) (hs : s.val % 2 = 0) (h : r ^ 2 = s ^ 2) :
    r = s := by
  rcases sq_eq_sq_iff_eq_or_eq_neg.mp h with h | h
  · exact h
  · by_cases hzero : s = 0
    · rw [h, hzero, neg_zero]
    · have hodd := (odd_neg hzero).mpr hs
      rw [← h] at hodd
      omega

theorem RatioCases.unique (h : RatioCases u v r square) (h' : RatioCases u v s flag)
    (hr : r.val % 2 = 0) (hs : s.val % 2 = 0) : r = s ∧ square = flag := by
  have join {w : ZMod prime} {c : Bool} (hv : v ≠ 0) (h : v * r ^ 2 = w ∧ square = c)
      (h' : v * s ^ 2 = w ∧ flag = c) : r = s ∧ square = flag :=
    ⟨eq_of_even_of_sq_eq hr hs (mul_left_cancel₀ hv (h.1.trans h'.1.symm)), h.2.trans h'.2.symm⟩
  by_cases hu : u = 0
  · exact ⟨(h.zero hu).1.trans (h'.zero hu).1.symm, (h.zero hu).2.trans (h'.zero hu).2.symm⟩
  · by_cases hv : v = 0
    · have e := h.infinite hu hv
      have e' := h'.infinite hu hv
      exact ⟨e.1.trans e'.1.symm, e.2.trans e'.2.symm⟩
    · by_cases hsq : IsSquare (u / v)
      · exact join hv (h.root hu hv hsq) (h'.root hu hv hsq)
      · exact join hv (h.turned hv hsq) (h'.turned hv hsq)

theorem isNegative_eq_false_iff {a : FieldElement} :
    a.isNegative = false ↔ a.residue.val % 2 = 0 := by
  rw [isNegative_eq rfl, decide_eq_false_iff_not]
  omega

/-- Every pair of elements has a root of its quotient. It is not negative, answers the case of the
pair, and is alone in this; the flag tells whether the quotient is a square. -/
theorem sqrtRatio_exact :
    (∀ e : FieldExpression, (e.eval words).Carried) ∧
      rootMinusOne ^ 2 = -1 ∧ rootMinusOne.val % 2 = 0 ∧
      ∀ a b : FieldElement, a.Carried → b.Carried →
        sqrtRatio? a b = some (sqrtRatio a b) ∧
        (sqrtRatio a b).1.Carried ∧ (sqrtRatio a b).1.isNegative = false ∧
        RatioCases a.residue b.residue (sqrtRatio a b).1.residue (sqrtRatio a b).2 ∧
        (∀ (c : FieldElement) (flag : Bool), c.isNegative = false →
          RatioCases a.residue b.residue c.residue flag →
          (c == (sqrtRatio a b).1) = true ∧ flag = (sqrtRatio a b).2) ∧
        ((sqrtRatio a b).2 = true ↔
          a.residue = 0 ∨ b.residue ≠ 0 ∧ IsSquare (a.residue / b.residue)) := by
  refine ⟨carried_eval, sq_rootMinusOne, by decide +kernel, fun a b ha hb => ?_⟩
  obtain ⟨r, hd, hroot⟩ := denotes_sqrtRatio (a := a) (b := b) ⟨ha, rfl⟩ ⟨hb, rfl⟩
  obtain rfl := hd.residue
  refine ⟨sqrtRatio?_eq ha hb, hd.carried, isNegative_eq_false_iff.mpr hroot.even, hroot.cases,
    fun c flag hc hcases => ?_, hroot.square_iff⟩
  obtain ⟨he, hflag⟩ := hcases.unique hroot.cases (isNegative_eq_false_iff.mp hc) hroot.even
  exact ⟨(beq_iff rfl rfl).mpr he, hflag⟩

theorem not_isSquare_two : ¬IsSquare (2 : ZMod prime) := by
  rw [ZMod.exists_sq_eq_two_iff (by decide)]
  decide

/-- Two is not a square, and zero stands in the limbs of the modulus. -/
theorem sqrtRatio_exact_of_two :
    let two := one.add one
    let z : FieldElement :=
      ⟨0x7FFFFFFFFFFED, 0x7FFFFFFFFFFFF, 0x7FFFFFFFFFFFF, 0x7FFFFFFFFFFFF, 0x7FFFFFFFFFFFF⟩
    two.Carried ∧ one.Carried ∧ z.Carried ∧
      (sqrtRatio two one).1.isNegative = false ∧ (sqrtRatio two one).2 = false ∧
      (sqrtRatio two one).1.residue ^ 2 = rootMinusOne * 2 ∧
      (sqrtRatio two z).1.residue = 0 ∧ (sqrtRatio two z).2 = false ∧
      (sqrtRatio z z).1.residue = 0 ∧ (sqrtRatio z z).2 = true := by
  intro two z
  have ht : two.Carried := by decide
  have ho : one.Carried := by decide
  have hz : z.Carried := by decide
  have rt : two.residue = 2 := by decide +kernel
  have ro : one.residue = 1 := denotes_one.residue
  have rz : z.residue = 0 := by decide +kernel
  have hne : (2 : ZMod prime) ≠ 0 := by decide +kernel
  obtain ⟨-, -, -, h⟩ := sqrtRatio_exact
  obtain ⟨-, -, hnonnegative, hturned, -⟩ := h two one ht ho
  obtain ⟨-, -, -, hinfinite, -⟩ := h two z ht hz
  obtain ⟨-, -, -, hzero, -⟩ := h z z hz hz
  rw [rt, ro] at hturned
  rw [rt] at hinfinite
  obtain ⟨hroot, hflag⟩ := hturned.turned one_ne_zero (by rw [div_one]; exact not_isSquare_two)
  rw [one_mul] at hroot
  obtain ⟨hr, hf⟩ := hinfinite.infinite hne rz
  obtain ⟨hr', hf'⟩ := hzero.zero rz
  exact ⟨ht, ho, hz, hnonnegative, hflag, hroot, hr, hf, hr', hf'⟩

end CurveKeys.Edwards25519.FieldElement
