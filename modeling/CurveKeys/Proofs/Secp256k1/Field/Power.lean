import CurveKeys.Proofs.Secp256k1.Field.Canonical
import CurveKeys.Proofs.Secp256k1.Field.Product
import CurveKeys.Secp256k1.Field.Root

/-!
Powers of field elements. The chains are followed through exponents whose binary digits are ones,
and their two ends are the inverse and the square root.
-/

namespace CurveKeys.Secp256k1.FieldElement

theorem denotes_squareTimes {a : FieldElement} {v : ZMod prime} (ha : a.Denotes 1 v) (k : Nat) :
    (a.squareTimes k).Denotes 1 (v ^ 2 ^ k) := by
  induction k generalizing a v with
  | zero =>
      rw [pow_zero, pow_one]
      exact ha
  | succ k ih =>
      have h := ih (denotes_square ha)
      rw [← pow_mul, ← pow_succ'] at h
      exact h

/-- Shifting an exponent up and adding another one. -/
theorem denotes_shift_mul {a b : FieldElement} {v : ZMod prime} {m n k : Nat}
    (ha : a.Denotes 1 (v ^ n)) (hb : b.Denotes k (v ^ m)) (hk : k ≤ 8) (s : Nat) :
    ((a.squareTimes s).mul b).Denotes 1 (v ^ (n * 2 ^ s + m)) := by
  have h := denotes_mul (denotes_squareTimes ha s) hb (by decide) hk
  rw [← pow_mul, ← pow_add] at h
  exact h

/-- Blocks of ones in an exponent are appended. -/
theorem denotes_ones {a b : FieldElement} {v : ZMod prime} {i j : Nat}
    (ha : a.Denotes 1 (v ^ (2 ^ i - 1))) (hb : b.Denotes 1 (v ^ (2 ^ j - 1))) :
    ((a.squareTimes j).mul b).Denotes 1 (v ^ (2 ^ (i + j) - 1)) := by
  have h := denotes_shift_mul ha hb (by decide) j
  have he : (2 ^ i - 1) * 2 ^ j + (2 ^ j - 1) = 2 ^ (i + j) - 1 := by
    have hi : 1 ≤ 2 ^ i := Nat.one_le_two_pow
    have hj : 1 ≤ 2 ^ j := Nat.one_le_two_pow
    rw [Nat.sub_mul, one_mul, pow_add]
    have : 2 ^ j ≤ 2 ^ i * 2 ^ j := Nat.le_mul_of_pos_left _ (by omega)
    omega
  rwa [he] at h

structure OnesPowers.Denote (w : OnesPowers) (v : ZMod prime) : Prop where
  x2 : w.x2.Denotes 1 (v ^ (2 ^ 2 - 1))
  x22 : w.x22.Denotes 1 (v ^ (2 ^ 22 - 1))
  x223 : w.x223.Denotes 1 (v ^ (2 ^ 223 - 1))

theorem denote_onesPowers {a : FieldElement} {v : ZMod prime} {m : Nat} (ha : a.Denotes m v)
    (hm : m ≤ 8) : a.onesPowers.Denote v := by
  have x1 : a.Denotes m (v ^ (2 ^ 1 - 1)) := by simpa using ha
  have x2 : (a.square.mul a).Denotes 1 (v ^ (2 ^ 2 - 1)) := by
    have h := denotes_mul (denotes_square ha hm) ha (by decide) hm
    rwa [← pow_succ] at h
  have x3 : ((a.square.mul a).square.mul a).Denotes 1 (v ^ (2 ^ 3 - 1)) :=
    denotes_shift_mul x2 x1 hm 1
  have x6 := denotes_ones x3 x3
  have x9 := denotes_ones x6 x3
  have x11 := denotes_ones x9 x2
  have x22 := denotes_ones x11 x11
  have x44 := denotes_ones x22 x22
  have x88 := denotes_ones x44 x44
  have x176 := denotes_ones x88 x88
  have x220 := denotes_ones x176 x44
  exact ⟨x2, x22, denotes_ones x220 x3⟩

/-- The leading part that both exponents share: 223 ones, a zero and 22 ones. -/
theorem denotes_leading {a : FieldElement} {v : ZMod prime} {m : Nat} (ha : a.Denotes m v)
    (hm : m ≤ 8) :
    ((a.onesPowers.x223.squareTimes 23).mul a.onesPowers.x22).Denotes 1
      (v ^ ((2 ^ 223 - 1) * 2 ^ 23 + (2 ^ 22 - 1))) :=
  denotes_shift_mul (denote_onesPowers ha hm).x223 (denote_onesPowers ha hm).x22 (by decide) 23

theorem denotes_invert_pow {a : FieldElement} {v : ZMod prime} {m : Nat} (ha : a.Denotes m v)
    (hm : m ≤ 8) : a.invert.Denotes 1 (v ^ (prime - 2)) := by
  have x1 : a.Denotes m (v ^ 1) := by simpa using ha
  have h5 := denotes_shift_mul (denotes_leading ha hm) x1 hm 5
  have h3 := denotes_shift_mul h5 (denote_onesPowers ha hm).x2 (by decide) 3
  have h2 := denotes_shift_mul h3 x1 hm 2
  have he : (((((2 ^ 223 - 1) * 2 ^ 23 + (2 ^ 22 - 1)) * 2 ^ 5 + 1) * 2 ^ 3 + (2 ^ 2 - 1)) * 2 ^ 2
      + 1) = prime - 2 := by decide
  rw [he] at h2
  exact h2

/-- The inverse of the residue, and zero for zero. -/
theorem denotes_invert {a : FieldElement} {v : ZMod prime} {m : Nat} (ha : a.Denotes m v)
    (hm : m ≤ 8 := by decide) : a.invert.Denotes 1 v⁻¹ := by
  have h := denotes_invert_pow ha hm
  by_cases hv : v = 0
  · subst hv
    rw [zero_pow (by decide)] at h
    rwa [inv_zero]
  · have hf : v ^ (prime - 2) * v = 1 := by
      rw [← pow_succ]
      exact ZMod.pow_card_sub_one_eq_one hv
    rwa [eq_inv_of_mul_eq_one_left hf] at h

/-- The candidate root, which `sqrt?` squares to decide whether it is one. -/
def rootCandidate (a : FieldElement) : FieldElement :=
  ((((a.onesPowers.x223.squareTimes 23).mul a.onesPowers.x22).squareTimes 6).mul
    a.onesPowers.x2).squareTimes 2

theorem denotes_rootCandidate {a : FieldElement} {v : ZMod prime} {m : Nat} (ha : a.Denotes m v)
    (hm : m ≤ 8 := by decide) : a.rootCandidate.Denotes 1 (v ^ ((prime + 1) / 4)) := by
  have h6 := denotes_shift_mul (denotes_leading ha hm) (denote_onesPowers ha hm).x2 (by decide) 6
  have h := denotes_squareTimes h6 2
  have he : (((2 ^ 223 - 1) * 2 ^ 23 + (2 ^ 22 - 1)) * 2 ^ 6 + (2 ^ 2 - 1)) * 2 ^ 2 =
      (prime + 1) / 4 := by decide
  rw [← pow_mul, he] at h
  exact h

/-- The power by a quarter of the modulus plus one is a root of every square. -/
theorem pow_quarter_sq {v : ZMod prime} (h : IsSquare v) : (v ^ ((prime + 1) / 4)) ^ 2 = v := by
  obtain ⟨u, rfl⟩ := h
  by_cases hu : u = 0
  · subst hu
    rw [mul_zero, zero_pow (by decide), zero_pow (by decide)]
  · have he : 2 * ((prime + 1) / 4 * 2) = prime - 1 + 2 := by decide
    rw [← pow_two, ← pow_mul, ← pow_mul, he, pow_add, ZMod.pow_card_sub_one_eq_one hu, one_mul]

theorem sqrt?_eq {a : FieldElement} {v : ZMod prime} {m : Nat} (ha : a.Denotes m v)
    (hm : m ≤ 8 := by decide) [Decidable (IsSquare v)] :
    a.sqrt? = if IsSquare v then some a.rootCandidate else none := by
  have hr := denotes_rootCandidate ha hm
  have hd := denotes_add (denotes_negate 1 (denotes_square hr)) ha
    (show 1 + 1 + m ≤ 32 by omega)
  have hz : ((a.rootCandidate.square.negate 1).add a).isZeroResidue = true ↔ IsSquare v := by
    rw [isZeroResidue_iff hd (show 1 + 1 + m ≤ 31 by omega), neg_add_eq_zero]
    constructor
    · intro h
      exact ⟨_, by rw [← pow_two, h]⟩
    · exact pow_quarter_sq
  change (if ((a.rootCandidate.square.negate 1).add a).isZeroResidue = true then
    some a.rootCandidate else none) = _
  by_cases hs : IsSquare v
  · rw [if_pos hs, if_pos (hz.mpr hs)]
  · rw [if_neg hs, if_neg fun h => hs (hz.mp h)]

theorem exists_sqrt?_iff {a : FieldElement} {v : ZMod prime} {m : Nat} (ha : a.Denotes m v)
    (hm : m ≤ 8 := by decide) : (∃ r, a.sqrt? = some r) ↔ IsSquare v := by
  classical
  rw [sqrt?_eq ha hm]
  by_cases hs : IsSquare v
  · rw [if_pos hs]
    exact iff_of_true ⟨_, rfl⟩ hs
  · rw [if_neg hs]
    exact iff_of_false (fun ⟨_, h⟩ => nomatch h) hs

theorem of_sqrt?_eq_some {a r : FieldElement} {v : ZMod prime} {m : Nat} (ha : a.Denotes m v)
    (hr : a.sqrt? = some r) (hm : m ≤ 8 := by decide) :
    r.Denotes 1 (v ^ ((prime + 1) / 4)) ∧ r.square.Denotes 1 v := by
  classical
  have hs : IsSquare v := (exists_sqrt?_iff ha hm).mp ⟨r, hr⟩
  rw [sqrt?_eq ha hm, if_pos hs, Option.some.injEq] at hr
  have hd := denotes_rootCandidate ha hm
  rw [hr] at hd
  exact ⟨hd, denotes_congr (denotes_square hd) (pow_quarter_sq hs)⟩

/-- The two chains compute the powers by `p - 2` and by `(p + 1) / 4`. The first is the inverse
of all but zero, and the second is returned for the squares and is then a root. -/
theorem inverses_and_roots {a : FieldElement} (ha : a.Magnitude 8) :
    a.invert.Denotes 1 (a.residue ^ (prime - 2)) ∧
      (a.residue ≠ 0 → (a.mul a.invert).normalize = one) ∧
      (a.residue = 0 → a.invert.normalize = zero) ∧
      ((∃ r, a.sqrt? = some r) ↔ IsSquare a.residue) ∧
      ∀ r, a.sqrt? = some r →
        r.Denotes 1 (a.residue ^ ((prime + 1) / 4)) ∧ r.square.normalize = a.normalize := by
  have hd : a.Denotes 8 a.residue := ⟨ha, rfl⟩
  have hi := denotes_invert hd
  refine ⟨denotes_invert_pow hd le_rfl, ?_, ?_, exists_sqrt?_iff hd, ?_⟩
  · intro hne
    have h1 := (normalize_eq_iff (denotes_mul hd hi) denotes_one).mpr (mul_inv_cancel₀ hne)
    rwa [normalize_eq_self canonical_one] at h1
  · intro h0
    rw [h0, inv_zero] at hi
    have hz := (normalize_eq_iff hi denotes_zero).mpr rfl
    rwa [normalize_eq_self canonical_zero] at hz
  · intro r hr
    obtain ⟨hroot, hsq⟩ := of_sqrt?_eq_some hd hr
    exact ⟨hroot, (normalize_eq_iff hsq hd).mpr rfl⟩

/-- Four on top of fifteen times the modulus, which is within magnitude 8. -/
theorem inverses_and_roots_of_four :
    let a := (modulus.mulInt 15).addInt 4
    a.Magnitude 8 ∧ (a.mul a.invert).normalize = one ∧
      ∃ r, a.sqrt? = some r ∧ r.square.normalize = a.normalize := by
  intro a
  have ha : a.Magnitude 8 := by constructor <;> decide
  have hfour : a.residue = 2 ^ 2 := by
    have h : a.toNat ≡ 2 ^ 2 [MOD prime] := by decide +kernel
    have hc := (ZMod.natCast_eq_natCast_iff _ _ _).mpr h
    rwa [Nat.cast_pow] at hc
  have hne : a.residue ≠ 0 := by
    rw [hfour]
    decide +kernel
  obtain ⟨-, hinv, -, hsquare, hroot⟩ := inverses_and_roots ha
  obtain ⟨r, hr⟩ := hsquare.mpr ⟨2, by rw [hfour, pow_two]⟩
  exact ⟨ha, hinv hne, r, hr, (hroot r hr).2⟩

end CurveKeys.Secp256k1.FieldElement
