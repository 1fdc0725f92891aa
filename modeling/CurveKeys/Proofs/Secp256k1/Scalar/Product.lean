import CurveKeys.Proofs.Secp256k1.Accumulator
import CurveKeys.Proofs.Secp256k1.Scalar.Sum
import CurveKeys.Secp256k1.Scalar.Multiply

/-!
Products of scalars. Each fold of a wide product keeps the residue modulo the order and fits the
limbs it is written to, and after three folds less than twice the order is left.
-/

namespace CurveKeys.Secp256k1.Scalar

/-- Sixteen limbs hold the whole product. -/
theorem mulWide_fit {a b : List UInt32} (ha : a.length = 8) (hb : b.length = 8) :
    Limbs.toNat (mulWide a b) = Limbs.toNat a * Limbs.toNat b ∧
      (Accumulator.mulColumns 16 [] a b).2 = .zero := by
  have hal := toNat_limbs_lt ha
  have hbl := toNat_limbs_lt hb
  have hp : 2 ^ 256 * 2 ^ 256 = 0x100000000 ^ 16 := by norm_num
  have hlt : Limbs.toNat [] + Limbs.toNat a * Limbs.toNat b < 0x100000000 ^ 16 := by
    rw [Limbs.toNat, zero_add]
    exact lt_of_lt_of_eq (Nat.mul_lt_mul'' hal hbl) hp
  have h := Accumulator.mulColumns_fit (by omega) hlt
  rw [Limbs.toNat, zero_add] at h
  exact h

theorem toNat_mulWide {a b : List UInt32} (ha : a.length = 8) (hb : b.length = 8) :
    Limbs.toNat (mulWide a b) = Limbs.toNat a * Limbs.toNat b :=
  (mulWide_fit ha hb).1

theorem length_mulWide (a b : List UInt32) : (mulWide a b).length = 16 :=
  Accumulator.length_mulColumns _ _ _ _

theorem length_fold (width : Nat) (l : List UInt32) : (fold width l).1.length = width :=
  Accumulator.length_mulColumns _ _ _ _

/-- A fold into `width` limbs loses nothing: no sum is left above the last limb, that limb is at
most `top`, and what stands above the eighth limb has been replaced by its product with the order's
complement. -/
structure FoldFits (width top : Nat) (l : List UInt32) : Prop where
  rest : (fold width l).2 = .zero
  toNat_eq : Limbs.toNat (fold width l).1 =
    Limbs.toNat (l.take 8) + Limbs.toNat (l.drop 8) * (2 ^ 256 - order)
  top_le : ((fold width l).1.getD (width - 1) 0).toNat ≤ top

theorem foldFits {width top : Nat} {l : List UInt32} (hl : l.length < 0x80000000)
    (hwidth : 0 < width) (htop : top < 0x100000000)
    (h : Limbs.toNat (l.take 8) + Limbs.toNat (l.drop 8) * (2 ^ 256 - order) <
      0x100000000 ^ (width - 1) * (top + 1)) : FoldFits width top l := by
  have hc : Limbs.toNat orderComplement = 2 ^ 256 - order := by decide
  have hd : (l.drop 8).length < 0x80000000 := by
    rw [List.length_drop]
    omega
  have hw : 0x100000000 ^ (width - 1) * (top + 1) ≤ 0x100000000 ^ width := by
    rw [← Nat.sub_add_cancel hwidth, pow_succ, Nat.add_sub_cancel]
    exact Nat.mul_le_mul_left _ (by omega)
  rw [← hc] at h
  obtain ⟨hv, hrest⟩ := Accumulator.mulColumns_fit hd (lt_of_lt_of_le h hw)
  refine ⟨hrest, by rw [← hc]; exact hv, ?_⟩
  rw [Limbs.getD_toNat, fold, hv]
  have hq := Nat.div_lt_of_lt_mul h
  exact (Nat.mod_le _ _).trans (Nat.le_of_lt_succ hq)

/-- A fold of a number below `2 ^ 256 * (high + 1)`. -/
theorem foldFits_of_lt (width top high : Nat) {l : List UInt32} (h8 : 8 ≤ l.length)
    (hl : l.length < 0x80000000) (hn : Limbs.toNat l < 2 ^ 256 * (high + 1))
    (hwidth : 0 < width) (htop : top < 0x100000000)
    (hfit : 2 ^ 256 + high * (2 ^ 256 - order) ≤ 0x100000000 ^ (width - 1) * (top + 1)) :
    FoldFits width top l ∧
      Limbs.toNat (fold width l).1 < 2 ^ 256 + high * (2 ^ 256 - order) := by
  have hp : 0x100000000 ^ 8 = 2 ^ 256 := by norm_num
  have hlow : Limbs.toNat (l.take 8) < 2 ^ 256 := by
    rw [Limbs.toNat_take l 8 h8, hp]
    exact Nat.mod_lt _ (by positivity)
  have hhigh : Limbs.toNat (l.drop 8) ≤ high := by
    rw [Limbs.toNat_drop l 8 h8, hp]
    exact Nat.le_of_lt_succ (Nat.div_lt_of_lt_mul hn)
  have hm : Limbs.toNat (l.drop 8) * (2 ^ 256 - order) ≤ high * (2 ^ 256 - order) :=
    Nat.mul_le_mul_right _ hhigh
  have hlt := Nat.add_lt_add_of_lt_of_le hlow hm
  have hf := foldFits hl hwidth htop (lt_of_lt_of_le hlt hfit)
  exact ⟨hf, by rw [hf.toNat_eq]; exact hlt⟩

theorem FoldFits.modEq {width top : Nat} {l : List UInt32} (h : FoldFits width top l)
    (h8 : 8 ≤ l.length) : Limbs.toNat (fold width l).1 ≡ Limbs.toNat l [MOD order] := by
  have hp : 0x100000000 ^ 8 = 2 ^ 256 - order + order := by decide
  have hs := Limbs.toNat_take_drop l 8 h8
  rw [h.toNat_eq, ← hs, hp]
  conv_rhs => rw [show Limbs.toNat (l.take 8) + (2 ^ 256 - order + order) * Limbs.toNat (l.drop 8) =
    Limbs.toNat (l.take 8) + Limbs.toNat (l.drop 8) * (2 ^ 256 - order) +
      order * Limbs.toNat (l.drop 8) by ring]
  exact (Nat.add_mul_mod_self_left _ _ _).symm

/-- The three folds of a wide product fit the limbs they are written to, and one subtraction of the
order is enough for what they leave. -/
structure ReductionFits (l : List UInt32) : Prop where
  first : FoldFits 13 1 l
  second : FoldFits 9 2 (fold 13 l).1
  third : FoldFits 9 1 (fold 9 (fold 13 l).1).1
  lt_double : Limbs.toNat (fold 9 (fold 9 (fold 13 l).1).1).1 < 2 * order

theorem reductionFits {l : List UInt32} (hl : l.length = 16) : ReductionFits l := by
  have hlt := Limbs.toNat_lt l
  have hp : 0x100000000 ^ 16 = 2 ^ 256 * (2 ^ 256 - 1 + 1) := by norm_num
  rw [hl, hp] at hlt
  have len (width : Nat) (k : List UInt32) := length_fold width k
  obtain ⟨f1, b1⟩ := foldFits_of_lt 13 1 (2 ^ 256 - 1) (by omega) (by omega) hlt
    (by decide) (by decide) (by decide)
  -- the high part left by the first fold is at most the complement itself
  obtain ⟨f2, b2⟩ := foldFits_of_lt 9 2 (2 ^ 256 - order)
    (by rw [len]; decide) (by rw [len]; decide) (lt_trans b1 (by decide))
    (by decide) (by decide) (by decide)
  obtain ⟨f3, b3⟩ := foldFits_of_lt 9 1 2
    (by rw [len]; decide) (by rw [len]; decide) (lt_trans b2 (by decide))
    (by decide) (by decide) (by decide)
  exact ⟨f1, f2, f3, lt_trans b3 (by decide)⟩

theorem ReductionFits.modEq {l : List UInt32} (h : ReductionFits l) (hl : l.length = 16) :
    Limbs.toNat (fold 9 (fold 9 (fold 13 l).1).1).1 ≡ Limbs.toNat l [MOD order] := by
  have len (width : Nat) (k : List UInt32) := length_fold width k
  have m1 := h.first.modEq (by omega)
  have m2 := h.second.modEq (by rw [len]; decide)
  have m3 := h.third.modEq (by rw [len]; decide)
  exact m3.trans (m2.trans m1)

theorem toNat_reduceWide {l : List UInt32} (hl : l.length = 16) :
    (reduceWide l).toNat = Limbs.toNat l % order := by
  have hmod := (reductionFits hl).modEq hl
  have hb := (reductionFits hl).lt_double
  have hlen : (fold 9 (fold 9 (fold 13 l).1).1).1.length = 9 := length_fold _ _
  rw [reduceWide]
  generalize (fold 9 (fold 9 (fold 13 l).1).1).1 = r at hmod hb hlen ⊢
  have htop := Limbs.getD_toNat r 8
  have htake := Limbs.toNat_take r 8 (by omega)
  have hp8 : 0x100000000 ^ 8 = 2 ^ 256 := by norm_num
  rw [hp8] at htop htake
  have hq : Limbs.toNat r / 2 ^ 256 < 2 :=
    Nat.div_lt_of_lt_mul (lt_of_lt_of_le hb (by decide))
  have hcarry : (r.getD 8 0 != 0).toNat = Limbs.toNat r / 2 ^ 256 := by
    by_cases h0 : r.getD 8 0 = 0
    · rw [h0] at htop ⊢
      change 0 = _
      rw [UInt32.toNat_zero] at htop
      omega
    · have hne : (r.getD 8 0).toNat ≠ 0 := fun h => h0 (UInt32.toNat_inj.mp h)
      rw [bne_iff_ne.mpr h0, Bool.toNat_true]
      omega
  have hsplit : Limbs.toNat (r.take 8) + 2 ^ 256 * (r.getD 8 0 != 0).toNat = Limbs.toNat r := by
    rw [htake, hcarry, Nat.mod_add_div]
  rw [toNat_ofOverflow _ (by rw [List.length_take, hlen]; rfl) (by rw [hsplit]; exact hb), hsplit]
  exact hmod

theorem toNat_mul (a b : Scalar) : (a.mul b).toNat = a.toNat * b.toNat % order := by
  rw [mul, toNat_reduceWide (length_mulWide _ _), toNat_mulWide a.length_limbs b.length_limbs]
  rfl

theorem denotes_mul {a b : Scalar} {v w : ZMod order} (ha : a.Denotes v) (hb : b.Denotes w) :
    (a.mul b).Denotes (v * w) := by
  have h := denotes_of_toNat_eq_mod (toNat_mul a b)
  rw [Nat.cast_mul, ha.residue, hb.residue] at h
  exact h

theorem denotes_square {a : Scalar} {v : ZMod order} (ha : a.Denotes v) :
    a.square.Denotes (v ^ 2) := by
  rw [pow_two]
  exact denotes_mul ha ha

end CurveKeys.Secp256k1.Scalar
