import CurveKeys.Proofs.Secp256k1.Affine
import CurveKeys.Proofs.Secp256k1.Digits
import CurveKeys.Secp256k1.Multiple

/-!
Both methods of multiplication give the multiple in the group of points. A run over the digits keeps
the sum of the multiples by what the digits above spell; the digits spell the halves of the scalar,
and the halves make it up again because the endomorphism multiplies by the eigenvalue.
-/

namespace CurveKeys.Secp256k1.JacobianPoint
open Curve
open Scalar (order lambda)

theorem denotes_multiplesFrom {p q : JacobianPoint} {P Q : Point} (hp : p.Denotes P)
    (hq : q.Denotes Q) {n i : Nat} (hi : i < n) (d : JacobianPoint) :
    ((multiplesFrom p q n).getD i d).Denotes (Q + i • P) := by
  induction n generalizing q Q i with
  | zero => exact absurd hi (Nat.not_lt_zero i)
  | succ n ih =>
      cases i with
      | zero =>
          rw [zero_nsmul, add_zero]
          exact hq
      | succ i =>
          have h := ih (denotes_add hp hq) (Nat.lt_of_succ_lt_succ hi)
          rw [succ_nsmul', ← add_assoc, add_comm Q P]
          exact h

theorem denotes_table {p : JacobianPoint} {P : Point} (hp : p.Denotes P) {m : Nat} (hm : m < 8) :
    ((table p).getD m identity).Denotes ((m + 1) • P) := by
  rw [succ_nsmul']
  exact denotes_multiplesFrom hp hp hm identity

theorem denotes_lookup {p : JacobianPoint} {P : Point} (hp : p.Denotes P) {d : Int8}
    (hd : TableDigit d) : (lookup (table p) d).Denotes (d.toInt • P) := by
  obtain ⟨hlow, hhigh⟩ := hd
  obtain ⟨entry, hentry, heq⟩ : ∃ entry : JacobianPoint, entry.Denotes (d.toInt.natAbs • P) ∧
      lookup (table p) d = select entry entry.negate (d < 0) := by
    have hle : d.toInt.natAbs ≤ 8 := by omega
    unfold lookup
    cases hm : d.toInt.natAbs with
    | zero =>
        rw [zero_nsmul]
        exact ⟨identity, denotes_identity, rfl⟩
    | succ m => exact ⟨_, denotes_table hp (by omega), rfl⟩
  have hneg : decide (d < 0) = decide (d.toInt < 0) := by
    rw [decide_eq_decide, Int8.lt_iff_toInt_lt]
    rfl
  rw [heq, hneg]
  by_cases h : d.toInt < 0
  · have he : d.toInt • P = -(d.toInt.natAbs • P) := by
      rw [← natCast_zsmul, ← neg_zsmul]
      congr 1
      omega
    rw [decide_eq_true h, he]
    exact denotes_negate hentry
  · have he : d.toInt • P = d.toInt.natAbs • P := by
      rw [← natCast_zsmul]
      congr 1
      omega
    rw [decide_eq_false h, he]
    exact hentry

/-- A short integer by its absolute value, with the sign given to the point. -/
theorem natAbs_nsmul (m : ℤ) (P : Point) :
    m.natAbs • select P (-P) (decide (m < 0)) = m • P := by
  by_cases h : m < 0
  · rw [decide_eq_true h, select, if_pos rfl, neg_nsmul, ← natCast_zsmul, ← neg_zsmul]
    congr 1
    omega
  · rw [decide_eq_false h, select, if_neg Bool.false_ne_true, ← natCast_zsmul]
    congr 1
    omega

theorem signedHalf_spec {p : JacobianPoint} {P : Point} {k : Scalar} {m : ℤ} (hp : p.Denotes P)
    (hk : k.Denotes m) (hm : |m| < 2 ^ 128) :
    ∃ q Q, (signedHalf p k).1 = table q ∧ q.Denotes Q ∧
      (∀ d ∈ (signedHalf p k).2, TableDigit d) ∧ (signedHalf p k).2.length = 33 ∧
      Digits.value 16 ((signedHalf p k).2.map Int8.toInt) • Q = m • P := by
  obtain ⟨hnat, hneg⟩ := Scalar.absolute_spec hk hm
  have hb : (m.natAbs : ℤ) < 2 ^ 128 := by rwa [← Int.abs_eq_natAbs]
  obtain ⟨hdigits, hvalue⟩ := signedRadix16Half_spec (k := k.absolute.1) (by omega)
  refine ⟨select p p.negate k.absolute.2, select P (-P) k.absolute.2, rfl,
    denotes_select _ hp (denotes_negate hp), hdigits, length_signedRadix16Half _, ?_⟩
  change Digits.value 16 ((signedRadix16Half k.absolute.1).map Int8.toInt) • _ = _
  rw [hvalue, natCast_zsmul, hnat, hneg]
  exact natAbs_nsmul m P

/-- One step of `mul`: four doublings and two entries of the tables. -/
theorem denotes_mulStep {acc p q : JacobianPoint} {A P Q : Point} (hacc : acc.Denotes A)
    (hp : p.Denotes P) (hq : q.Denotes Q) {d e : Int8} (hd : TableDigit d) (he : TableDigit e) :
    ((acc.double.double.double.double.add (lookup (table p) d)).add (lookup (table q) e)).Denotes
      ((16 : ℤ) • A + d.toInt • P + e.toInt • Q) := by
  have h := denotes_add (denotes_add (denotes_double (denotes_double (denotes_double
    (denotes_double hacc)))) (denotes_lookup hp hd)) (denotes_lookup hq he)
  have hs : A + A + (A + A) + (A + A + (A + A)) + (A + A + (A + A) + (A + A + (A + A))) =
      (16 : ℤ) • A := by module
  rw [hs] at h
  exact h

/-- The run of `mul` from the highest digits down. -/
theorem denotes_mulRun {p q : JacobianPoint} {P Q : Point} (hp : p.Denotes P) (hq : q.Denotes Q)
    {ds es : List Int8} (hl : ds.length = es.length) (hds : ∀ d ∈ ds, TableDigit d)
    (hes : ∀ e ∈ es, TableDigit e) {dTop eTop : Int8} (hdTop : TableDigit dTop)
    (heTop : TableDigit eTop) :
    ((ds.zip es).foldr (fun (d, e) acc =>
      (acc.double.double.double.double.add (lookup (table p) d)).add (lookup (table q) e))
      ((lookup (table p) dTop).add (lookup (table q) eTop))).Denotes
      (Digits.value 16 ((ds ++ [dTop]).map Int8.toInt) • P +
        Digits.value 16 ((es ++ [eTop]).map Int8.toInt) • Q) := by
  -- the fold begins with the last digits, so the accumulator stands for what the tails spell
  induction ds generalizing es with
  | nil =>
      obtain rfl := List.length_eq_zero_iff.mp hl.symm
      simp only [List.zip_nil_left, List.foldr_nil, List.nil_append, List.map_cons, List.map_nil,
        Digits.value, mul_zero, add_zero]
      exact denotes_add (denotes_lookup hp hdTop) (denotes_lookup hq heTop)
  | cons d ds ih =>
      obtain ⟨e, es, rfl⟩ := List.exists_cons_of_length_eq_add_one hl.symm
      obtain ⟨hd, hds⟩ := List.forall_mem_cons.mp hds
      obtain ⟨he, hes⟩ := List.forall_mem_cons.mp hes
      have h := denotes_mulStep (ih (by simpa using hl) hds hes) hp hq hd he
      rw [List.zip_cons_cons, List.foldr_cons, List.cons_append, List.cons_append, List.map_cons,
        List.map_cons, Digits.value, Digits.value]
      have hs (v w : ℤ) : (16 : ℤ) • (v • P + w • Q) + d.toInt • P + e.toInt • Q =
          (d.toInt + 16 * v) • P + (e.toInt + 16 * w) • Q := by module
      rw [hs] at h
      exact h

/-- The halves of a scalar with the endomorphism make up the multiple. -/
theorem halves_smul (k : Scalar) (P : Point) :
    Scalar.half1 k • P + Scalar.half2 k • Curve.endomorphism P = k.toNat • P := by
  rw [endomorphism_eq, ← intCast_smul, ← intCast_smul, smul_smul, ← add_smul,
    Scalar.half1_add_half2, natCast_smul]

theorem mul_eq (p : JacobianPoint) (k : Scalar) :
    let half1 := signedHalf p k.split.1
    let half2 := signedHalf p.endomorphism k.split.2
    p.mul k = ((half1.2.take 32).zip (half2.2.take 32)).foldr
      (fun (d, e) acc =>
        (acc.double.double.double.double.add (lookup half1.1 d)).add (lookup half2.1 e))
      ((lookup half1.1 (half1.2.getD 32 0)).add (lookup half2.1 (half2.2.getD 32 0))) := by
  unfold mul
  rcases k.split with ⟨k1, k2⟩
  simp only

/-- The highest digit apart from the others. -/
theorem take_append_top {l : List Int8} (h : l.length = 33) : l.take 32 ++ [l.getD 32 0] = l := by
  have hdrop : l.drop 32 = [l.getD 32 0] := by
    rw [List.drop_eq_getElem_cons (by omega), List.drop_eq_nil_of_le (by omega),
      List.getD_eq_getElem _ _ (by omega)]
  rw [← hdrop, List.take_append_drop]

theorem denotes_mul {p : JacobianPoint} {P : Point} (hp : p.Denotes P) {k : Scalar}
    (hk : k.toNat < order) : (p.mul k).Denotes (k.toNat • P) := by
  obtain ⟨q1, Q1, ht1, hq1, hd1, hl1, hv1⟩ :=
    signedHalf_spec hp (Scalar.denotes_half1 hk) (Scalar.abs_half1_lt hk)
  obtain ⟨q2, Q2, ht2, hq2, hd2, hl2, hv2⟩ :=
    signedHalf_spec (denotes_endomorphism hp) (Scalar.denotes_half2 hk) (Scalar.abs_half2_lt hk)
  rw [mul_eq, ht1, ht2]
  generalize (signedHalf p k.split.1).2 = ds at hd1 hl1 hv1
  generalize (signedHalf p.endomorphism k.split.2).2 = es at hd2 hl2 hv2
  rw [← take_append_top hl1] at hd1 hv1
  rw [← take_append_top hl2] at hd2 hv2
  obtain ⟨hds, hdTop⟩ := List.forall_mem_append.mp hd1
  obtain ⟨hes, heTop⟩ := List.forall_mem_append.mp hd2
  have h := denotes_mulRun hq1 hq2 (by rw [List.length_take, List.length_take, hl1, hl2]) hds hes
    (List.forall_mem_singleton.mp hdTop) (List.forall_mem_singleton.mp heTop)
  rw [hv1, hv2, halves_smul] at h
  exact h

theorem denotes_mulBase {k : Scalar} (hk : k.toNat < order) :
    (mulBase k).Denotes (k.toNat • Curve.generator) :=
  denotes_mul denotes_generator hk

theorem denotes_addSigned {acc p minusP : JacobianPoint} {A P : Point} (hacc : acc.Denotes A)
    (hp : p.Denotes P) (hm : minusP.Denotes (-P)) (d : SignedBit) :
    (acc.addSigned p minusP d).Denotes (A + d.toInt • P) := by
  cases d with
  | plus =>
      rw [SignedBit.toInt, one_zsmul]
      exact denotes_addVar hacc hp
  | minus =>
      rw [SignedBit.toInt, neg_one_zsmul]
      exact denotes_addVar hacc hm
  | zero =>
      rw [SignedBit.toInt, zero_zsmul, add_zero]
      exact hacc

theorem denotes_mulVarRun {p minusP q minusQ : JacobianPoint} {P Q : Point} (hp : p.Denotes P)
    (hmp : minusP.Denotes (-P)) (hq : q.Denotes Q) (hmq : minusQ.Denotes (-Q))
    (l : List (SignedBit × SignedBit)) :
    (l.foldr (fun (d, e) acc => (acc.doubleVar.addSigned p minusP d).addSigned q minusQ e)
      identity).Denotes ((pairValues l).1 • P + (pairValues l).2 • Q) := by
  induction l with
  | nil =>
      simp only [List.foldr_nil, pairValues, List.map_nil, Digits.value, zero_zsmul, add_zero]
      exact denotes_identity
  | cons d l ih =>
      have h := denotes_addSigned (denotes_addSigned (denotes_doubleVar ih) hp hmp d.1) hq hmq d.2
      have hs (v w : ℤ) : v • P + w • Q + (v • P + w • Q) + d.1.toInt • P + d.2.toInt • Q =
          (d.1.toInt + 2 * v) • P + (d.2.toInt + 2 * w) • Q := by module
      rw [hs] at h
      exact h

theorem value_naf (k : Scalar) :
    Digits.value 2 ((Naf.ofBytes (k.toBytes.toList.dropWhile (· == 0))).map SignedBit.toInt) =
      k.toNat := by
  rw [Naf.value_ofBytes, Bytes.toNatBE_dropWhile, Scalar.toNatBE_toBytes]

theorem mulVar_eq (p : JacobianPoint) (k : Scalar) :
    p.mulVar k = (pairDigits
      (Naf.ofBytes (k.split.1.absolute.1.toBytes.toList.dropWhile (· == 0)))
      (Naf.ofBytes (k.split.2.absolute.1.toBytes.toList.dropWhile (· == 0)))).foldr
      (fun (d, e) acc => (acc.doubleVar.addSigned (select p p.negate k.split.1.absolute.2)
        (select p.negate p k.split.1.absolute.2) d).addSigned
          (select p.endomorphism p.endomorphism.negate k.split.2.absolute.2)
          (select p.endomorphism.negate p.endomorphism k.split.2.absolute.2) e) identity := by
  unfold mulVar
  rcases k.split with ⟨k1, k2⟩
  simp only

theorem denotes_mulVar {p : JacobianPoint} {P : Point} (hp : p.Denotes P) {k : Scalar}
    (hk : k.toNat < order) : (p.mulVar k).Denotes (k.toNat • P) := by
  have hq := denotes_endomorphism hp
  obtain ⟨hnat1, hneg1⟩ :=
    Scalar.absolute_spec (Scalar.denotes_half1 hk) (Scalar.abs_half1_lt hk)
  obtain ⟨hnat2, hneg2⟩ :=
    Scalar.absolute_spec (Scalar.denotes_half2 hk) (Scalar.abs_half2_lt hk)
  have hp1 := denotes_select k.split.1.absolute.2 hp (denotes_negate hp)
  have hp2 := denotes_select k.split.2.absolute.2 hq (denotes_negate hq)
  have minus (flag : Bool) (R : Point) : select (-R) R flag = -select R (-R) flag := by
    cases flag with
    | false => rfl
    | true => exact (neg_neg R).symm
  have hm1 := denotes_select k.split.1.absolute.2 (denotes_negate hp) hp
  have hm2 := denotes_select k.split.2.absolute.2 (denotes_negate hq) hq
  rw [minus] at hm1 hm2
  have h := denotes_mulVarRun hp1 hm1 hp2 hm2 (pairDigits
    (Naf.ofBytes (k.split.1.absolute.1.toBytes.toList.dropWhile (· == 0)))
    (Naf.ofBytes (k.split.2.absolute.1.toBytes.toList.dropWhile (· == 0))))
  rw [pairValues_pairDigits, value_naf, value_naf, hnat1, hnat2, natCast_zsmul, natCast_zsmul]
    at h
  have hs : (Scalar.half1 k).natAbs • select P (-P) k.split.1.absolute.2 +
      (Scalar.half2 k).natAbs • select (Curve.endomorphism P) (-Curve.endomorphism P)
        k.split.2.absolute.2 = k.toNat • P := by
    rw [hneg1, hneg2, natAbs_nsmul, natAbs_nsmul, halves_smul]
  rw [hs] at h
  rw [mulVar_eq]
  exact h

theorem denotes_mulBaseVar {k : Scalar} (hk : k.toNat < order) :
    (mulBaseVar k).Denotes (k.toNat • Curve.generator) :=
  denotes_mulVar denotes_generator hk

/-- Both paths give the multiple of any point, so they agree, and so do those of the base point. -/
theorem multiples_correct {p : JacobianPoint} {P : Point} (hp : p.Denotes P) {k : Scalar}
    (hk : k.toNat < order) :
    (p.mul k).Denotes (k.toNat • P) ∧ (p.mulVar k).Denotes (k.toNat • P) ∧
      (p.mul k).same (p.mulVar k) = true ∧
      (mulBase k).Denotes (k.toNat • Curve.generator) ∧
      (mulBaseVar k).Denotes (k.toNat • Curve.generator) ∧
      (mulBase k).same (mulBaseVar k) = true := by
  have h := denotes_mul hp hk
  have hVar := denotes_mulVar hp hk
  have hBase := denotes_mulBase hk
  have hBaseVar := denotes_mulBaseVar hk
  exact ⟨h, hVar, (same_iff h hVar).mpr rfl, hBase, hBaseVar, (same_iff hBase hBaseVar).mpr rfl⟩

/-- The largest scalar and a point that is not in affine form. -/
theorem multiples_correct_of_minus_one :
    generator.double.Denotes (Curve.generator + Curve.generator) ∧
      Scalar.one.negate.toNat < order ∧
      (generator.double.mul Scalar.one.negate).same (generator.double.mulVar Scalar.one.negate) =
        true := by
  have hp := denotes_double denotes_generator
  have hk : Scalar.one.negate.toNat < order := by decide
  exact ⟨hp, hk, (multiples_correct hp hk).2.2.1⟩

end CurveKeys.Secp256k1.JacobianPoint
