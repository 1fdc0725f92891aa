import CurveKeys.Proofs.Edwards25519.Point
import CurveKeys.Proofs.Edwards25519.Digits
import CurveKeys.Edwards25519.Point.Table

/-!
Tables of multiples. The entries of a progression are the first point with multiples of the step
added, and the entry chosen for a digit represents the multiple by the digit.
-/

namespace CurveKeys.Edwards25519
open Edwards25519.Digits (SmallDigit OddDigit)

section Sign
variable {G : Type} [AddCommGroup G] {α : Type} {R : α → G → Prop} {a b : α} {d : Int8}

theorem toInt_smul_of_nonneg (h : 0 ≤ d.toInt) (P : G) : d.toInt • P = d.toInt.natAbs • P := by
  rw [← natCast_zsmul, Int.natAbs_of_nonneg h]

theorem toInt_smul_of_nonpos (h : d.toInt ≤ 0) (P : G) : d.toInt • P = -(d.toInt.natAbs • P) := by
  rw [← natCast_zsmul, ← neg_zsmul, Int.ofNat_natAbs_of_nonpos h, neg_neg]

/-- The multiple by the absolute value, with the sign given by the choice of two entries. -/
theorem represents_signed {P : G} (hpos : R a (d.toInt.natAbs • P))
    (hneg : R b (-(d.toInt.natAbs • P))) : R (select a b (d < 0)) (d.toInt • P) := by
  rw [select]
  split
  · next h =>
      have h0 : d.toInt < 0 := Int8.lt_iff_toInt_lt.mp (of_decide_eq_true h)
      rw [toInt_smul_of_nonpos h0.le]
      exact hneg
  · next h =>
      have hlt : ¬d < 0 := of_decide_eq_false (Bool.eq_false_iff.mpr h)
      rw [toInt_smul_of_nonneg (Int8.le_iff_toInt_le.mp (Int8.not_lt.mp hlt))]
      exact hpos

/-- The choice from a table of the first eight multiples, with a neutral entry for digit zero. -/
theorem represents_choice {P : G} {neutral : α} {negate : α → α} {table : List α}
    (hneutral : R neutral 0) (hnegate : ∀ {a : α} {A : G}, R a A → R (negate a) (-A))
    (htable : ∀ i < 8, R (table.getD i neutral) ((i + 1) • P)) (hd : SmallDigit d) {entry : α}
    (hentry : entry = match d.toInt.natAbs with
      | 0 => neutral
      | m + 1 => table.getD m neutral) :
    R (select entry (negate entry) (d < 0)) (d.toInt • P) := by
  have h : R entry (d.toInt.natAbs • P) := by
    rw [SmallDigit] at hd
    rw [hentry]
    cases hm : d.toInt.natAbs with
    | zero =>
        rw [zero_nsmul]
        exact hneutral
    | succ m => exact htable m (by omega)
  exact represents_signed h (hnegate h)

/-- The multiple by the absolute value, with the sign given by the choice of two operations. -/
theorem represents_addOrSub {A P : G} (hadd : R a (A + d.toInt.natAbs • P))
    (hsub : R b (A - d.toInt.natAbs • P)) : R (if 0 < d then a else b) (A + d.toInt • P) := by
  split
  · next h =>
      rw [toInt_smul_of_nonneg (Int8.lt_iff_toInt_lt.mp h).le]
      exact hadd
  · next h =>
      have h0 : d.toInt ≤ 0 := Int8.le_iff_toInt_le.mp (Int8.not_lt.mp h)
      rw [toInt_smul_of_nonpos h0, ← sub_eq_add_neg]
      exact hsub

/-- An odd multiple, by the entry of a table that steps by the double. -/
theorem odd_nsmul {m : Nat} (hm : m % 2 = 1) (P : G) : P + (m / 2) • (P + P) = m • P := by
  rw [← two_nsmul, ← mul_nsmul, ← succ_nsmul']
  congr 1
  omega

end Sign

namespace PreparedPoint

theorem represents_progression {q step : Point} {Q S : Curve.Point} (hq : q.Represents Q)
    (hstep : step.Represents S) {n i : Nat} (hi : i < n) :
    ((progression q step n).getD i identity).Represents (Q + i • S) := by
  induction n generalizing q Q i with
  | zero => exact absurd hi (Nat.not_lt_zero i)
  | succ n ih =>
      have hprepared := represents_ofExtended hq
      cases i with
      | zero =>
          rw [zero_nsmul, add_zero]
          exact hprepared
      | succ i =>
          have hnext := CompletedPoint.represents_toExtended (represents_addTo hprepared hstep)
          have h := ih hnext (Nat.lt_of_succ_lt_succ hi)
          rw [succ_nsmul', ← add_assoc, add_comm Q S]
          exact h

theorem represents_multiples {q : Point} {Q : Curve.Point} (hq : q.Represents Q) {i : Nat}
    (hi : i < 8) : ((multiples q).getD i identity).Represents ((i + 1) • Q) := by
  rw [succ_nsmul']
  exact represents_progression hq hq hi

theorem represents_lookup {q : Point} {Q : Curve.Point} (hq : q.Represents Q) {d : Int8}
    (hd : SmallDigit d) : (lookup (multiples q) d).Represents (d.toInt • Q) :=
  represents_choice represents_identity represents_negate
    (fun _ hi => represents_multiples hq hi) hd rfl

theorem represents_oddMultiples {q : Point} {Q : Curve.Point} (hq : q.Represents Q) {m : Nat}
    (hm : m % 2 = 1) (hlt : m < 16) :
    ((oddMultiples q).getD (m / 2) identity).Represents (m • Q) := by
  have h := represents_progression hq (Point.represents_double hq) (n := 8) (i := m / 2) (by omega)
  rwa [odd_nsmul hm] at h

theorem represents_addDigit {table : List PreparedPoint} {p : Point} {P A : Curve.Point}
    {d : Int8}
    (htable : (table.getD (d.toInt.natAbs / 2) identity).Represents (d.toInt.natAbs • P))
    (hp : p.Represents A) : (addDigit table p d).Represents (A + d.toInt • P) := by
  rw [addDigit]
  exact represents_addOrSub (represents_addTo htable hp) (represents_subFrom htable hp)

end PreparedPoint

namespace PreparedAffine

theorem represents_progression {q : Point} {step : PreparedAffine} {Q S : Curve.Point}
    (hq : q.Represents Q) (hstep : step.Represents S) {n i : Nat} (hi : i < n) :
    ((progression q step n).getD i identity).Represents (Q + i • S) := by
  induction n generalizing q Q i with
  | zero => exact absurd hi (Nat.not_lt_zero i)
  | succ n ih =>
      cases i with
      | zero =>
          rw [zero_nsmul, add_zero]
          exact represents_ofExtended hq
      | succ i =>
          have hnext := CompletedPoint.represents_toExtended (represents_addTo hstep hq)
          have h := ih hnext (Nat.lt_of_succ_lt_succ hi)
          rw [succ_nsmul', ← add_assoc]
          exact h

theorem represents_multiples {q : Point} {Q : Curve.Point} (hq : q.Represents Q) {i : Nat}
    (hi : i < 8) : ((multiples q).getD i identity).Represents ((i + 1) • Q) := by
  rw [succ_nsmul']
  exact represents_progression hq (represents_ofExtended hq) hi

theorem represents_lookup {table : List PreparedAffine} {P : Curve.Point}
    (htable : ∀ i < 8, (table.getD i identity).Represents ((i + 1) • P)) {d : Int8}
    (hd : SmallDigit d) : (lookup table d).Represents (d.toInt • P) :=
  represents_choice represents_identity represents_negate htable hd rfl

theorem represents_oddMultiplesFrom {q twice : Point} {Q T : Curve.Point} (hq : q.Represents Q)
    (htwice : twice.Represents T) {n i : Nat} (hi : i < n) :
    ((oddMultiplesFrom q twice n).getD i identity).Represents (Q + i • T) := by
  induction n generalizing q Q i with
  | zero => exact absurd hi (Nat.not_lt_zero i)
  | succ n ih =>
      cases i with
      | zero =>
          rw [zero_nsmul, add_zero]
          exact represents_ofExtended hq
      | succ i =>
          have h := ih (Point.represents_add hq htwice) (Nat.lt_of_succ_lt_succ hi)
          rw [succ_nsmul', ← add_assoc]
          exact h

theorem represents_oddMultiples {q : Point} {Q : Curve.Point} (hq : q.Represents Q) {m : Nat}
    (hm : m % 2 = 1) (hlt : m < 128) :
    ((oddMultiples q).getD (m / 2) identity).Represents (m • Q) := by
  have h := represents_oddMultiplesFrom hq (Point.represents_double hq) (n := 64) (i := m / 2)
    (by omega)
  rwa [odd_nsmul hm] at h

theorem represents_addDigit {table : List PreparedAffine} {p : Point} {P A : Curve.Point}
    {d : Int8}
    (htable : (table.getD (d.toInt.natAbs / 2) identity).Represents (d.toInt.natAbs • P))
    (hp : p.Represents A) : (addDigit table p d).Represents (A + d.toInt • P) := by
  rw [addDigit]
  exact represents_addOrSub (represents_addTo htable hp) (represents_subFrom htable hp)

end PreparedAffine

namespace Point

theorem represents_doubleTimes {p : Point} {P : Curve.Point} (h : p.Represents P) (k : Nat) :
    (p.doubleTimes k).Represents (2 ^ k • P) := by
  induction k generalizing p P with
  | zero =>
      rw [pow_zero, one_nsmul]
      exact h
  | succ k ih =>
      have hstep := ih (represents_double h)
      rw [← two_nsmul, ← mul_nsmul, ← pow_succ'] at hstep
      exact hstep

end Point

end CurveKeys.Edwards25519
