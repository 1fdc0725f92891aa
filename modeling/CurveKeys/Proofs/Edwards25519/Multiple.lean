import CurveKeys.Proofs.Edwards25519.Table
import CurveKeys.Edwards25519.Multiple

/-!
The multiples of a point, those of the base point and the joint multiples. Each run over digits
keeps the multiple that the digits taken so far spell, and the digits of a scalar spell the scalar.
-/

namespace CurveKeys.Edwards25519.Point
open Curve (base)
open Edwards25519.Digits (SmallDigit OddDigit signedRadix16 nonAdjacent)

section Windows

/-- One step of `mul`: four doublings, and the entry for a digit. -/
def windowStep (p : Point) (digit : Int8) (acc : CompletedPoint) : CompletedPoint :=
  (PreparedPoint.lookup (PreparedPoint.multiples p) digit).addTo
    ((acc.toProjective.doubleTimes 3).double.toExtended)

theorem represents_windowStep {p : Point} {P A : Curve.Point} {acc : CompletedPoint}
    (hp : p.Represents P) (hacc : acc.Represents A) {d : Int8} (hd : SmallDigit d) :
    (windowStep p d acc).Represents ((16 : ℤ) • A + d.toInt • P) := by
  have hshift := CompletedPoint.represents_toExtended (ProjectivePoint.represents_double
    (ProjectivePoint.represents_doubleTimes (CompletedPoint.represents_toProjective hacc) 3))
  have h := PreparedPoint.represents_addTo (PreparedPoint.represents_lookup hp hd) hshift
  have hsixteen : 2 ^ 3 • A + 2 ^ 3 • A = (16 : ℤ) • A := by
    module
  rw [hsixteen] at h
  exact h

/-- The accumulator starts at the top digit, and stands for what the digits taken so far spell. -/
theorem represents_windowRun {p : Point} {P : Curve.Point} {start : CompletedPoint}
    (hp : p.Represents P) {top : Int8} (hstart : start.Represents (top.toInt • P))
    {l : List Int8} (hl : ∀ d ∈ l, SmallDigit d) :
    (l.foldr (windowStep p) start).Represents
      (Digits.value 16 ((l ++ [top]).map Int8.toInt) • P) := by
  induction l with
  | nil => simpa [Digits.value] using hstart
  | cons d l ih =>
      obtain ⟨hd, hl⟩ := List.forall_mem_cons.mp hl
      have h := represents_windowStep hp (ih hl) hd
      have hvalue (v : ℤ) : (16 : ℤ) • v • P + d.toInt • P = (d.toInt + 16 * v) • P := by
        module
      rw [hvalue] at h
      exact h

theorem mul_eq {p : Point} {k : Scalar} {top : Int8} {l : List Int8}
    (h : signedRadix16 k = l ++ [top]) :
    p.mul k = (l.foldr (windowStep p) ((PreparedPoint.lookup (PreparedPoint.multiples p) top).addTo
      identity)).toExtended := by
  simp only [mul, h, List.reverse_append, List.reverse_singleton, List.singleton_append,
    List.foldl_reverse]
  rfl

theorem represents_mul {p : Point} {P : Curve.Point} (hp : p.Represents P) {k : Scalar}
    (hk : k.toNat < 2 ^ 255) : (p.mul k).Represents (k.toNat • P) := by
  obtain ⟨hdigits, hvalue⟩ := Digits.signedRadix16_spec hk
  have hlen := Digits.length_signedRadix16 k
  obtain ⟨l, top, hl⟩ : ∃ l top, signedRadix16 k = l ++ [top] := by
    refine (List.eq_nil_or_concat' _).resolve_left ?_
    intro hnil
    rw [hnil] at hlen
    exact absurd hlen (by decide)
  rw [hl] at hdigits hvalue
  have hstart := PreparedPoint.represents_addTo (PreparedPoint.represents_lookup hp
    (hdigits top (List.mem_append_right _ (List.mem_singleton_self top)))) represents_identity
  rw [zero_add] at hstart
  have h := represents_windowRun hp hstart fun d hd => hdigits d (List.mem_append_left _ hd)
  rw [hvalue, natCast_zsmul] at h
  rw [mul_eq hl]
  exact CompletedPoint.represents_toExtended h

end Windows

section Tables

theorem addTables_cons (table : List PreparedAffine) (tables : List (List PreparedAffine))
    (d : Int8) (ds : List Int8) (acc : Point) :
    addTables (table :: tables) (d :: ds) acc =
      addTables tables ds ((PreparedAffine.lookup table d).addTo acc).toExtended := by
  rw [addTables, addTables, List.zip_cons_cons, List.foldl_cons]

/-- The digits of the powers of 256, each with the table of its power. -/
theorem represents_addTables {p acc : Point} {P A : Curve.Point} (hp : p.Represents P)
    (hacc : acc.Represents A) {ds : List Int8} (hds : ∀ d ∈ ds, SmallDigit d) :
    (addTables (byteTables p ds.length) ds acc).Represents
      (A + Digits.value 256 (ds.map Int8.toInt) • P) := by
  -- the first digit meets the table of `p`, and the other tables are those of `256 p`
  induction ds generalizing p acc P A with
  | nil =>
      rw [List.map_nil, Digits.value, zero_zsmul, add_zero]
      exact hacc
  | cons d ds ih =>
      obtain ⟨hd, hds⟩ := List.forall_mem_cons.mp hds
      have hentry := PreparedAffine.represents_lookup
        (fun i hi => PreparedAffine.represents_multiples hp hi) hd
      have hsum := CompletedPoint.represents_toExtended
        (PreparedAffine.represents_addTo hentry hacc)
      have h := ih (represents_doubleTimes hp 8) hsum hds
      have hvalue (v : ℤ) : A + d.toInt • P + v • 2 ^ 8 • P = A + (d.toInt + 256 * v) • P := by
        module
      rw [hvalue] at h
      rw [List.length_cons, byteTables, addTables_cons, List.map_cons, Digits.value]
      exact h

theorem forall_mem_splitDigits {ds : List Int8} {good : Int8 → Prop} (h : ∀ d ∈ ds, good d) :
    (∀ d ∈ (splitDigits ds).1, good d) ∧ ∀ d ∈ (splitDigits ds).2, good d := by
  induction ds using splitDigits.induct with
  | case1 even odd ds _ _ _ ih =>
      obtain ⟨heven, h⟩ := List.forall_mem_cons.mp h
      obtain ⟨hodd, h⟩ := List.forall_mem_cons.mp h
      obtain ⟨hevens, hodds⟩ := ih h
      exact ⟨List.forall_mem_cons.mpr ⟨heven, hevens⟩, List.forall_mem_cons.mpr ⟨hodd, hodds⟩⟩
  | case2 ds hds =>
      rw [splitDigits]
      · exact ⟨h, List.forall_mem_nil _⟩
      · exact hds

theorem splitDigits_spec {ds : List Int8} {n : Nat} (hlen : ds.length = 2 * n) :
    (splitDigits ds).1.length = n ∧ (splitDigits ds).2.length = n ∧
      Digits.value 16 (ds.map Int8.toInt) =
        Digits.value 256 ((splitDigits ds).1.map Int8.toInt) +
          16 * Digits.value 256 ((splitDigits ds).2.map Int8.toInt) := by
  induction n generalizing ds with
  | zero =>
      obtain rfl := List.length_eq_zero_iff.mp hlen
      exact ⟨rfl, rfl, rfl⟩
  | succ n ih =>
      match ds, hlen with
      | even :: odd :: ds, hlen =>
          have hrest : ds.length = 2 * n := by
            simp only [List.length_cons] at hlen
            omega
          obtain ⟨hevens, hodds, hvalue⟩ := ih hrest
          refine ⟨congrArg Nat.succ hevens, congrArg Nat.succ hodds, ?_⟩
          rw [splitDigits]
          simp only [List.map_cons, Digits.value]
          rw [hvalue]
          ring

theorem mulBase_eq (k : Scalar) :
    mulBase k = addTables (byteTables generator 32) (splitDigits (signedRadix16 k)).1
      ((ProjectivePoint.ofExtended (addTables (byteTables generator 32)
        (splitDigits (signedRadix16 k)).2 identity)).doubleTimes 3).double.toExtended := by
  rw [mulBase, baseTables]

/-- The sum for the odd digits is taken 16 times before the even ones are added. -/
theorem represents_mulBase {k : Scalar} (hk : k.toNat < 2 ^ 255) :
    (mulBase k).Represents (k.toNat • base) := by
  obtain ⟨hdigits, hvalue⟩ := Digits.signedRadix16_spec hk
  obtain ⟨hevenDigits, hoddDigits⟩ := forall_mem_splitDigits hdigits
  obtain ⟨hevens, hodds, hsplit⟩ := splitDigits_spec (n := 32) (Digits.length_signedRadix16 k)
  have hhigh := represents_addTables represents_generator represents_identity hoddDigits
  rw [hodds] at hhigh
  have hshift := CompletedPoint.represents_toExtended (ProjectivePoint.represents_double
    (ProjectivePoint.represents_doubleTimes (ProjectivePoint.represents_ofExtended hhigh) 3))
  have h := represents_addTables represents_generator hshift hevenDigits
  rw [hevens, ← mulBase_eq] at h
  have hjoin (v w : ℤ) : 2 ^ 3 • (0 + v • base) + 2 ^ 3 • (0 + v • base) + w • base =
      (w + 16 * v) • base := by
    module
  rw [hjoin, ← hsplit, hvalue, natCast_zsmul] at h
  exact h

end Tables

section Joint

/-- A digit zero adds nothing, and any other one is odd and within the table. -/
theorem represents_addOdd {w : Nat} {d : Int8} (hd : OddDigit w d) {sum other : CompletedPoint}
    {A P : Curve.Point} (hsum : sum.Represents A)
    (hother : d.toInt.natAbs % 2 = 1 → d.toInt.natAbs < 2 ^ (w - 1) →
      other.Represents (A + d.toInt • P)) :
    (if d = 0 then sum else other).Represents (A + d.toInt • P) := by
  rcases hd with rfl | ⟨hodd, hlt⟩
  · rw [if_pos rfl, Int8.toInt_zero, zero_zsmul, add_zero]
    exact hsum
  · have hne : d ≠ 0 := by
      rintro rfl
      exact absurd hodd (by decide)
    rw [if_neg hne]
    exact hother hodd hlt

/-- One step doubles the accumulator and adds the multiples by the two digits. -/
theorem represents_jointStep {p : Point} {P A : Curve.Point} {acc : ProjectivePoint}
    (hp : p.Represents P) (hacc : acc.Represents A) {digits : Int8 × Int8}
    (hleft : OddDigit 5 digits.1) (hright : OddDigit 8 digits.2) :
    (jointStep (PreparedPoint.oddMultiples p) acc digits).Represents
      ((2 : ℤ) • A + digits.1.toInt • P + digits.2.toInt • base) := by
  have hdouble := ProjectivePoint.represents_double hacc
  rw [← two_zsmul] at hdouble
  have hfirst := represents_addOdd hleft hdouble fun hodd hlt =>
    PreparedPoint.represents_addDigit (PreparedPoint.represents_oddMultiples hp hodd hlt)
      (CompletedPoint.represents_toExtended hdouble)
  rw [jointStep]
  refine CompletedPoint.represents_toProjective (represents_addOdd hright hfirst ?_)
  intro hodd hlt
  rw [baseOddTable]
  exact PreparedAffine.represents_addDigit
    (PreparedAffine.represents_oddMultiples represents_generator hodd hlt)
    (CompletedPoint.represents_toExtended hfirst)

/-- The multiples that pairs of digits spell, the lowest pair first. -/
def joint (P : Curve.Point) (l : List (Int8 × Int8)) : Curve.Point :=
  Digits.value 2 (l.map fun d => d.1.toInt) • P +
    Digits.value 2 (l.map fun d => d.2.toInt) • base

theorem represents_jointRun {p : Point} {P : Curve.Point} (hp : p.Represents P)
    {l : List (Int8 × Int8)} (hl : ∀ d ∈ l, OddDigit 5 d.1 ∧ OddDigit 8 d.2) :
    (l.foldr (fun d acc => jointStep (PreparedPoint.oddMultiples p) acc d)
      ProjectivePoint.identity).Represents (joint P l) := by
  -- the fold begins with the last pair, so the accumulator stands for what the tail spells
  induction l with
  | nil =>
      rw [joint, List.map_nil, List.map_nil, Digits.value, zero_zsmul, zero_zsmul, add_zero]
      exact ProjectivePoint.represents_identity
  | cons d l ih =>
      obtain ⟨⟨hleft, hright⟩, hl⟩ := List.forall_mem_cons.mp hl
      have h := represents_jointStep hp (ih hl) hleft hright
      rw [joint] at h ⊢
      have hstep (v w : ℤ) : (2 : ℤ) • (v • P + w • base) + d.1.toInt • P + d.2.toInt • base =
          (d.1.toInt + 2 * v) • P + (d.2.toInt + 2 * w) • base := by
        module
      rw [hstep] at h
      exact h

/-- Digits at the top that are zero can be left out. -/
theorem value_dropWhile {α : Type} {zero : α → Bool} {f : α → Int}
    (hf : ∀ x, zero x = true → f x = 0) (l : List α) :
    Digits.value 2 ((l.reverse.dropWhile zero).reverse.map f) = Digits.value 2 (l.map f) := by
  have hzeros : (l.reverse.takeWhile zero).reverse.map f =
      List.replicate (l.reverse.takeWhile zero).reverse.length 0 :=
    List.map_eq_replicate_iff.mpr fun x hx =>
      hf x (List.mem_takeWhile_imp (List.mem_reverse.mp hx))
  have hl : l = (l.reverse.dropWhile zero).reverse ++ (l.reverse.takeWhile zero).reverse := by
    rw [← List.reverse_append, List.takeWhile_append_dropWhile, List.reverse_reverse]
  conv_rhs => rw [hl]
  rw [List.map_append, Digits.value_append, hzeros, Digits.value_replicate_zero, mul_zero,
    add_zero]

/-- Pairs of zeros at the top spell nothing. -/
theorem joint_dropWhile (P : Curve.Point) (l : List (Int8 × Int8)) :
    joint P (l.reverse.dropWhile (· == (0, 0))).reverse = joint P l := by
  have hleft (d : Int8 × Int8) (hd : (d == (0, 0)) = true) : d.1.toInt = 0 := by
    rw [beq_iff_eq.mp hd]
    rfl
  have hright (d : Int8 × Int8) (hd : (d == (0, 0)) = true) : d.2.toInt = 0 := by
    rw [beq_iff_eq.mp hd]
    rfl
  rw [joint, joint, value_dropWhile hleft, value_dropWhile hright]

theorem joint_nonAdjacent (P : Curve.Point) {a b : Scalar} (ha : a.toNat ≤ 2 ^ 255)
    (hb : b.toNat ≤ 2 ^ 255) :
    joint P ((nonAdjacent 5 a).zip (nonAdjacent 8 b)) = a.toNat • P + b.toNat • base := by
  have hlen := (Digits.length_nonAdjacent 5 a).trans (Digits.length_nonAdjacent 8 b).symm
  have hfst := congrArg (List.map Int8.toInt) (List.map_fst_zip hlen.le)
  have hsnd := congrArg (List.map Int8.toInt) (List.map_snd_zip hlen.ge)
  rw [List.map_map, Function.comp_def] at hfst hsnd
  rw [joint, hfst, hsnd, Digits.value_nonAdjacent (by decide) (by decide) ha,
    Digits.value_nonAdjacent (by decide) (by decide) hb, natCast_zsmul, natCast_zsmul]

theorem oddDigits_of_mem_zip {a b : Scalar} {d : Int8 × Int8}
    (h : d ∈ (nonAdjacent 5 a).zip (nonAdjacent 8 b)) : OddDigit 5 d.1 ∧ OddDigit 8 d.2 := by
  obtain ⟨hleft, hright⟩ := List.of_mem_zip h
  exact ⟨Digits.oddDigit_of_mem_nonAdjacent (by decide) (by decide) hleft,
    Digits.oddDigit_of_mem_nonAdjacent (by decide) (by decide) hright⟩

theorem represents_doubleMulBase {a b : Scalar} {p : Point} {P : Curve.Point}
    (hp : p.Represents P) (ha : a.toNat ≤ 2 ^ 255) (hb : b.toNat ≤ 2 ^ 255) :
    (doubleMulBase a p b).Represents (a.toNat • P + b.toNat • base) := by
  rw [doubleMulBase, List.foldl_eq_foldr_reverse, ← joint_nonAdjacent P ha hb, ← joint_dropWhile]
  refine ProjectivePoint.represents_toExtended (represents_jointRun hp ?_)
  intro d hd
  exact oddDigits_of_mem_zip
    (List.mem_reverse.mp (List.dropWhile_subset _ (List.mem_reverse.mp hd)))

end Joint

end CurveKeys.Edwards25519.Point
