import CurveKeys.Proofs.CheckedWords
import CurveKeys.Proofs.Edwards25519.Scalar.Residue

/-!
The reduction in checked words. A sum, a difference, a product or a shift that leaves 64 bits has no
result, nor have limbs that packing is not meant for. Wherever a schedule runs on intervals, the
checked run has a result and it is that of the wrapping one.
-/

namespace CurveKeys.Edwards25519

namespace Limbs
open Words

namespace Checked

/-- Adds the product of two limbs to a third. A product with a negative factor is taken away as the
product with its opposite. -/
def addTerm (v c x : Int64) : Option Int64 :=
  if 0 ≤ c.toInt then do addSigned? x (← mulSigned? v c)
  else do subSigned? x (← mulSigned? v (-c))

def addScaled (v : Int64) : List Int64 → List Int64 → Option (List Int64)
  | [], xs => some xs
  | _ :: _, [] => none
  | c :: cs, x :: xs => do
    let y ← addTerm v c x
    let ys ← addScaled v cs xs
    some (y :: ys)

def addProduct : List Int64 → List Int64 → List Int64 → Option (List Int64)
  | x :: xs, b, s => do
    match ← addScaled x b s with
    | [] => none
    | low :: rest => (addProduct xs b rest).map (low :: ·)
  | [], _, s => some s

def fold (i : Nat) (s : List Int64) : Option (List Int64) := do
  guard (12 ≤ i)
  let v ← s[i]?
  let high ← addScaled v foldFactors (s.drop (i - 12))
  some ((s.take (i - 12) ++ high).set i 0)

/-- The carry goes into the next limb before it is moved up and taken from its own. -/
def carryAt (carry : Int64 → Option Int64) (i : Nat) (s : List Int64) : Option (List Int64) :=
  match s.drop i with
  | x :: y :: r => do
    let c ← carry x
    let next ← addSigned? y c
    let low ← subSigned? x (← shiftLeftSigned? c 21)
    some (s.take i ++ low :: next :: r)
  | _ => none

def apply (s : List Int64) : Step → Option (List Int64)
  | .fold i => fold i s
  | .round i => carryAt (fun x => do some ((← addSigned? x 0x100000) >>> 21)) i s
  | .floor i => carryAt (fun x => some (x >>> 21)) i s

def run (steps : List Step) (s : List Int64) : Option (List Int64) := steps.foldlM apply s

end Checked

/-- The limbs that packing is meant for: twelve, none of them negative, the first eleven below
`2 ^ 21` and the last one at most that. -/
structure Packed (s : List Int64) : Prop where
  length : s.length = 12
  digits : ∀ x ∈ s.take 11, 0 ≤ x.toInt ∧ x.toInt < 2 ^ 21
  last : ∀ x ∈ s.drop 11, 0 ≤ x.toInt ∧ x.toInt ≤ 2 ^ 21

instance (s : List Int64) : Decidable (Packed s) :=
  decidable_of_iff (s.length = 12 ∧ (∀ x ∈ s.take 11, 0 ≤ x.toInt ∧ x.toInt < 2 ^ 21) ∧
      ∀ x ∈ s.drop 11, 0 ≤ x.toInt ∧ x.toInt ≤ 2 ^ 21)
    ⟨fun ⟨h, hd, hl⟩ => ⟨h, hd, hl⟩, fun ⟨h, hd, hl⟩ => ⟨h, hd, hl⟩⟩

def Checked.reduce (s : List Int64) : Option (Vector UInt8 32) := do
  let s ← run reduceSteps s
  guard (Packed (s.take 12))
  some (Bytes.window 32 (pack 0 0 (s.take 12)))

/-- A factor whose products with a limb may be taken away instead of added: no product is the least
word. -/
def Opposable (c : Int64) : Prop := c.toInt < 0 → ∀ v : Int, v * c.toInt ≠ -2 ^ 63

theorem opposable_of_nonneg {c : Int64} (h : 0 ≤ c.toInt) : Opposable c :=
  fun hneg => absurd hneg (not_lt.mpr h)

theorem opposable_foldFactors : ∀ c ∈ foldFactors, Opposable c := by
  intro c hc hneg v
  simp only [foldFactors, List.mem_cons, List.not_mem_nil, or_false] at hc
  -- those taken away are odd, so a power of two is no multiple of them
  rcases hc with rfl | rfl | rfl | rfl | rfl | rfl <;> simp only [Int64.reduceToInt] at hneg ⊢ <;>
    omega

theorem toInt_neg {x : Int64} (h : x.toInt ≠ -2 ^ 63) : (-x).toInt = -x.toInt := by
  have hlo := x.le_toInt
  have hhi := x.toInt_lt
  rw [Int64.toInt_neg]
  exact Interval.bmod_eq_self (by omega) (by omega)

theorem addTerm_eq {v c x : Int64} (hc : Opposable c) (hprod : (v * c).toInt = v.toInt * c.toInt)
    (hsum : (x + v * c).toInt = x.toInt + (v * c).toInt) :
    Checked.addTerm v c x = some (x + v * c) := by
  rw [Checked.addTerm]
  split
  · rw [bind_eq_of_eq_some (mulSigned?_eq hprod), addSigned?_eq hsum]
  · next hneg =>
      have hfactor : (-c).toInt = -c.toInt :=
        toInt_neg (by simpa using hc (not_le.mp hneg) 1)
      have hopposite : (v * -c).toInt = -(v * c).toInt := by
        rw [Int64.mul_neg]
        exact toInt_neg (by rw [hprod]; exact hc (not_le.mp hneg) v.toInt)
      have hdiff : x - v * -c = x + v * c := by rw [Int64.mul_neg, Int64.sub_neg]
      rw [bind_eq_of_eq_some (mulSigned?_eq (by rw [hopposite, hfactor, hprod, mul_neg])), ← hdiff]
      exact subSigned?_eq (by rw [hdiff, hsum, hopposite, sub_neg_eq_add])

theorem addScaled_eq {V : Interval} {v : Int64} (hv : V.Contains v) {C X R : Box}
    {c x : List Int64} (hc : Within C c) (hopp : ∀ y ∈ c, Opposable y) (hx : Within X x)
    (h : addScaled? V C X = some R) : Checked.addScaled v c x = some (addScaled v c x) := by
  induction hc generalizing X x R with
  | nil => rfl
  | cons hc _ ih =>
      cases hx with
      | nil => exact nomatch h
      | cons hx hxs =>
          simp only [addScaled?, Option.bind_eq_bind, Option.bind_eq_some_iff] at h
          obtain ⟨P, hP, S, hS, R', hR, -⟩ := h
          obtain ⟨hopp, hrest⟩ := List.forall_mem_cons.mp hopp
          obtain ⟨hprod, hp⟩ := Interval.contains_mul? hP hv hc
          obtain ⟨hsum, -⟩ := Interval.contains_add? hS hx hp
          rw [Checked.addScaled, bind_eq_of_eq_some (addTerm_eq hopp hprod hsum),
            bind_eq_of_eq_some (ih hrest hxs hR), addScaled]

theorem addProduct_eq {A B S R : Box} {a b s : List Int64} (ha : Within A a) (hb : Within B b)
    (hopp : ∀ y ∈ b, Opposable y) (hs : Within S s) (h : addProduct? A B S = some R) :
    Checked.addProduct a b s = some (addProduct a b s) := by
  induction ha generalizing S s R with
  | nil => rfl
  | @cons X x Xs xs hx _ ih =>
      rw [addProduct?] at h
      split at h
      · next L R' hadd =>
          obtain ⟨T, hT, -⟩ := Option.map_eq_some_iff.mp h
          obtain ⟨hw, -⟩ := addScaled_sound hx hb hs hadd
          rw [Checked.addProduct, bind_eq_of_eq_some (addScaled_eq hx hb hopp hs hadd), addProduct]
          generalize addScaled x b s = sum at hw ⊢
          cases hw with
          | cons _ hr => simp only [ih hr hT, Option.map_some]
      · cases h

theorem fold_eq {i : Nat} {box box' : Box} {s : List Int64} (h : fold? i box = some box')
    (hs : Within box s) : Checked.fold i s = some (Step.apply s (.fold i)) := by
  rw [fold?] at h
  split at h
  · next hi =>
      obtain ⟨R, hR, -⟩ := Option.bind_eq_some_iff.mp h
      have hrow := addScaled_eq (contains_getD hs i) (within_point foldFactors)
        opposable_foldFactors (List.forall₂_drop (i - 12) hs) hR
      rw [hs.length_eq] at hi
      have hguard : guard (12 ≤ i) = some () := if_pos hi.1
      have hread : s[i]? = some (s.getD i 0) := by
        rw [List.getElem?_eq_getElem hi.2, List.getD_eq_getElem _ _ hi.2]
      rw [Checked.fold, bind_eq_of_eq_some hguard, bind_eq_of_eq_some hread,
        bind_eq_of_eq_some hrow, Step.apply]
  · cases h

theorem carryAt_eq {bias : Int} {carry : Int64 → Int64} {carry' : Int64 → Option Int64}
    (hc : Carries bias carry)
    (hchecked : ∀ x : Int64, x.toInt + bias < 2 ^ 63 → carry' x = some (carry x)) {i : Nat}
    {box box' : Box} {s : List Int64} (h : carry? bias i box = some box') (hs : Within box s) :
    Checked.carryAt carry' i s = some (carryAt carry i s) := by
  have hdrop := List.forall₂_drop i hs
  rw [Checked.carryAt, carryAt]
  rw [carry?] at h
  generalize box.drop i = rest at h hdrop
  generalize s.drop i = limbs at hdrop ⊢
  cases hdrop with
  | nil => cases h
  | @cons X x _ _ hx hrest =>
      cases hrest with
      | nil => cases h
      | @cons Y y _ _ hy hrest =>
          simp only [Option.bind_eq_bind, Option.bind_eq_some_iff] at h
          obtain ⟨_, hcheck, Z, hZ, -⟩ := h
          obtain ⟨-, hlo, hhi⟩ := Interval.of_checked hcheck
          obtain ⟨hx0, hx1⟩ := hx
          obtain ⟨hshift, hdiff⟩ := hc.exact (x := x) (by omega) (by omega)
          obtain ⟨hsum, -⟩ := Interval.contains_add? hZ hy
            (hc.contains ⟨hx0, hx1⟩ (by omega))
          simp only [bind_eq_of_eq_some (hchecked x (by omega)),
            bind_eq_of_eq_some (addSigned?_eq hsum),
            bind_eq_of_eq_some (shiftLeftSigned?_eq hshift),
            bind_eq_of_eq_some (subSigned?_eq hdiff)]

theorem apply_eq {st : Step} {box box' : Box} {s : List Int64} (h : st.bounds? box = some box')
    (hs : Within box s) : Checked.apply s st = some (Step.apply s st) := by
  cases st with
  | fold i => exact fold_eq h hs
  | round i =>
      refine carryAt_eq carries_round (fun x hx => ?_) h hs
      rw [bind_eq_of_eq_some (addSigned?_eq (toInt_add_half hx))]
  | floor i => exact carryAt_eq carries_floor (fun x _ => rfl) h hs

/-- Where a schedule runs on intervals, no step of it leaves a word on any limbs within them. -/
theorem run_eq {steps : List Step} {box box' : Box} {s : List Int64}
    (h : run? steps box = some box') (hs : Within box s) :
    Checked.run steps s = some (run steps s) := by
  induction steps generalizing box s with
  | nil => rfl
  | cons st steps ih =>
      obtain ⟨mid, hmid, h⟩ := Option.bind_eq_some_iff.mp h
      rw [Checked.run, List.foldlM_cons, bind_eq_of_eq_some (apply_eq hmid hs)]
      exact ih h (step_sound hmid hs).1

/-- Limbs at the end that spell a residue are meant for packing. -/
theorem packed_of_lastBox {s : List Int64} (hs : Within lastBox s) (h0 : 0 ≤ toInt s) :
    Packed (s.take 12) := by
  obtain ⟨a, y, htake, ha, hy0, hy1, -⟩ := exists_digits hs h0
  have hlen := length_plain ha
  rw [htake]
  refine ⟨by rw [List.length_append, hlen]; rfl, ?_, ?_⟩
  · rw [List.take_left' hlen]
    intro x hx
    obtain ⟨I, hI, hx0, hx1⟩ := exists_interval_of_mem ha hx
    rw [List.eq_of_mem_replicate hI] at hx0 hx1
    exact ⟨hx0, Int.lt_of_le_sub_one hx1⟩
  · rw [List.drop_left' hlen]
    intro x hx
    rw [List.mem_singleton.mp hx]
    exact ⟨hy0, hy1⟩

theorem reduce_eq {box : Box} (h : run? settleSteps box = some lowBox) {s : List Int64}
    (hs : Within box s) : Checked.reduce s = some (reduce s) := by
  have hrun := run?_reduceSteps h
  have hpacked : Packed ((run reduceSteps s).take 12) := by
    refine packed_of_lastBox (run_sound hrun hs).1 ?_
    rw [toInt_run_reduceSteps h hs]
    exact Int.emod_nonneg _ (by decide)
  have hguard : guard (Packed ((run reduceSteps s).take 12)) = some () := if_pos hpacked
  rw [Checked.reduce, bind_eq_of_eq_some (run_eq hrun hs), bind_eq_of_eq_some hguard, reduce]

end Limbs

namespace Scalar
open Limbs Words

def ofWide? (b : Vector UInt8 64) : Option Scalar := do
  some ⟨← Checked.reduce (load 24 b.toList)⟩

def ofBytes? (b : Vector UInt8 32) : Option Scalar := do
  some ⟨← Checked.reduce (load 24 (b.toList ++ List.replicate 32 0))⟩

def mulAdd? (a b c : Scalar) : Option Scalar := do
  let limbs (s : Scalar) := load 12 s.bytes.toList
  let sum ← Checked.addProduct (limbs a) (limbs b) (limbs c ++ List.replicate 12 0)
  let sum ← Checked.run productSteps sum
  some ⟨← Checked.reduce sum⟩

def add? (a b : Scalar) : Option Scalar := mulAdd? a one b

def sub? (a b : Scalar) : Option Scalar := mulAdd? b minusOne a

def mul? (a b : Scalar) : Option Scalar := mulAdd? a b zero

def negate? (a : Scalar) : Option Scalar := mulAdd? a minusOne zero

theorem opposable_load {n : Nat} {b : Bytes} : ∀ x ∈ load (n + 1) b, Opposable x := by
  intro x hx
  obtain ⟨I, hI, hx0, -⟩ := exists_interval_of_mem (within_load n b) hx
  have hI0 : I.lo = 0 := by
    rcases List.mem_append.mp hI with hI | hI
    · rw [List.eq_of_mem_replicate hI]
    · rw [List.mem_singleton.mp hI]
  exact opposable_of_nonneg (hI0 ▸ hx0)

theorem ofWide?_eq (b : Vector UInt8 64) : ofWide? b = some (ofWide b) := by
  rw [ofWide?, bind_eq_of_eq_some (reduce_eq settle_wide (within_load 23 b.toList)), ofWide]

theorem ofBytes?_eq (b : Vector UInt8 32) : ofBytes? b = some (ofBytes b) := by
  rw [ofBytes?, bind_eq_of_eq_some (reduce_eq settle_wide (within_load 23 _)), ofBytes]

theorem mulAdd?_eq (a b c : Scalar) : mulAdd? a b c = some (mulAdd a b c) := by
  have within (s : Scalar) := within_load 11 s.bytes.toList
  obtain ⟨box, hbox, hsettle⟩ := Option.bind_eq_some_iff.mp settle_product
  obtain ⟨sum, hsum, hcarry⟩ := Option.bind_eq_some_iff.mp hbox
  have hsummand := within_append (within c) (within_nothing 12)
  obtain ⟨hw, -⟩ := addProduct_sound (within a) (within b) hsummand hsum
  have hproduct := addProduct_eq (within a) (within b) opposable_load hsummand hsum
  obtain ⟨hw', -⟩ := run_sound hcarry hw
  rw [mulAdd?, bind_eq_of_eq_some hproduct, bind_eq_of_eq_some (run_eq hcarry hw),
    bind_eq_of_eq_some (reduce_eq hsettle hw'), mulAdd]

end Scalar

end CurveKeys.Edwards25519
