import CurveKeys.Proofs.Secp256k1.Field.Checked

/-!
Programs over the field. A program applies operations one after another to earlier results, and it
runs in three ways: in wrapping words, in checked words, and on integers that carry a magnitude.
A program that keeps to the magnitudes has one and the same run in both kinds of words, and each
result respects its magnitude and is congruent to its integer.
-/

namespace CurveKeys.Secp256k1.FieldProgram

/-- An operation; its operands are named by their positions among the earlier results. -/
inductive Operation where
  | ofUInt32 (v : UInt32)
  | ofUInt64 (v : UInt64)
  | reduceBytes (b : Vector UInt8 32)
  | add (i j : Nat)
  | addInt (i : Nat) (v : UInt32)
  | mulInt (i : Nat) (v : UInt32)
  | double (i : Nat)
  | negate (i : Nat) (magnitude : UInt32)
  | mul (i j : Nat)
  | square (i : Nat)
  | normalizeWeak (i : Nat)
  | normalize (i : Nat)
  | select (i j : Nat) (flag : Bool)

/-- What the operations do to values of one kind, where they are defined. -/
structure Interpretation (α : Type) where
  ofUInt32 : UInt32 → Option α
  ofUInt64 : UInt64 → Option α
  reduceBytes : Vector UInt8 32 → Option α
  add : α → α → Option α
  addInt : α → UInt32 → Option α
  mulInt : α → UInt32 → Option α
  double : α → Option α
  negate : α → UInt32 → Option α
  mul : α → α → Option α
  square : α → Option α
  normalizeWeak : α → Option α
  normalize : α → Option α
  select : α → α → Bool → Option α

def Operation.apply {α : Type} (I : Interpretation α) (xs : List α) : Operation → Option α
  | ofUInt32 v => I.ofUInt32 v
  | ofUInt64 v => I.ofUInt64 v
  | reduceBytes b => I.reduceBytes b
  | add i j => do I.add (← xs[i]?) (← xs[j]?)
  | addInt i v => do I.addInt (← xs[i]?) v
  | mulInt i v => do I.mulInt (← xs[i]?) v
  | double i => do I.double (← xs[i]?)
  | negate i magnitude => do I.negate (← xs[i]?) magnitude
  | mul i j => do I.mul (← xs[i]?) (← xs[j]?)
  | square i => do I.square (← xs[i]?)
  | normalizeWeak i => do I.normalizeWeak (← xs[i]?)
  | normalize i => do I.normalize (← xs[i]?)
  | select i j flag => do I.select (← xs[i]?) (← xs[j]?) flag

/-- All results of a program, after the ones that it starts from. -/
def run {α : Type} (I : Interpretation α) : List Operation → List α → Option (List α)
  | [], xs => some xs
  | op :: program, xs => do run I program (xs ++ [← op.apply I xs])

/-- The operations as they are. -/
def words : Interpretation FieldElement where
  ofUInt32 v := some (.ofUInt32 v)
  ofUInt64 v := some (.ofUInt64 v)
  reduceBytes b := some (FieldElement.reduceBytes b).1
  add a b := some (a.add b)
  addInt a v := some (a.addInt v)
  mulInt a v := some (a.mulInt v)
  double a := some a.double
  negate a magnitude := some (a.negate magnitude)
  mul a b := some (a.mul b)
  square a := some a.square
  normalizeWeak a := some a.normalizeWeak
  normalize a := some a.normalize
  select a b flag := some (CurveKeys.select a b flag)

/-- The operations without a result where a word would wrap or an assertion fail. Splitting a word
into limbs and choosing between elements only move bits. -/
def checked : Interpretation FieldElement where
  ofUInt32 v := some (.ofUInt32 v)
  ofUInt64 v := some (.ofUInt64 v)
  reduceBytes := FieldElement.reduceBytes?
  add := FieldElement.add?
  addInt := FieldElement.addInt?
  mulInt := FieldElement.mulInt?
  double := FieldElement.double?
  negate := FieldElement.negate?
  mul := FieldElement.mul?
  square := FieldElement.square?
  normalizeWeak := FieldElement.normalizeWeak?
  normalize := FieldElement.normalize?
  select a b flag := some (CurveKeys.select a b flag)

/-- An integer and the magnitude at which it is computed. -/
structure Tracked where
  magnitude : Nat
  value : ℤ
deriving DecidableEq

/-- A result is within the discipline when no operand is above the bound and it is not above 32. -/
def disciplined (bound : Nat) (operands : List Tracked) (t : Tracked) : Option Tracked :=
  if (∀ x ∈ operands, x.magnitude ≤ bound) ∧ t.magnitude ≤ 32 then some t else none

/-- The operations on integers, under the discipline of the magnitudes. -/
def tracked : Interpretation Tracked where
  ofUInt32 v := some ⟨1, v.toNat⟩
  ofUInt64 v := some ⟨1, v.toNat⟩
  reduceBytes b := some ⟨1, Bytes.toNatBE b.toList⟩
  add x y := disciplined 31 [x, y] ⟨x.magnitude + y.magnitude, x.value + y.value⟩
  addInt x v := do
    guard (v.toNat < 2 ^ 26)
    disciplined 31 [x] ⟨x.magnitude + 1, x.value + v.toNat⟩
  mulInt x v := disciplined 31 [x] ⟨x.magnitude * v.toNat, x.value * v.toNat⟩
  double x := disciplined 31 [x] ⟨x.magnitude * 2, 2 * x.value⟩
  negate x magnitude := do
    guard (magnitude.toNat ≤ 31)
    disciplined magnitude.toNat [x] ⟨magnitude.toNat + 1, -x.value⟩
  mul x y := disciplined 8 [x, y] ⟨1, x.value * y.value⟩
  square x := disciplined 8 [x] ⟨1, x.value ^ 2⟩
  normalizeWeak x := disciplined 31 [x] ⟨1, x.value⟩
  normalize x := disciplined 31 [x] ⟨1, x.value⟩
  select x y flag := disciplined 31 [x, y]
    ⟨max x.magnitude y.magnitude, CurveKeys.select x.value y.value flag⟩

/-- The limbs respect the magnitude, and what they spell is congruent to the integer. -/
structure Tracks (a : FieldElement) (x : Tracked) : Prop where
  magnitude : a.Magnitude x.magnitude
  value : (a.toNat : ℤ) ≡ x.value [ZMOD FieldElement.prime]

open FieldElement

variable {a b : FieldElement} {x y : Tracked} {w c : Option FieldElement} {t : Option Tracked}

theorem tracks_iff : Tracks a x ↔ a.Denotes x.magnitude (x.value : ZMod prime) := by
  have hv : (a.toNat : ℤ) ≡ x.value [ZMOD prime] ↔ a.residue = x.value := by
    rw [← ZMod.intCast_eq_intCast_iff, Int.cast_natCast, residue]
  exact ⟨fun h => ⟨h.magnitude, hv.mp h.value⟩, fun h => ⟨h.magnitude, hv.mpr h.residue⟩⟩

/-- Where the tracked result is defined, the wrapping and the checked one are both the same element,
and that is what it tracks. -/
def Agree (w c : Option FieldElement) (t : Option Tracked) : Prop :=
  ∀ x, t = some x → ∃ a, w = some a ∧ c = some a ∧ Tracks a x

theorem agree_some (h : Tracks a x) : Agree (some a) (some a) (some x) := by
  rintro _ ⟨⟩
  exact ⟨a, rfl, rfl, h⟩

theorem agree_natCast {n : Nat} (h : a.Denotes 1 n) :
    Agree (some a) (some a) (some ⟨1, n⟩) :=
  agree_some (tracks_iff.mpr (denotes_congr h (Int.cast_natCast n).symm))

theorem agree_bind {f g : FieldElement → Option FieldElement} {k : Tracked → Option Tracked}
    (h : Agree w c t) (hf : ∀ a x, Tracks a x → Agree (f a) (g a) (k x)) :
    Agree (w >>= f) (c >>= g) (t >>= k) := by
  intro z hz
  obtain ⟨x, hx, hz⟩ := Option.bind_eq_some_iff.mp hz
  obtain ⟨a, rfl, rfl, ha⟩ := h x hx
  exact hf a x ha z hz

theorem agree_guard {p : Prop} [Decidable p] (h : p → Agree w c t) :
    Agree w c (do guard p; t) := by
  by_cases hp : p
  · rw [guard, if_pos hp]
    exact h hp
  · rw [guard, if_neg hp]
    exact fun _ hz => nomatch hz

theorem agree_disciplined {bound : Nat} {operands : List Tracked}
    (h : (∀ y ∈ operands, y.magnitude ≤ bound) → x.magnitude ≤ 32 →
      c = some a ∧ a.Denotes x.magnitude (x.value : ZMod prime)) :
    Agree (some a) c (disciplined bound operands x) := by
  intro z hz
  rw [disciplined] at hz
  split at hz
  · next hb =>
      obtain ⟨hc, hd⟩ := h hb.1 hb.2
      obtain rfl := Option.some.inj hz
      exact ⟨a, rfl, hc, tracks_iff.mpr hd⟩
  · exact nomatch hz

theorem agree_add (ha : Tracks a x) (hb : Tracks b y) :
    Agree (words.add a b) (checked.add a b) (tracked.add x y) := by
  refine agree_disciplined fun _ hsum => ⟨?_, ?_⟩
  · exact add?_eq ha.magnitude hb.magnitude hsum
  · rw [Int.cast_add]
    exact denotes_add (tracks_iff.mp ha) (tracks_iff.mp hb) hsum

theorem agree_addInt (v : UInt32) (ha : Tracks a x) :
    Agree (words.addInt a v) (checked.addInt a v) (tracked.addInt x v) := by
  refine agree_guard fun hv => agree_disciplined fun hx _ => ?_
  have hm : x.magnitude ≤ 31 := hx x List.mem_cons_self
  refine ⟨addInt?_eq ha.magnitude hm hv, ?_⟩
  rw [Int.cast_add, Int.cast_natCast]
  exact denotes_addInt v (tracks_iff.mp ha) hm hv

theorem agree_mulInt (v : UInt32) (ha : Tracks a x) :
    Agree (words.mulInt a v) (checked.mulInt a v) (tracked.mulInt x v) := by
  refine agree_disciplined fun _ hproduct => ⟨?_, ?_⟩
  · exact mulInt?_eq ha.magnitude hproduct
  · rw [Int.cast_mul, Int.cast_natCast]
    exact denotes_mulInt v (tracks_iff.mp ha) hproduct

theorem agree_double (ha : Tracks a x) :
    Agree (words.double a) (checked.double a) (tracked.double x) := by
  refine agree_disciplined fun _ hproduct => ⟨?_, ?_⟩
  · exact mulInt?_eq ha.magnitude hproduct
  · rw [Int.cast_mul]
    exact denotes_double (tracks_iff.mp ha) hproduct

theorem agree_negate (magnitude : UInt32) (ha : Tracks a x) :
    Agree (words.negate a magnitude) (checked.negate a magnitude) (tracked.negate x magnitude) := by
  refine agree_guard fun hm => agree_disciplined fun hx _ => ?_
  have hd := tracks_iff.mp ha
  have ha' : a.Magnitude magnitude.toNat := magnitude_mono hd.magnitude (hx x List.mem_cons_self)
  refine ⟨negate?_eq hm ha', ?_⟩
  rw [Int.cast_neg]
  exact denotes_negate magnitude ⟨ha', hd.residue⟩ hm

theorem agree_mul (ha : Tracks a x) (hb : Tracks b y) :
    Agree (words.mul a b) (checked.mul a b) (tracked.mul x y) := by
  refine agree_disciplined fun h _ => ?_
  have hx : x.magnitude ≤ 8 := h x (by simp)
  have hy : y.magnitude ≤ 8 := h y (by simp)
  refine ⟨mul?_eq (magnitude_mono ha.magnitude hx) (magnitude_mono hb.magnitude hy), ?_⟩
  rw [Int.cast_mul]
  exact denotes_mul (tracks_iff.mp ha) (tracks_iff.mp hb) hx hy

theorem agree_square (ha : Tracks a x) :
    Agree (words.square a) (checked.square a) (tracked.square x) := by
  refine agree_disciplined fun h _ => ?_
  have hx : x.magnitude ≤ 8 := h x List.mem_cons_self
  have ha' := magnitude_mono ha.magnitude hx
  refine ⟨mul?_eq ha' ha', ?_⟩
  rw [Int.cast_pow]
  exact denotes_square (tracks_iff.mp ha) hx

theorem agree_normalizeWeak (ha : Tracks a x) :
    Agree (words.normalizeWeak a) (checked.normalizeWeak a) (tracked.normalizeWeak x) := by
  refine agree_disciplined fun h _ => ?_
  have hx : x.magnitude ≤ 31 := h x List.mem_cons_self
  have hd := tracks_iff.mp ha
  exact ⟨normalizeWeak?_eq (magnitude_mono ha.magnitude hx), denotes_normalizeWeak hd hx⟩

theorem agree_normalize (ha : Tracks a x) :
    Agree (words.normalize a) (checked.normalize a) (tracked.normalize x) := by
  refine agree_disciplined fun h _ => ?_
  have hx : x.magnitude ≤ 31 := h x List.mem_cons_self
  have hd := tracks_iff.mp ha
  exact ⟨normalize?_eq (magnitude_mono ha.magnitude hx), denotes_normalize hd hx⟩

theorem agree_select (flag : Bool) (ha : Tracks a x) (hb : Tracks b y) :
    Agree (words.select a b flag) (checked.select a b flag) (tracked.select x y flag) := by
  refine agree_disciplined fun _ _ => ⟨rfl, ?_⟩
  cases flag with
  | false =>
      have hd := tracks_iff.mp ha
      exact ⟨magnitude_mono hd.magnitude (le_max_left _ _), hd.residue⟩
  | true =>
      have hd := tracks_iff.mp hb
      exact ⟨magnitude_mono hd.magnitude (le_max_right _ _), hd.residue⟩

theorem agree_lookup {es : List FieldElement} {ts : List Tracked} (h : List.Forall₂ Tracks es ts)
    (i : Nat) : Agree es[i]? es[i]? ts[i]? := by
  induction h generalizing i with
  | nil => exact fun _ hx => nomatch hx
  | cons ha _ ih =>
      cases i with
      | zero => exact agree_some ha
      | succ i => exact ih i

theorem agree_operand {es : List FieldElement} {ts : List Tracked} (h : List.Forall₂ Tracks es ts)
    (i : Nat) {f g : FieldElement → Option FieldElement} {k : Tracked → Option Tracked}
    (hf : ∀ a x, Tracks a x → Agree (f a) (g a) (k x)) :
    Agree (es[i]? >>= f) (es[i]? >>= g) (ts[i]? >>= k) :=
  agree_bind (agree_lookup h i) hf

theorem agree_apply {es : List FieldElement} {ts : List Tracked} (h : List.Forall₂ Tracks es ts)
    (op : Operation) : Agree (op.apply words es) (op.apply checked es) (op.apply tracked ts) := by
  have operand := @agree_operand es ts h
  cases op with
  | ofUInt32 v => exact agree_natCast (denotes_ofUInt32 v)
  | ofUInt64 v => exact agree_natCast (denotes_ofUInt64 v)
  | reduceBytes b =>
      have hc : checked.reduceBytes b = some (reduceBytes b).1 := reduceBytes?_eq b
      rw [Operation.apply, Operation.apply, Operation.apply, hc]
      exact agree_natCast (denotes_reduceBytes b)
  | add i j => exact operand i fun _ _ ha => operand j fun _ _ hb => agree_add ha hb
  | addInt i v => exact operand i fun _ _ ha => agree_addInt v ha
  | mulInt i v => exact operand i fun _ _ ha => agree_mulInt v ha
  | double i => exact operand i fun _ _ ha => agree_double ha
  | negate i magnitude => exact operand i fun _ _ ha => agree_negate magnitude ha
  | mul i j => exact operand i fun _ _ ha => operand j fun _ _ hb => agree_mul ha hb
  | square i => exact operand i fun _ _ ha => agree_square ha
  | normalizeWeak i => exact operand i fun _ _ ha => agree_normalizeWeak ha
  | normalize i => exact operand i fun _ _ ha => agree_normalize ha
  | select i j flag => exact operand i fun _ _ ha => operand j fun _ _ hb => agree_select flag ha hb

/-- A program that keeps to the magnitudes never leaves a word: it runs in checked words as it does
in wrapping ones, and its results respect their magnitudes and are congruent to the integers. -/
theorem run_exact {program : List Operation} {es : List FieldElement} {ts ts' : List Tracked}
    (hes : List.Forall₂ Tracks es ts) (h : run tracked program ts = some ts') :
    ∃ es', run words program es = some es' ∧ run checked program es = some es' ∧
      List.Forall₂ Tracks es' ts' := by
  -- the results so far are tracked one by one, and the next operation adds one to both lists
  induction program generalizing es ts with
  | nil =>
      obtain rfl := Option.some.inj h
      exact ⟨es, rfl, rfl, hes⟩
  | cons op program ih =>
      obtain ⟨x, hx, h⟩ := Option.bind_eq_some_iff.mp h
      obtain ⟨a, hw, hc, ha⟩ := agree_apply hes op x hx
      obtain ⟨es', hwords, hchecked, htracks⟩ := ih (List.rel_append hes (.cons ha .nil)) h
      refine ⟨es', ?_, ?_, htracks⟩
      · rw [run, Words.bind_eq_of_eq_some hw, hwords]
      · rw [run, Words.bind_eq_of_eq_some hc, hchecked]

/-- A program that meets every limit: the largest string, products of magnitude 8, a difference at
magnitude 31 whose result has magnitude 32, and the largest small integer. -/
def programAtLimits : List Operation :=
  [.reduceBytes (Vector.replicate 32 0xFF), .mulInt 0 8, .mul 1 1, .square 1, .negate 2 30,
    .negate 4 31, .addInt 4 0x3FFFFFF, .normalize 4, .select 4 1 true, .normalizeWeak 8,
    .ofUInt64 0xFFFFFFFFFFFFFFFF, .double 1, .add 11 11, .ofUInt32 7]

/-- The integers that the results of `programAtLimits` stand for, and their magnitudes. -/
def resultsAtLimits : List Tracked :=
  [⟨1, 2 ^ 256 - 1⟩, ⟨8, 8 * (2 ^ 256 - 1)⟩, ⟨1, 64 * (2 ^ 256 - 1) ^ 2⟩,
    ⟨1, 64 * (2 ^ 256 - 1) ^ 2⟩, ⟨31, -64 * (2 ^ 256 - 1) ^ 2⟩, ⟨32, 64 * (2 ^ 256 - 1) ^ 2⟩,
    ⟨32, 0x3FFFFFF - 64 * (2 ^ 256 - 1) ^ 2⟩, ⟨1, -64 * (2 ^ 256 - 1) ^ 2⟩,
    ⟨31, 8 * (2 ^ 256 - 1)⟩, ⟨1, 8 * (2 ^ 256 - 1)⟩, ⟨1, 2 ^ 64 - 1⟩, ⟨16, 16 * (2 ^ 256 - 1)⟩,
    ⟨32, 32 * (2 ^ 256 - 1)⟩, ⟨1, 7⟩]

theorem run_exact_at_limits :
    run tracked programAtLimits [] = some resultsAtLimits ∧
      ∃ es, run words programAtLimits [] = some es ∧ run checked programAtLimits [] = some es ∧
        List.Forall₂ Tracks es resultsAtLimits :=
  have h : run tracked programAtLimits [] = some resultsAtLimits := by rfl
  ⟨h, run_exact .nil h⟩

end CurveKeys.Secp256k1.FieldProgram
