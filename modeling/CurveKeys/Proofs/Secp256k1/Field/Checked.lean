import CurveKeys.Proofs.CheckedWords
import CurveKeys.Proofs.Secp256k1.Field.Encoding
import CurveKeys.Proofs.Secp256k1.Field.Product

/-!
Field operations in checked words. They take the same steps as the wrapping ones, but have no result
when a sum, a difference, a product or a narrowing leaves its word, or when an assertion fails.
Within its magnitudes every checked operation has a result, and it is that of the wrapping one.
-/

namespace CurveKeys.Secp256k1

namespace Radix
open Words

def carry? : UInt32 → List UInt32 → Option (List UInt32)
  | t, [] => some [t]
  | t, l :: r => do
    let rest ← carry? (← add32? l (t >>> 26)) r
    some ((t &&& 0x3FFFFFF) :: rest)

theorem carry?_eq (t : UInt32) (ls : List UInt32) (h : ∀ l ∈ ls, l.toNat < 0xFF000000) :
    carry? t ls = some (carry t ls) := by
  induction ls generalizing t with
  | nil => rfl
  | cons l r ih =>
      obtain ⟨hl, hr⟩ := List.forall_mem_cons.mp h
      have hsum : add32? l (t >>> 26) = some (l + t >>> 26) :=
        add32?_eq (by rw [toNat_add_carry t hl, toNat_high26])
      rw [carry?, bind_eq_of_eq_some hsum, bind_eq_of_eq_some (ih _ hr), carry]

/-- Adds a column, whose terms are computed on the way. -/
def sum? (c : UInt64) (col : List (Option UInt64)) : Option UInt64 :=
  col.foldlM (fun s x => do add64? s (← x)) c

theorem sum?_eq (c : UInt64) (col : List UInt64)
    (h : c.toNat + columnSum col < 0x10000000000000000) :
    sum? c (col.map some) = some (col.foldl (· + ·) c) := by
  induction col generalizing c with
  | nil => rfl
  | cons x col ih =>
      simp only [columnSum, List.map_cons, List.sum_cons] at h ih
      have hx : (c + x).toNat = c.toNat + x.toNat := toNat_add64 (by omega)
      have hrest := ih (c + x) (by omega)
      rw [sum?] at hrest ⊢
      rw [List.map_cons, List.foldlM_cons, List.foldl_cons, bind_eq_of_eq_some rfl,
        bind_eq_of_eq_some (add64?_eq hx), hrest]

def accumulate? : UInt64 → List (List (Option UInt64)) → Option (List UInt64)
  | c, [] => some [c]
  | c, col :: r => do
    let s ← sum? c col
    let rest ← accumulate? (s >>> 26) r
    some ((s &&& 0x3FFFFFF) :: rest)

theorem accumulate?_eq (c : UInt64) (cols : List (List UInt64)) (hc : c.toNat < 0x4000000000)
    (h : ∀ col ∈ cols, columnSum col ≤ 0xFFFFFFC000000000) :
    accumulate? c (cols.map (List.map some)) = some (accumulate c cols) := by
  induction cols generalizing c with
  | nil => rfl
  | cons col r ih =>
      obtain ⟨hcol, hr⟩ := List.forall_mem_cons.mp h
      have hs := (col.foldl (· + ·) c).toNat_lt
      have hq : (col.foldl (· + ·) c >>> 26).toNat < 0x4000000000 := by
        rw [toNat_high26_64]
        omega
      rw [List.map_cons, accumulate?, bind_eq_of_eq_some (sum?_eq c col (by omega)),
        bind_eq_of_eq_some (ih _ hq hr), accumulate]

def columns? : List UInt32 → List UInt32 → List (List (Option UInt64))
  | [], _ => []
  | x :: xs, ys => lay (ys.map fun y => mul64? x.toUInt64 y.toUInt64) ([] :: columns? xs ys)

theorem map_lay {α β : Type} (f : α → β) (xs : List α) (cols : List (List α)) :
    (lay xs cols).map (List.map f) = lay (xs.map f) (cols.map (List.map f)) := by
  induction xs generalizing cols with
  | nil => rfl
  | cons x xs ih =>
      cases cols with
      | nil => simp [lay, ih]
      | cons col cols => simp [lay, ih]

theorem columns?_eq (xs ys : List UInt32) :
    columns? xs ys = (columns xs ys).map (List.map some) := by
  have hproduct (x y : UInt32) :
      mul64? x.toUInt64 y.toUInt64 = some (FieldElement.limbProduct x y) :=
    mul64?_eq (toNat_limbProduct x y)
  induction xs with
  | nil => rfl
  | cons x xs ih =>
      rw [columns, map_lay, List.map_map, List.map_cons, List.map_nil, columns?, ih]
      simp only [hproduct, Function.comp_def]

end Radix

namespace ProductTerms

def ofTerms? : List UInt64 → Option ProductTerms
  | [t0, t1, t2, t3, t4, t5, t6, t7, t8, t9, t10, t11, t12, t13, t14, t15, t16, t17, t18, t19] =>
    some ⟨t0, t1, t2, t3, t4, t5, t6, t7, t8, t9, t10, t11, t12, t13, t14, t15, t16, t17, t18, t19⟩
  | _ => none

theorem ofTerms?_terms (t : ProductTerms) : ofTerms? t.terms = some t := rfl

end ProductTerms

namespace FieldElement
open Words

def ofLimbs? : List UInt32 → Option FieldElement
  | [l0, l1, l2, l3, l4, l5, l6, l7, l8, l9] => some ⟨l0, l1, l2, l3, l4, l5, l6, l7, l8, l9⟩
  | _ => none

theorem ofLimbs?_limbs (a : FieldElement) : ofLimbs? a.limbs = some a := rfl

/-- An operation limb by limb. -/
def zipWith? (f : UInt32 → UInt32 → Option UInt32) (a b : FieldElement) : Option FieldElement := do
  some ⟨← f a.l0 b.l0, ← f a.l1 b.l1, ← f a.l2 b.l2, ← f a.l3 b.l3, ← f a.l4 b.l4,
    ← f a.l5 b.l5, ← f a.l6 b.l6, ← f a.l7 b.l7, ← f a.l8 b.l8, ← f a.l9 b.l9⟩

theorem zipWith?_eq {f : UInt32 → UInt32 → Option UInt32} {a b c : FieldElement}
    (h0 : f a.l0 b.l0 = some c.l0) (h1 : f a.l1 b.l1 = some c.l1) (h2 : f a.l2 b.l2 = some c.l2)
    (h3 : f a.l3 b.l3 = some c.l3) (h4 : f a.l4 b.l4 = some c.l4) (h5 : f a.l5 b.l5 = some c.l5)
    (h6 : f a.l6 b.l6 = some c.l6) (h7 : f a.l7 b.l7 = some c.l7) (h8 : f a.l8 b.l8 = some c.l8)
    (h9 : f a.l9 b.l9 = some c.l9) : zipWith? f a b = some c := by
  rw [zipWith?, bind_eq_of_eq_some h0, bind_eq_of_eq_some h1, bind_eq_of_eq_some h2,
    bind_eq_of_eq_some h3, bind_eq_of_eq_some h4, bind_eq_of_eq_some h5, bind_eq_of_eq_some h6,
    bind_eq_of_eq_some h7, bind_eq_of_eq_some h8, bind_eq_of_eq_some h9]

def add? (a b : FieldElement) : Option FieldElement := zipWith? add32? a b

def addInt? (a : FieldElement) (v : UInt32) : Option FieldElement := do
  some { a with l0 := ← add32? a.l0 v }

def mulInt? (a : FieldElement) (v : UInt32) : Option FieldElement :=
  zipWith? (fun x _ => mul32? x v) a a

def double? (a : FieldElement) : Option FieldElement := a.mulInt? 2

def negate? (a : FieldElement) (magnitude : UInt32) : Option FieldElement := do
  guard (magnitude ≤ 31)
  let f ← mul32? 2 (← add32? magnitude 1)
  zipWith? (fun c x => do sub32? (← mul32? c f) x) modulus a

def addCorrection? (a : FieldElement) (x : UInt32) : Option FieldElement := do
  let t0 ← add32? a.l0 (← mul32? x 977)
  let t1 ← add32? a.l1 (← shiftLeft32? x 6)
  ofLimbs? (← Radix.carry? t0 [t1, a.l2, a.l3, a.l4, a.l5, a.l6, a.l7, a.l8, a.l9])

def normalizeWeak? (a : FieldElement) : Option FieldElement := do
  let c : FieldElement ← { a with l9 := a.l9 &&& 0x3FFFFF }.addCorrection? (a.l9 >>> 22)
  guard (c.l9 >>> 23 == 0)
  some c

def overflows? (a : FieldElement) : Option Bool := do
  let mid := a.l2 &&& a.l3 &&& a.l4 &&& a.l5 &&& a.l6 &&& a.l7 &&& a.l8
  let sum ← add32? a.l0 977
  let low ← add32? (← add32? a.l1 (sum >>> 26)) 64
  some (a.l9 >>> 22 != 0 || (a.l9 == 0x3FFFFF && mid == 0x3FFFFFF && 0x3FFFFFF < low))

/-- The correction is computed whether or not it is then taken. -/
def normalize? (a : FieldElement) : Option FieldElement := do
  let w ← a.normalizeWeak?
  let overflow ← w.overflows?
  let c ← w.addCorrection? 1
  some (select w { c with l9 := c.l9 &&& 0x3FFFFF } overflow)

def reduceBytes? (b : Vector UInt8 32) : Option FieldElement := do
  let raw := pack b
  let reduced ← raw.normalize?
  let _ ← raw.overflows?
  some reduced

def mulTerms? (a b : FieldElement) : Option ProductTerms := do
  ProductTerms.ofTerms? (← Radix.accumulate? 0 (Radix.columns? a.limbs b.limbs))

def foldColumns? (t : ProductTerms) : List (List (Option UInt64)) :=
  [[mul64? t.t10 foldLow],
    [some t.t1, mul64? t.t11 foldLow, mul64? t.t10 foldHigh],
    [some t.t2, mul64? t.t12 foldLow, mul64? t.t11 foldHigh],
    [some t.t3, mul64? t.t13 foldLow, mul64? t.t12 foldHigh],
    [some t.t4, mul64? t.t14 foldLow, mul64? t.t13 foldHigh],
    [some t.t5, mul64? t.t15 foldLow, mul64? t.t14 foldHigh],
    [some t.t6, mul64? t.t16 foldLow, mul64? t.t15 foldHigh],
    [some t.t7, mul64? t.t17 foldLow, mul64? t.t16 foldHigh],
    [some t.t8, mul64? t.t18 foldLow, mul64? t.t17 foldHigh]]

def foldTopmost? (r0 r1 r2 r3 r4 r5 r6 r7 r8 v : UInt64) : Option FieldElement := do
  let excess := v >>> 22
  let d0 ← add64? r0 (← mul64? excess 977)
  let d1 ← add64? (← add64? (d0 >>> 26) r1) (← mul64? excess 64)
  let d2 ← add64? (d1 >>> 26) r2
  some ⟨← narrow? (d0 &&& 0x3FFFFFF), ← narrow? (d1 &&& 0x3FFFFFF), ← narrow? d2, ← narrow? r3,
    ← narrow? r4, ← narrow? r5, ← narrow? r6, ← narrow? r7, ← narrow? r8,
    ← narrow? (v &&& 0x3FFFFF)⟩

/-- The second fold, from the terms of the first and the carry that it leaves. -/
def foldAgain? (t : ProductTerms) : List UInt64 → Option FieldElement
  | [r0, r1, r2, r3, r4, r5, r6, r7, r8, q] => do
    let v ← add64? (← add64? (← add64? q t.t9) (← mul64? t.t18 foldHigh)) (← mul64? t.t19 foldTop)
    foldTopmost? r0 r1 r2 r3 r4 r5 r6 r7 r8 v
  | _ => none

def ofTerms? (t : ProductTerms) : Option FieldElement := do
  foldAgain? t (← Radix.accumulate? t.t0 (foldColumns? t))

def mul? (a b : FieldElement) : Option FieldElement := do ofTerms? (← mulTerms? a b)

def square? (a : FieldElement) : Option FieldElement := a.mul? a

theorem add?_eq {a b : FieldElement} {m k : Nat} (ha : a.Magnitude m) (hb : b.Magnitude k)
    (h : m + k ≤ 32) : a.add? b = some (a.add b) := by
  obtain ⟨a0, a1, a2, a3, a4, a5, a6, a7, a8, a9⟩ := ha
  obtain ⟨b0, b1, b2, b3, b4, b5, b6, b7, b8, b9⟩ := hb
  apply zipWith?_eq <;> exact add32?_eq (toNat_add32 (by omega))

theorem addInt?_eq {a : FieldElement} {m : Nat} {v : UInt32} (ha : a.Magnitude m) (hm : m ≤ 31)
    (hv : v.toNat < 2 ^ 26) : a.addInt? v = some (a.addInt v) := by
  rw [addInt?, bind_eq_of_eq_some (add32?_eq (toNat_l0_add ha hm hv)), addInt]

theorem mulInt?_eq {a : FieldElement} {m : Nat} {v : UInt32} (ha : a.Magnitude m)
    (h : m * v.toNat ≤ 32) : a.mulInt? v = some (a.mulInt v) := by
  have limb {x : UInt32} {n : Nat} (hx : x.toNat ≤ n * (2 * m)) (hn : n ≤ 0x3FFFFFF) :
      mul32? x v = some (x * v) := mul32?_eq (toNat_limb_mul hx hn h).1
  obtain ⟨h0, h1, h2, h3, h4, h5, h6, h7, h8, h9⟩ := ha
  exact zipWith?_eq (limb h0 (by decide)) (limb h1 (by decide)) (limb h2 (by decide))
    (limb h3 (by decide)) (limb h4 (by decide)) (limb h5 (by decide)) (limb h6 (by decide))
    (limb h7 (by decide)) (limb h8 (by decide)) (limb h9 (by decide))

theorem negate?_eq {a : FieldElement} {magnitude : UInt32} (hm : magnitude.toNat ≤ 31)
    (ha : a.Magnitude magnitude.toNat) : a.negate? magnitude = some (a.negate magnitude) := by
  have hf := toNat_magnitude_factor hm
  have hone : (magnitude + 1).toNat = magnitude.toNat + 1 := toNat_add32 (by simp; omega)
  have hfactor : mul32? 2 (magnitude + 1) = some (2 * (magnitude + 1)) :=
    mul32?_eq (by rw [hf, hone]; rfl)
  have limb {c x : UInt32} {n : Nat} (hx : x.toNat ≤ n * (2 * magnitude.toNat))
      (hn : n * magnitude.toNat ≤ c.toNat * (magnitude.toNat + 1)) (hc : c.toNat ≤ 0x3FFFFFF) :
      (do sub32? (← mul32? c (2 * (magnitude + 1))) x) = some (c * (2 * (magnitude + 1)) - x) := by
    obtain ⟨hp, hle⟩ := toNat_limb_multiple hf hm hx hn hc
    rw [bind_eq_of_eq_some (mul32?_eq hp), sub32?_eq hle]
  have hguard : guard (magnitude ≤ 31) = some () := if_pos (show magnitude ≤ 31 from hm)
  obtain ⟨h0, h1, h2, h3, h4, h5, h6, h7, h8, h9⟩ := ha
  rw [negate?, bind_eq_of_eq_some hguard, bind_eq_of_eq_some (add32?_eq hone),
    bind_eq_of_eq_some hfactor]
  exact zipWith?_eq (limb h0 (by simp [modulus]; omega) (by decide))
    (limb h1 (by simp [modulus]; omega) (by decide)) (limb h2 (by simp [modulus]) (by decide))
    (limb h3 (by simp [modulus]) (by decide)) (limb h4 (by simp [modulus]) (by decide))
    (limb h5 (by simp [modulus]) (by decide)) (limb h6 (by simp [modulus]) (by decide))
    (limb h7 (by simp [modulus]) (by decide)) (limb h8 (by simp [modulus]) (by decide))
    (limb h9 (by simp [modulus]) (by decide))

theorem addCorrection?_eq {a : FieldElement} {x : UInt32} (ha : a.Magnitude 31)
    (hx : x.toNat ≤ 63) : a.addCorrection? x = some (a.addCorrection x) := by
  obtain ⟨low, high, l0, l1, room⟩ := correction ha hx
  have h0 : add32? a.l0 (x * 977) = some (a.l0 + x * 977) := add32?_eq (by rw [l0, low])
  have h1 : add32? a.l1 (x <<< 6) = some (a.l1 + x <<< 6) := add32?_eq (by rw [l1, high])
  rw [addCorrection?, bind_eq_of_eq_some (mul32?_eq low), bind_eq_of_eq_some h0,
    bind_eq_of_eq_some (shiftLeft32?_eq high), bind_eq_of_eq_some h1,
    bind_eq_of_eq_some (Radix.carry?_eq _ _ room), ← limbs_addCorrection, ofLimbs?_limbs]

theorem normalizeWeak?_eq {a : FieldElement} (ha : a.Magnitude 31) :
    a.normalizeWeak? = some a.normalizeWeak := by
  obtain ⟨hb, hx⟩ := magnitude_cut ha
  have htop : a.normalizeWeak.l9 >>> 23 = 0 := by
    have h9 : a.normalizeWeak.l9.toNat < 0x800000 :=
      l9_le_of_toNat_lt (lt_trans (normalizeWeak_lt a).2 (by norm_num))
    rw [← UInt32.toNat_inj, toNat_shiftRight32 _ 23 rfl (by decide)]
    exact Nat.div_eq_of_lt h9
  have hguard : guard (a.normalizeWeak.l9 >>> 23 == 0) = some () := if_pos (beq_iff_eq.mpr htop)
  rw [normalizeWeak?, bind_eq_of_eq_some (addCorrection?_eq hb hx)]
  exact bind_eq_of_eq_some hguard

theorem overflows?_eq {a : FieldElement} (hc : a.Carried) : a.overflows? = some a.overflows := by
  obtain ⟨sum, carried, low⟩ := overflowSums hc
  have h1 : add32? a.l1 ((a.l0 + 977) >>> 26) = some (a.l1 + (a.l0 + 977) >>> 26) :=
    add32?_eq (by rw [carried, toNat_high26])
  rw [overflows?, bind_eq_of_eq_some (add32?_eq sum), bind_eq_of_eq_some h1,
    bind_eq_of_eq_some (add32?_eq low), overflows]

theorem normalize?_eq {a : FieldElement} (ha : a.Magnitude 31) :
    a.normalize? = some a.normalize := by
  have hw := magnitude_mono (magnitude_normalizeWeak a) (show 1 ≤ 31 by decide)
  rw [normalize?, bind_eq_of_eq_some (normalizeWeak?_eq ha),
    bind_eq_of_eq_some (overflows?_eq (normalizeWeak_lt a).1),
    bind_eq_of_eq_some (addCorrection?_eq hw (by decide)), normalize, select]

theorem reduceBytes?_eq (b : Vector UInt8 32) :
    reduceBytes? b = some (reduceBytes b).1 := by
  have hp := magnitude_mono (magnitude_pack b) (show 1 ≤ 31 by decide)
  rw [reduceBytes?, bind_eq_of_eq_some (normalize?_eq hp),
    bind_eq_of_eq_some (overflows?_eq (carried_pack b)), reduceBytes]

theorem mulTerms?_eq {a b : FieldElement} (ha : a.Magnitude 8) (hb : b.Magnitude 8) :
    mulTerms? a b = some (mulTerms a b) := by
  rw [mulTerms?, Radix.columns?_eq, bind_eq_of_eq_some (Radix.accumulate?_eq 0 _ (by decide)
    (columnSum_columns_le_room ha hb)), ← terms_mulTerms, ProductTerms.ofTerms?_terms]

theorem foldColumns?_eq {t : ProductTerms} (h : FitTerms t) :
    foldColumns? t = (foldColumns t).map (List.map some) := by
  have low (x : UInt64) (hx : x ∈ t.terms.dropLast) : mul64? x foldLow = some (x * foldLow) :=
    mul64?_eq (by rw [toNat_mul_foldLow (h.1 x hx), mul_comm]; rfl)
  have high (x : UInt64) (hx : x ∈ t.terms.dropLast) : mul64? x foldHigh = some (x * foldHigh) :=
    mul64?_eq (by rw [toNat_mul_foldHigh (h.1 x hx), mul_comm]; rfl)
  simp only [ProductTerms.terms, List.dropLast, List.forall_mem_cons] at low high
  obtain ⟨-, -, -, -, -, -, -, -, -, -, l10, l11, l12, l13, l14, l15, l16, l17, l18, -⟩ := low
  obtain ⟨-, -, -, -, -, -, -, -, -, -, g10, g11, g12, g13, g14, g15, g16, g17, -, -⟩ := high
  simp only [foldColumns?, foldColumns, List.map, l10, l11, l12, l13, l14, l15, l16, l17, l18, g10,
    g11, g12, g13, g14, g15, g16, g17]

theorem foldTopmost?_eq {r0 r1 r2 r3 r4 r5 r6 r7 r8 : UInt64} (v : UInt64)
    (h : ∀ r ∈ [r0, r1, r2, r3, r4, r5, r6, r7, r8], r.toNat < 0x4000000) :
    foldTopmost? r0 r1 r2 r3 r4 r5 r6 r7 r8 v =
      some (foldTopmost r0 r1 r2 r3 r4 r5 r6 r7 r8 v) := by
  simp only [List.forall_mem_cons] at h
  obtain ⟨h0, h1, h2, h3, h4, h5, h6, h7, h8, -⟩ := h
  obtain ⟨low, d0, high, carried, d1, d2, hlt⟩ := secondFold v h0 h1 h2
  simp only [foldTopmost?, foldTopmost]
  -- each sum becomes a word of its own once its check is settled
  generalize v >>> 22 = e at *
  have hd0 : add64? r0 (e * 977) = some (r0 + e * 977) := add64?_eq (by rw [d0, low])
  generalize r0 + e * 977 = w0 at *
  have hcarried : add64? (w0 >>> 26) r1 = some (w0 >>> 26 + r1) :=
    add64?_eq (by rw [carried, toNat_high26_64])
  have hd1 : add64? (w0 >>> 26 + r1) (e * 64) = some (w0 >>> 26 + r1 + e * 64) :=
    add64?_eq (by rw [d1, carried, high])
  generalize w0 >>> 26 + r1 + e * 64 = w1 at *
  have hd2 : add64? (w1 >>> 26) r2 = some (w1 >>> 26 + r2) :=
    add64?_eq (by rw [d2, toNat_high26_64])
  generalize w1 >>> 26 + r2 = w2 at *
  have word {x : UInt64} (hx : x.toNat < 0x8000000) : narrow? x = some x.toUInt32 :=
    narrow?_eq (toNat_toUInt32_of_lt hx)
  have hw0 := word (x := w0 &&& 0x3FFFFFF) (by rw [toNat_low26_64]; omega)
  have hw1 := word (x := w1 &&& 0x3FFFFFF) (by rw [toNat_low26_64]; omega)
  have hv := word (x := v &&& 0x3FFFFF) (by rw [toNat_low22_64]; omega)
  rw [bind_eq_of_eq_some (mul64?_eq low), bind_eq_of_eq_some hd0, bind_eq_of_eq_some hcarried,
    bind_eq_of_eq_some (mul64?_eq high), bind_eq_of_eq_some hd1, bind_eq_of_eq_some hd2,
    bind_eq_of_eq_some hw0, bind_eq_of_eq_some hw1, bind_eq_of_eq_some (word (x := w2) (by omega)),
    bind_eq_of_eq_some (word (x := r3) (by omega)), bind_eq_of_eq_some (word (x := r4) (by omega)),
    bind_eq_of_eq_some (word (x := r5) (by omega)), bind_eq_of_eq_some (word (x := r6) (by omega)),
    bind_eq_of_eq_some (word (x := r7) (by omega)), bind_eq_of_eq_some (word (x := r8) (by omega)),
    bind_eq_of_eq_some hv]

theorem ofTerms?_eq {t : ProductTerms} (h : FitTerms t) : ofTerms? t = some (ofTerms t) := by
  obtain ⟨r0, r1, r2, r3, r4, r5, r6, r7, r8, q, hacc, hof⟩ := ofTerms_eq t
  obtain ⟨hr, hq, -⟩ := firstFold h hacc
  have h0 : t.t0.toNat < 0x4000000 := h.1 _ (by simp [ProductTerms.terms])
  have h9 : t.t9.toNat < 0x4000000 := h.1 _ (by simp [ProductTerms.terms])
  have h18 : t.t18.toNat < 0x4000000 := h.1 _ (by simp [ProductTerms.terms])
  obtain ⟨first, second, third⟩ := topmost hq h9 h18 h.2
  have hhigh : mul64? t.t18 foldHigh = some (t.t18 * foldHigh) :=
    mul64?_eq (by rw [toNat_mul_foldHigh h18, mul_comm]; rfl)
  have htop : mul64? t.t19 foldTop = some (t.t19 * foldTop) :=
    mul64?_eq (by rw [toNat_mul_foldTop h.2, mul_comm]; rfl)
  rw [ofTerms?, foldColumns?_eq h, bind_eq_of_eq_some (Radix.accumulate?_eq t.t0 _ (by omega)
    (columnSum_foldColumns_le_room h)), hacc, foldAgain?, bind_eq_of_eq_some (add64?_eq first),
    bind_eq_of_eq_some hhigh, bind_eq_of_eq_some (add64?_eq second), bind_eq_of_eq_some htop,
    bind_eq_of_eq_some (add64?_eq third), foldTopmost?_eq _ hr, hof]

theorem mul?_eq {a b : FieldElement} (ha : a.Magnitude 8) (hb : b.Magnitude 8) :
    a.mul? b = some (a.mul b) := by
  rw [mul?, bind_eq_of_eq_some (mulTerms?_eq ha hb), ofTerms?_eq (fitTerms_mulTerms ha hb), mul]

end FieldElement

end CurveKeys.Secp256k1
