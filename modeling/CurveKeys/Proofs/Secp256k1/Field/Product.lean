import CurveKeys.Proofs.Secp256k1.Field.Normalize

/-!
Products of field elements. The columns of a product are laid out as lists of 64-bit terms; a carry
runs over the columns, and it is exact as long as every column leaves room for it.
-/

namespace CurveKeys.Secp256k1

namespace Radix
open Words

/-- Sums each column together with the carry of the one before it. -/
def accumulate : UInt64 → List (List UInt64) → List UInt64
  | c, [] => [c]
  | c, col :: r =>
    let s := col.foldl (· + ·) c
    (s &&& 0x3FFFFFF) :: accumulate (s >>> 26) r

def columnSum (col : List UInt64) : Nat := (col.map UInt64.toNat).sum

theorem toNat_foldl_add (c : UInt64) (col : List UInt64)
    (h : c.toNat + columnSum col < 0x10000000000000000) :
    (col.foldl (· + ·) c).toNat = c.toNat + columnSum col := by
  induction col generalizing c with
  | nil => rfl
  | cons x col ih =>
      simp only [columnSum, List.map_cons, List.sum_cons] at h ih ⊢
      have hx : (c + x).toNat = c.toNat + x.toNat := toNat_add64 (by omega)
      rw [List.foldl_cons, ih (c + x) (by omega), hx]
      omega

theorem accumulate_singleton (x : UInt64) (cols : List (List UInt64)) :
    accumulate 0 ([x] :: cols) = accumulate x ([] :: cols) := by
  simp [accumulate]

theorem accumulate_ne_nil (c : UInt64) (cols : List (List UInt64)) :
    (accumulate c cols).map UInt64.toNat ≠ [] := by
  cases cols <;> simp [accumulate]

theorem carried_accumulate (c : UInt64) (cols : List (List UInt64)) :
    Carried ((accumulate c cols).map UInt64.toNat) := by
  induction cols generalizing c with
  | nil => simp [accumulate, Carried]
  | cons col r ih =>
      rw [accumulate, List.map_cons, carried_cons (accumulate_ne_nil _ _)]
      exact ⟨by rw [toNat_low26_64]; omega, ih _⟩

/-- A carry has at most 38 bits, so a column may fill all but that much of a word. -/
theorem value_accumulate (c : UInt64) (cols : List (List UInt64)) (hc : c.toNat < 0x4000000000)
    (h : ∀ col ∈ cols, columnSum col ≤ 0xFFFFFFC000000000) :
    value ((accumulate c cols).map UInt64.toNat) = c.toNat + value (cols.map columnSum) := by
  induction cols generalizing c with
  | nil => rfl
  | cons col r ih =>
      obtain ⟨hcol, hr⟩ := List.forall_mem_cons.mp h
      have hs := toNat_foldl_add c col (by omega)
      have hq : (col.foldl (· + ·) c >>> 26).toNat = (c.toNat + columnSum col) / 0x4000000 := by
        rw [toNat_high26_64, hs]
      rw [accumulate, List.map_cons, value_cons, ih _ (by rw [hq]; omega) hr, toNat_low26_64, hs,
        hq, List.map_cons, value_cons]
      omega

/-- Puts one more entry on top of each column, and new columns where there are none. -/
def lay {α : Type} : List α → List (List α) → List (List α)
  | [], cols => cols
  | x :: xs, [] => [x] :: lay xs []
  | x :: xs, col :: cols => (x :: col) :: lay xs cols

/-- The columns of the schoolbook product. -/
def columns : List UInt32 → List UInt32 → List (List UInt64)
  | [], _ => []
  | x :: xs, ys => lay (ys.map (FieldElement.limbProduct x)) ([] :: columns xs ys)

theorem value_lay (xs : List UInt64) (cols : List (List UInt64)) :
    value ((lay xs cols).map columnSum) =
      value (xs.map UInt64.toNat) + value (cols.map columnSum) := by
  induction xs generalizing cols with
  | nil => simp [lay]
  | cons x xs ih =>
      cases cols with
      | nil => simp [lay, ih, columnSum]
      | cons col cols =>
          simp only [lay, List.map_cons, value_cons, ih, columnSum, List.sum_cons]
          ring

theorem toNat_limbProduct (x y : UInt32) :
    (FieldElement.limbProduct x y).toNat = x.toNat * y.toNat := by
  have hx := x.toNat_lt
  have hy := y.toNat_lt
  rw [FieldElement.limbProduct, toNat_mul64, UInt32.toNat_toUInt64, UInt32.toNat_toUInt64]
  rw [UInt32.toNat_toUInt64, UInt32.toNat_toUInt64]
  nlinarith

theorem value_map_limbProduct (x : UInt32) (ys : List UInt32) :
    value ((ys.map (FieldElement.limbProduct x)).map UInt64.toNat) =
      x.toNat * value (ys.map UInt32.toNat) := by
  induction ys with
  | nil => simp
  | cons y ys ih =>
      simp only [List.map_cons, value_cons, ih, toNat_limbProduct]
      ring

theorem value_columns (xs ys : List UInt32) :
    value ((columns xs ys).map columnSum) =
      value (xs.map UInt32.toNat) * value (ys.map UInt32.toNat) := by
  induction xs with
  | nil => simp [columns]
  | cons x xs ih =>
      rw [columns, value_lay, value_map_limbProduct, List.map_cons, value_cons, ih, List.map_cons,
        value_cons]
      simp only [columnSum, List.map_nil, List.sum_nil]
      ring

theorem columnSum_lay_le {n b : Nat} {xs : List UInt64} {cols : List (List UInt64)}
    (hx : ∀ x ∈ xs, x.toNat ≤ b) (hc : ∀ col ∈ cols, columnSum col ≤ n * b) :
    ∀ col ∈ lay xs cols, columnSum col ≤ (n + 1) * b := by
  induction xs generalizing cols with
  | nil =>
      intro col hcol
      exact le_trans (hc col hcol) (Nat.mul_le_mul_right b (Nat.le_succ n))
  | cons x xs ih =>
      obtain ⟨hx0, hx⟩ := List.forall_mem_cons.mp hx
      cases cols with
      | nil =>
          refine List.forall_mem_cons.mpr ⟨?_, ih hx (List.forall_mem_nil _)⟩
          simp only [columnSum, List.map_cons, List.map_nil, List.sum_cons, List.sum_nil]
          nlinarith
      | cons col cols =>
          obtain ⟨hc0, hc⟩ := List.forall_mem_cons.mp hc
          refine List.forall_mem_cons.mpr ⟨?_, ih hx hc⟩
          simp only [columnSum, List.map_cons, List.sum_cons] at hc0 ⊢
          linarith

theorem columnSum_columns_le {b c : Nat} {xs ys : List UInt32} (hx : ∀ x ∈ xs, x.toNat ≤ b)
    (hy : ∀ y ∈ ys, y.toNat ≤ c) :
    ∀ col ∈ columns xs ys, columnSum col ≤ xs.length * (b * c) := by
  induction xs with
  | nil => exact List.forall_mem_nil _
  | cons x xs ih =>
      obtain ⟨hx0, hx⟩ := List.forall_mem_cons.mp hx
      apply columnSum_lay_le
      · intro p hp
        obtain ⟨y, hmem, rfl⟩ := List.mem_map.mp hp
        rw [toNat_limbProduct]
        exact Nat.mul_le_mul hx0 (hy y hmem)
      · exact List.forall_mem_cons.mpr ⟨Nat.zero_le _, ih hx⟩

end Radix

namespace FieldElement
open Words

set_option maxRecDepth 4000 in
theorem terms_mulTerms (a b : FieldElement) :
    (mulTerms a b).terms = Radix.accumulate 0 (Radix.columns a.limbs b.limbs) := by
  let upper := (Radix.columns a.limbs b.limbs).tail
  calc (mulTerms a b).terms = Radix.accumulate (limbProduct a.l0 b.l0) ([] :: upper) := by rfl
    _ = Radix.accumulate 0 ([limbProduct a.l0 b.l0] :: upper) := by
      rw [Radix.accumulate_singleton]
    _ = Radix.accumulate 0 (Radix.columns a.limbs b.limbs) := by rfl

theorem limb_le_of_magnitude {a : FieldElement} {m : Nat} (h : a.Magnitude m) :
    ∀ x ∈ a.limbs, x.toNat ≤ 0x3FFFFFF * (2 * m) := by
  obtain ⟨h0, h1, h2, h3, h4, h5, h6, h7, h8, h9⟩ := h
  simp only [limbs, List.forall_mem_cons]
  exact ⟨h0, h1, h2, h3, h4, h5, h6, h7, h8, by omega, List.forall_mem_nil _⟩

/-- Ten products of limbs leave room in a column for the carry of the one before. -/
theorem columnSum_columns_le_room {a b : FieldElement} (ha : a.Magnitude 8) (hb : b.Magnitude 8) :
    ∀ col ∈ Radix.columns a.limbs b.limbs, Radix.columnSum col ≤ 0xFFFFFFC000000000 := by
  intro col h
  have hcol := Radix.columnSum_columns_le (limb_le_of_magnitude ha) (limb_le_of_magnitude hb) col h
  exact hcol.trans (by simp [limbs])

theorem toNat_mulTerms {a b : FieldElement} (ha : a.Magnitude 8) (hb : b.Magnitude 8) :
    (mulTerms a b).toNat = a.toNat * b.toNat := by
  have h := Radix.value_accumulate 0 _ (by decide) (columnSum_columns_le_room ha hb)
  rw [← terms_mulTerms, Radix.value_columns, UInt64.toNat_zero, zero_add] at h
  exact h

theorem carried_mulTerms (a b : FieldElement) :
    Radix.Carried ((mulTerms a b).terms.map UInt64.toNat) := by
  rw [terms_mulTerms]
  exact Radix.carried_accumulate _ _

/-- Every term but the last is below `2 ^ 26`, and the last is at most that. -/
def FitTerms (t : ProductTerms) : Prop :=
  (∀ x ∈ t.terms.dropLast, x.toNat < 0x4000000) ∧ t.t19.toNat ≤ 0x4000000

theorem fitTerms_mulTerms {a b : FieldElement} (ha : a.Magnitude 8) (hb : b.Magnitude 8) :
    FitTerms (mulTerms a b) := by
  constructor
  · intro x hx
    apply carried_mulTerms a b
    rw [← List.map_dropLast]
    exact List.mem_map_of_mem hx
  · have hp : a.toNat * b.toNat < 0x4000000 ^ 20 := by
      have ha' := toNat_add_le_of_magnitude ha
      have hb' := toNat_add_le_of_magnitude hb
      calc a.toNat * b.toNat < 0x4000000 ^ 10 * 0x4000000 ^ 10 :=
            Nat.mul_lt_mul'' (by omega) (by omega)
        _ = 0x4000000 ^ 20 := (pow_add _ 10 10).symm
    rw [← toNat_mulTerms ha hb] at hp
    simp only [ProductTerms.toNat, ProductTerms.terms, List.foldr] at hp
    omega

/-- The columns of the first fold above the lowest term, without the topmost column. -/
def foldColumns (t : ProductTerms) : List (List UInt64) :=
  [[t.t10 * foldLow], [t.t1, t.t11 * foldLow, t.t10 * foldHigh],
    [t.t2, t.t12 * foldLow, t.t11 * foldHigh], [t.t3, t.t13 * foldLow, t.t12 * foldHigh],
    [t.t4, t.t14 * foldLow, t.t13 * foldHigh], [t.t5, t.t15 * foldLow, t.t14 * foldHigh],
    [t.t6, t.t16 * foldLow, t.t15 * foldHigh], [t.t7, t.t17 * foldLow, t.t16 * foldHigh],
    [t.t8, t.t18 * foldLow, t.t17 * foldHigh]]

/-- The second fold: what the topmost column `v` holds above 22 bits goes back to the bottom. -/
def foldTopmost (r0 r1 r2 r3 r4 r5 r6 r7 r8 v : UInt64) : FieldElement :=
  let excess := v >>> 22
  let d0 := r0 + excess * 977
  let d1 := d0 >>> 26 + r1 + excess * 64
  let d2 := d1 >>> 26 + r2
  ⟨(d0 &&& 0x3FFFFFF).toUInt32, (d1 &&& 0x3FFFFFF).toUInt32, d2.toUInt32, r3.toUInt32,
    r4.toUInt32, r5.toUInt32, r6.toUInt32, r7.toUInt32, r8.toUInt32, (v &&& 0x3FFFFF).toUInt32⟩

theorem ofTerms_eq (t : ProductTerms) :
    ∃ r0 r1 r2 r3 r4 r5 r6 r7 r8 q : UInt64,
      Radix.accumulate t.t0 (foldColumns t) = [r0, r1, r2, r3, r4, r5, r6, r7, r8, q] ∧
      ofTerms t = foldTopmost r0 r1 r2 r3 r4 r5 r6 r7 r8
        (q + t.t9 + t.t18 * foldHigh + t.t19 * foldTop) :=
  ⟨_, _, _, _, _, _, _, _, _, _, rfl, rfl⟩

/-- No sum of the second fold leaves its word. -/
structure SecondFold (e r0 r1 r2 : UInt64) : Prop where
  low : (e * 977).toNat = e.toNat * 977
  d0 : (r0 + e * 977).toNat = r0.toNat + e.toNat * 977
  high : (e * 64).toNat = e.toNat * 64
  carried : ((r0 + e * 977) >>> 26 + r1).toNat = (r0 + e * 977).toNat / 0x4000000 + r1.toNat
  d1 : ((r0 + e * 977) >>> 26 + r1 + e * 64).toNat =
    (r0 + e * 977).toNat / 0x4000000 + r1.toNat + e.toNat * 64
  d2 : (((r0 + e * 977) >>> 26 + r1 + e * 64) >>> 26 + r2).toNat =
    ((r0 + e * 977) >>> 26 + r1 + e * 64).toNat / 0x4000000 + r2.toNat
  d2_lt : (((r0 + e * 977) >>> 26 + r1 + e * 64) >>> 26 + r2).toNat < 0x5000000

theorem secondFold {r0 r1 r2 : UInt64} (v : UInt64) (h0 : r0.toNat < 0x4000000)
    (h1 : r1.toNat < 0x4000000) (h2 : r2.toNat < 0x4000000) :
    SecondFold (v >>> 22) r0 r1 r2 := by
  have he : (v >>> 22).toNat < 0x40000000000 := by
    have hv := v.toNat_lt
    rw [toNat_high22_64]
    omega
  generalize v >>> 22 = e at he
  have low : (e * 977).toNat = e.toNat * 977 := toNat_mul64 (by simp; omega)
  have high : (e * 64).toNat = e.toNat * 64 := toNat_mul64 (by simp; omega)
  have d0 : (r0 + e * 977).toNat = r0.toNat + e.toNat * 977 := by
    rw [toNat_add64 (by omega), low]
  have carried : ((r0 + e * 977) >>> 26 + r1).toNat =
      (r0 + e * 977).toNat / 0x4000000 + r1.toNat := by
    rw [toNat_add64 (by rw [toNat_high26_64]; omega), toNat_high26_64]
  have d1 : ((r0 + e * 977) >>> 26 + r1 + e * 64).toNat =
      (r0 + e * 977).toNat / 0x4000000 + r1.toNat + e.toNat * 64 := by
    rw [toNat_add64 (by omega), carried, high]
  have d2 : (((r0 + e * 977) >>> 26 + r1 + e * 64) >>> 26 + r2).toNat =
      ((r0 + e * 977) >>> 26 + r1 + e * 64).toNat / 0x4000000 + r2.toNat := by
    rw [toNat_add64 (by rw [toNat_high26_64]; omega), toNat_high26_64]
  exact ⟨low, d0, high, carried, d1, d2, by omega⟩

theorem toNat_toUInt32_of_lt {x : UInt64} (hx : x.toNat < 0x8000000) :
    x.toUInt32.toNat = x.toNat := by
  rw [UInt64.toNat_toUInt32]
  omega

theorem foldTopmost_spec {r0 r1 r2 r3 r4 r5 r6 r7 r8 : UInt64} (v : UInt64)
    (h : ∀ r ∈ [r0, r1, r2, r3, r4, r5, r6, r7, r8], r.toNat < 0x4000000) :
    let a := foldTopmost r0 r1 r2 r3 r4 r5 r6 r7 r8 v
    a.Magnitude 1 ∧ a.toNat + prime * (v.toNat / 0x400000) =
      Radix.value [r0.toNat, r1.toNat, r2.toNat, r3.toNat, r4.toNat, r5.toNat, r6.toNat, r7.toNat,
        r8.toNat, v.toNat] := by
  simp only [List.forall_mem_cons] at h
  obtain ⟨h0, h1, h2, h3, h4, h5, h6, h7, h8, -⟩ := h
  obtain ⟨-, hd0, -, -, hd1, hd2, hlt⟩ := secondFold v h0 h1 h2
  have he : (v >>> 22).toNat = v.toNat / 0x400000 := toNat_high22_64 v
  rw [← he]
  simp only [foldTopmost]
  generalize v >>> 22 = e at *
  generalize r0 + e * 977 = d0 at *
  generalize d0 >>> 26 + r1 + e * 64 = d1 at *
  generalize d1 >>> 26 + r2 = d2 at *
  have l0 := toNat_toUInt32_of_lt (x := d0 &&& 0x3FFFFFF) (by rw [toNat_low26_64]; omega)
  have l1 := toNat_toUInt32_of_lt (x := d1 &&& 0x3FFFFFF) (by rw [toNat_low26_64]; omega)
  have l9 := toNat_toUInt32_of_lt (x := v &&& 0x3FFFFF) (by rw [toNat_low22_64]; omega)
  rw [toNat_low26_64] at l0 l1
  rw [toNat_low22_64] at l9
  have l2 := toNat_toUInt32_of_lt (x := d2) (by omega)
  have l3 := toNat_toUInt32_of_lt (x := r3) (by omega)
  have l4 := toNat_toUInt32_of_lt (x := r4) (by omega)
  have l5 := toNat_toUInt32_of_lt (x := r5) (by omega)
  have l6 := toNat_toUInt32_of_lt (x := r6) (by omega)
  have l7 := toNat_toUInt32_of_lt (x := r7) (by omega)
  have l8 := toNat_toUInt32_of_lt (x := r8) (by omega)
  refine ⟨by constructor <;> simp only [l0, l1, l2, l3, l4, l5, l6, l7, l8, l9] <;> omega, ?_⟩
  have q0 := Nat.div_add_mod d0.toNat 0x4000000
  have q1 := Nat.div_add_mod d1.toNat 0x4000000
  have q9 := Nat.div_add_mod v.toNat 0x400000
  simp only [toNat_eq, l0, l1, l2, l3, l4, l5, l6, l7, l8, l9, prime, Radix.value_cons,
    Radix.value_nil]
  rw [← he] at q9
  linarith

theorem toNat_mul_foldLow {x : UInt64} (hx : x.toNat < 0x4000000) :
    (x * foldLow).toNat = 15632 * x.toNat := by
  rw [toNat_mul64 (by simp [foldLow]; omega), mul_comm]
  rfl

theorem toNat_mul_foldHigh {x : UInt64} (hx : x.toNat < 0x4000000) :
    (x * foldHigh).toNat = 1024 * x.toNat := by
  rw [toNat_mul64 (by simp [foldHigh]; omega), mul_comm]
  rfl

theorem toNat_mul_foldTop {x : UInt64} (hx : x.toNat ≤ 0x4000000) :
    (x * foldTop).toNat = 68719492368 * x.toNat := by
  rw [toNat_mul64 (by simp [foldTop]; omega), mul_comm]
  rfl

theorem columnSum_foldColumns {t : ProductTerms} (h : FitTerms t) :
    (foldColumns t).map Radix.columnSum =
      [15632 * t.t10.toNat,
        t.t1.toNat + (15632 * t.t11.toNat + 1024 * t.t10.toNat),
        t.t2.toNat + (15632 * t.t12.toNat + 1024 * t.t11.toNat),
        t.t3.toNat + (15632 * t.t13.toNat + 1024 * t.t12.toNat),
        t.t4.toNat + (15632 * t.t14.toNat + 1024 * t.t13.toNat),
        t.t5.toNat + (15632 * t.t15.toNat + 1024 * t.t14.toNat),
        t.t6.toNat + (15632 * t.t16.toNat + 1024 * t.t15.toNat),
        t.t7.toNat + (15632 * t.t17.toNat + 1024 * t.t16.toNat),
        t.t8.toNat + (15632 * t.t18.toNat + 1024 * t.t17.toNat)] := by
  have low (x : UInt64) (hx : x ∈ t.terms.dropLast) := toNat_mul_foldLow (h.1 x hx)
  have high (x : UInt64) (hx : x ∈ t.terms.dropLast) := toNat_mul_foldHigh (h.1 x hx)
  simp only [ProductTerms.terms, List.dropLast, List.forall_mem_cons] at low high
  obtain ⟨-, -, -, -, -, -, -, -, -, -, l10, l11, l12, l13, l14, l15, l16, l17, l18, -⟩ := low
  obtain ⟨-, -, -, -, -, -, -, -, -, -, g10, g11, g12, g13, g14, g15, g16, g17, -, -⟩ := high
  simp only [foldColumns, Radix.columnSum, List.map, List.sum_cons, List.sum_nil, add_zero, l10,
    l11, l12, l13, l14, l15, l16, l17, l18, g10, g11, g12, g13, g14, g15, g16, g17]

theorem columnSum_foldColumns_le_room {t : ProductTerms} (h : FitTerms t) :
    ∀ col ∈ foldColumns t, Radix.columnSum col ≤ 0xFFFFFFC000000000 := by
  have hroom : ∀ n ∈ (foldColumns t).map Radix.columnSum, n ≤ 0xFFFFFFC000000000 := by
    rw [columnSum_foldColumns h]
    obtain ⟨hlow, -⟩ := h
    simp only [ProductTerms.terms, List.dropLast, List.forall_mem_cons] at hlow ⊢
    refine ⟨?_, ?_, ?_, ?_, ?_, ?_, ?_, ?_, ?_, List.forall_mem_nil _⟩ <;> omega
  intro col hcol
  exact hroom _ (List.mem_map_of_mem hcol)

/-- The first fold below the topmost column: nine carried terms and the carry that is left. -/
theorem firstFold {t : ProductTerms} (h : FitTerms t) {r0 r1 r2 r3 r4 r5 r6 r7 r8 q : UInt64}
    (hacc : Radix.accumulate t.t0 (foldColumns t) = [r0, r1, r2, r3, r4, r5, r6, r7, r8, q]) :
    (∀ r ∈ [r0, r1, r2, r3, r4, r5, r6, r7, r8], r.toNat < 0x4000000) ∧ q.toNat < 0x100000 ∧
      Radix.value ([r0, r1, r2, r3, r4, r5, r6, r7, r8, q].map UInt64.toNat) =
        t.t0.toNat + Radix.value ((foldColumns t).map Radix.columnSum) := by
  have hroom := columnSum_foldColumns_le_room h
  have hsums := columnSum_foldColumns h
  obtain ⟨hlow, -⟩ := h
  simp only [ProductTerms.terms, List.dropLast, List.forall_mem_cons] at hlow
  obtain ⟨t0, t1, t2, t3, t4, t5, t6, t7, t8, t9, t10, t11, t12, t13, t14, t15, t16, t17, t18, -⟩ :=
    hlow
  have hval := Radix.value_accumulate t.t0 (foldColumns t) (by omega) hroom
  have hcar := Radix.carried_accumulate t.t0 (foldColumns t)
  rw [hacc] at hval hcar
  refine ⟨fun r hr => hcar _ (List.mem_map_of_mem hr), ?_, hval⟩
  rw [hsums] at hval
  simp only [List.map, Radix.value_cons, Radix.value_nil] at hval
  omega

/-- No sum of the topmost column leaves its word. -/
structure Topmost (q x y z : UInt64) : Prop where
  first : (q + x).toNat = q.toNat + x.toNat
  second : (q + x + y * foldHigh).toNat = (q + x).toNat + (y * foldHigh).toNat
  third : (q + x + y * foldHigh + z * foldTop).toNat =
    (q + x + y * foldHigh).toNat + (z * foldTop).toNat

/-- The topmost column takes the carry of the fold and is not reduced. -/
theorem topmost {q x y z : UInt64} (hq : q.toNat < 0x100000) (hx : x.toNat < 0x4000000)
    (hy : y.toNat < 0x4000000) (hz : z.toNat ≤ 0x4000000) : Topmost q x y z := by
  have hhigh := toNat_mul_foldHigh hy
  have htop := toNat_mul_foldTop hz
  have first : (q + x).toNat = q.toNat + x.toNat := toNat_add64 (by omega)
  have second : (q + x + y * foldHigh).toNat = (q + x).toNat + (y * foldHigh).toNat :=
    toNat_add64 (by omega)
  exact ⟨first, second, toNat_add64 (by omega)⟩

theorem ofTerms_spec {t : ProductTerms} (h : FitTerms t) :
    (ofTerms t).Magnitude 1 ∧ (ofTerms t).residue = (t.toNat : ZMod prime) := by
  obtain ⟨r0, r1, r2, r3, r4, r5, r6, r7, r8, q, hacc, hof⟩ := ofTerms_eq t
  obtain ⟨hr, hq, hval⟩ := firstFold h hacc
  rw [columnSum_foldColumns h] at hval
  simp only [List.map, Radix.value_cons, Radix.value_nil] at hval
  have h9 : t.t9.toNat < 0x4000000 := h.1 _ (by simp [ProductTerms.terms])
  have h18 : t.t18.toNat < 0x4000000 := h.1 _ (by simp [ProductTerms.terms])
  obtain ⟨first, second, hv⟩ := topmost hq h9 h18 h.2
  rw [second, first, toNat_mul_foldHigh h18, toNat_mul_foldTop h.2] at hv
  obtain ⟨hm, hs⟩ := foldTopmost_spec (q + t.t9 + t.t18 * foldHigh + t.t19 * foldTop) hr
  rw [hof]
  refine ⟨hm, ?_⟩
  generalize foldTopmost r0 r1 r2 r3 r4 r5 r6 r7 r8
    (q + t.t9 + t.t18 * foldHigh + t.t19 * foldTop) = a at hs
  rw [hv] at hs
  generalize (q.toNat + t.t9.toNat + 1024 * t.t18.toNat + 68719492368 * t.t19.toNat) / 0x400000 =
    excess at hs
  have total : t.toNat = a.toNat + prime * (excess + 16 * Radix.value [t.t10.toNat, t.t11.toNat,
      t.t12.toNat, t.t13.toNat, t.t14.toNat, t.t15.toNat, t.t16.toNat, t.t17.toNat, t.t18.toNat,
      t.t19.toNat]) := by
    simp only [ProductTerms.toNat, ProductTerms.terms, List.foldr, prime, Radix.value_cons,
      Radix.value_nil] at hs ⊢
    linarith
  rw [residue, total, Nat.cast_add, Nat.cast_mul, ZMod.natCast_self, zero_mul, add_zero]

theorem denotes_mul {a b : FieldElement} {m k : Nat} {v w : ZMod prime} (ha : a.Denotes m v)
    (hb : b.Denotes k w) (hm : m ≤ 8 := by decide) (hk : k ≤ 8 := by decide) :
    (a.mul b).Denotes 1 (v * w) := by
  have ha' := magnitude_mono ha.magnitude hm
  have hb' := magnitude_mono hb.magnitude hk
  obtain ⟨hmag, hres⟩ := ofTerms_spec (fitTerms_mulTerms ha' hb')
  refine ⟨hmag, hres.trans ?_⟩
  rw [toNat_mulTerms ha' hb', Nat.cast_mul]
  exact congrArg₂ _ ha.residue hb.residue

theorem denotes_square {a : FieldElement} {m : Nat} {v : ZMod prime} (ha : a.Denotes m v)
    (hm : m ≤ 8 := by decide) : a.square.Denotes 1 (v ^ 2) := by
  rw [pow_two]
  exact denotes_mul ha ha hm hm

end FieldElement

end CurveKeys.Secp256k1
