import CurveKeys.Proofs.Edwards25519.Field.Value
import CurveKeys.Proofs.UInt128
import CurveKeys.Edwards25519.Field.Multiply

/-!
Products of field elements. The column sums of carried factors are below `2 ^ 110`, so neither they
nor their carries leave 128 bits; over the residues `2 ^ 255` is 19, which folds the upper columns.
A square has the columns of the product of an element with itself.
-/

namespace CurveKeys.Edwards25519.FieldElement
open Words

theorem two_pow_255 : (2 : ZMod prime) ^ 255 = 19 := by decide +kernel

/-- The residue of five columns. -/
def columnsValue (r0 r1 r2 r3 r4 : Nat) : ZMod prime :=
  r0 + 0x8000000000000 * (r1 + 0x8000000000000 * (r2 + 0x8000000000000 * (r3 +
    0x8000000000000 * r4)))

theorem residue_eq (a : FieldElement) :
    a.residue = columnsValue a.l0.toNat a.l1.toNat a.l2.toNat a.l3.toNat a.l4.toNat := by
  rw [residue, toNat_eq, columnsValue]
  push_cast
  rfl

theorem toNat_column_high {s : UInt128} (hs : s.toNat < 2 ^ 110) :
    s.high51.toNat = s.toNat / 0x8000000000000 :=
  UInt128.toNat_high51 (lt_trans hs (by decide))

theorem toNat_column_carry {r s : UInt128} (hs : s.toNat < 2 ^ 110) :
    (r.low51 + s.high51).toNat = r.toNat % 0x8000000000000 + s.toNat / 0x8000000000000 := by
  have hh := toNat_column_high hs
  rw [toNat_add64 (by rw [UInt128.toNat_low51, hh]; omega), UInt128.toNat_low51, hh]

theorem toNat_column_high_wrap {s : UInt128} (hs : s.toNat < 2 ^ 110) :
    (s.high51 * 19).toNat = s.toNat / 0x8000000000000 * 19 := by
  have hh := toNat_column_high hs
  rw [toNat_mul64 (by rw [hh]; simp only [UInt64.reduceToNat]; omega), hh]
  rfl

theorem toNat_column_wrap {r s : UInt128} (hs : s.toNat < 2 ^ 110) :
    (r.low51 + s.high51 * 19).toNat =
      r.toNat % 0x8000000000000 + s.toNat / 0x8000000000000 * 19 := by
  have hm := toNat_column_high_wrap hs
  rw [toNat_add64 (by rw [UInt128.toNat_low51, hm]; omega), UInt128.toNat_low51, hm]

theorem denotes_ofColumns {r0 r1 r2 r3 r4 : UInt128} (h0 : r0.toNat < 2 ^ 110)
    (h1 : r1.toNat < 2 ^ 110) (h2 : r2.toNat < 2 ^ 110) (h3 : r3.toNat < 2 ^ 110)
    (h4 : r4.toNat < 2 ^ 110) :
    (ofColumns r0 r1 r2 r3 r4).Denotes
      (columnsValue r0.toNat r1.toNat r2.toNat r3.toNat r4.toNat) := by
  refine denotes_carry ?_
  rw [residue_eq, toNat_column_wrap h4, toNat_column_carry h0, toNat_column_carry h1,
    toNat_column_carry h2, toNat_column_carry h3]
  have e (n : Nat) : ((n % 0x8000000000000 : Nat) : ZMod prime) +
      0x8000000000000 * (n / 0x8000000000000 : Nat) = n := by
    exact_mod_cast congrArg (Nat.cast : Nat → ZMod prime) (Nat.mod_add_div n 0x8000000000000)
  simp only [columnsValue, Nat.cast_add, Nat.cast_mul]
  have e0 := e r0.toNat
  have e1 := e r1.toNat
  have e2 := e r2.toNat
  have e3 := e r3.toNat
  have e4 := e r4.toNat
  linear_combination e0 + 0x8000000000000 * e1 + 0x8000000000000 ^ 2 * e2 +
    0x8000000000000 ^ 3 * e3 + 0x8000000000000 ^ 4 * e4 -
    ((r4.toNat / 0x8000000000000 : Nat) : ZMod prime) * two_pow_255

/-- A factor of a column: a limb of a carried element, or a small multiple of one. -/
def Factor (m : Nat) (x : UInt64) : Prop := x.toNat ≤ 0x8000000040000 * m

theorem factor_limb {x : UInt64} (hx : x.toNat < 0x8000000040000) : Factor 1 x :=
  hx.le

theorem toNat_scaled {x c : UInt64} (hx : x.toNat < 0x8000000040000) (hc : c.toNat ≤ 38) :
    (x * c).toNat = x.toNat * c.toNat := by
  have h : x.toNat * c.toNat ≤ 0x8000000040000 * 38 := Nat.mul_le_mul hx.le hc
  exact toNat_mul64 (by omega)

theorem toNat_times_two {x : UInt64} (hx : x.toNat < 0x8000000040000) :
    (x * 2).toNat = x.toNat * 2 :=
  toNat_scaled hx (by decide)

theorem toNat_times_nineteen {x : UInt64} (hx : x.toNat < 0x8000000040000) :
    (x * 19).toNat = x.toNat * 19 :=
  toNat_scaled hx (by decide)

theorem toNat_times_thirtyEight {x : UInt64} (hx : x.toNat < 0x8000000040000) :
    (x * 38).toNat = x.toNat * 38 :=
  toNat_scaled hx (by decide)

theorem factor_scaled {x c : UInt64} (hx : x.toNat < 0x8000000040000) (hc : c.toNat ≤ 38) :
    Factor c.toNat (x * c) := by
  rw [Factor, toNat_scaled hx hc]
  exact Nat.mul_le_mul_right _ hx.le

/-- The largest term of a column. -/
def termLimit : Nat := 0x8000000040000 ^ 2 * 38

theorem mul_le_termLimit {x y : UInt64} {m n : Nat} (hx : Factor m x) (hy : Factor n y)
    (h : m * n ≤ 38 := by decide) : x.toNat * y.toNat ≤ termLimit :=
  calc x.toNat * y.toNat ≤ 0x8000000040000 * m * (0x8000000040000 * n) := Nat.mul_le_mul hx hy
    _ = 0x8000000040000 ^ 2 * (m * n) := by ring
    _ ≤ termLimit := Nat.mul_le_mul_left _ h

/-- The pairs of words whose products a column adds up. -/
abbrev Column := List (UInt64 × UInt64)

namespace Column

def sum : Column → UInt128
  | [] => ⟨0, 0⟩
  | t :: r => r.foldl (fun s t => s + UInt128.product t.1 t.2) (UInt128.product t.1 t.2)

def value (c : Column) : Nat := (c.map fun t => t.1.toNat * t.2.toNat).sum

/-- A column has at most five terms, and no term is above the limit. -/
structure Fits (c : Column) : Prop where
  length : c.length ≤ 5
  terms : ∀ t ∈ c, t.1.toNat * t.2.toNat ≤ termLimit

theorem value_le {c : Column} (h : ∀ t ∈ c, t.1.toNat * t.2.toNat ≤ termLimit) :
    c.value ≤ c.length * termLimit := by
  have hsum := List.sum_le_card_nsmul (c.map fun t => t.1.toNat * t.2.toNat) termLimit
    (List.forall_mem_map.mpr h)
  rwa [List.length_map, smul_eq_mul] at hsum

theorem Fits.value_lt {c : Column} (h : c.Fits) : c.value < 2 ^ 110 :=
  calc c.value ≤ c.length * termLimit := value_le h.terms
    _ ≤ 5 * termLimit := Nat.mul_le_mul_right _ h.length
    _ < 2 ^ 110 := by decide

theorem toNat_foldl (s : UInt128) (c : Column) (h : s.toNat + c.value < 2 ^ 128) :
    (c.foldl (fun s t => s + UInt128.product t.1 t.2) s).toNat = s.toNat + c.value := by
  induction c generalizing s with
  | nil => rfl
  | cons t r ih =>
      have hp := UInt128.toNat_product t.1 t.2
      simp only [value, List.map_cons, List.sum_cons] at h ih ⊢
      have hs : (s + UInt128.product t.1 t.2).toNat = s.toNat + t.1.toNat * t.2.toNat := by
        rw [UInt128.toNat_add (by omega), hp]
      rw [List.foldl_cons, ih _ (by omega), hs, Nat.add_assoc]

theorem Fits.room {t : UInt64 × UInt64} {r : Column} (h : Fits (t :: r)) :
    (UInt128.product t.1 t.2).toNat + value r < 2 ^ 128 := by
  have hlt : t.1.toNat * t.2.toNat + value r < 2 ^ 110 := h.value_lt
  rw [UInt128.toNat_product]
  exact hlt.trans (by decide)

/-- The sum of a column is exact. -/
theorem toNat_sum {c : Column} (h : c.Fits) : c.sum.toNat = c.value := by
  cases c with
  | nil => rfl
  | cons t r =>
      rw [sum, toNat_foldl _ r h.room, UInt128.toNat_product]
      rfl

theorem Fits.toNat_sum_lt {c : Column} (h : c.Fits) : c.sum.toNat < 2 ^ 110 := by
  rw [toNat_sum h]
  exact h.value_lt

end Column

/-- The five columns of a product. -/
structure Columns where
  c0 : Column
  c1 : Column
  c2 : Column
  c3 : Column
  c4 : Column

namespace Columns

/-- The sums of the columns, carried into limbs. -/
def total (c : Columns) : FieldElement := ofColumns c.c0.sum c.c1.sum c.c2.sum c.c3.sum c.c4.sum

structure Fit (c : Columns) : Prop where
  c0 : c.c0.Fits
  c1 : c.c1.Fits
  c2 : c.c2.Fits
  c3 : c.c3.Fits
  c4 : c.c4.Fits

theorem denotes_total {c : Columns} (h : c.Fit) : c.total.Denotes
    (columnsValue c.c0.value c.c1.value c.c2.value c.c3.value c.c4.value) := by
  have hd := denotes_ofColumns h.c0.toNat_sum_lt h.c1.toNat_sum_lt h.c2.toNat_sum_lt
    h.c3.toNat_sum_lt h.c4.toNat_sum_lt
  rwa [Column.toNat_sum h.c0, Column.toNat_sum h.c1, Column.toNat_sum h.c2, Column.toNat_sum h.c3,
    Column.toNat_sum h.c4] at hd

end Columns

/-- The columns of a product; what lands above bit 255 comes back multiplied by 19. -/
def mulColumns (a b : FieldElement) : Columns where
  c0 := [(a.l0, b.l0), (a.l1, b.l4 * 19), (a.l2, b.l3 * 19), (a.l3, b.l2 * 19), (a.l4, b.l1 * 19)]
  c1 := [(a.l0, b.l1), (a.l1, b.l0), (a.l2, b.l4 * 19), (a.l3, b.l3 * 19), (a.l4, b.l2 * 19)]
  c2 := [(a.l0, b.l2), (a.l1, b.l1), (a.l2, b.l0), (a.l3, b.l4 * 19), (a.l4, b.l3 * 19)]
  c3 := [(a.l0, b.l3), (a.l1, b.l2), (a.l2, b.l1), (a.l3, b.l0), (a.l4, b.l4 * 19)]
  c4 := [(a.l0, b.l4), (a.l1, b.l3), (a.l2, b.l2), (a.l3, b.l1), (a.l4, b.l0)]

/-- The columns of a square, in which products of two different limbs stand once, with a factor. -/
def squareColumns (a : FieldElement) : Columns where
  c0 := [(a.l0, a.l0), (a.l1 * 38, a.l4), (a.l2 * 38, a.l3)]
  c1 := [(a.l0 * 2, a.l1), (a.l2 * 38, a.l4), (a.l3 * 19, a.l3)]
  c2 := [(a.l0 * 2, a.l2), (a.l1, a.l1), (a.l3 * 38, a.l4)]
  c3 := [(a.l0 * 2, a.l3), (a.l1 * 2, a.l2), (a.l4 * 19, a.l4)]
  c4 := [(a.l0 * 2, a.l4), (a.l1 * 2, a.l3), (a.l2, a.l2)]

theorem mul_eq_total (a b : FieldElement) : a.mul b = (mulColumns a b).total := rfl

theorem square_eq_total (a : FieldElement) : a.square = (squareColumns a).total := rfl

theorem fit_mulColumns {a b : FieldElement} (ha : a.Carried) (hb : b.Carried) :
    (mulColumns a b).Fit := by
  obtain ⟨l0, l1, l2, l3, l4⟩ := ha
  obtain ⟨m0, m1, m2, m3, m4⟩ := hb
  have a0 := factor_limb l0
  have a1 := factor_limb l1
  have a2 := factor_limb l2
  have a3 := factor_limb l3
  have a4 := factor_limb l4
  have b0 := factor_limb m0
  have b1 := factor_limb m1
  have b2 := factor_limb m2
  have b3 := factor_limb m3
  have b4 := factor_limb m4
  have w1 := factor_scaled (c := 19) m1 (by decide)
  have w2 := factor_scaled (c := 19) m2 (by decide)
  have w3 := factor_scaled (c := 19) m3 (by decide)
  have w4 := factor_scaled (c := 19) m4 (by decide)
  refine ⟨⟨le_rfl, ?_⟩, ⟨le_rfl, ?_⟩, ⟨le_rfl, ?_⟩, ⟨le_rfl, ?_⟩, ⟨le_rfl, ?_⟩⟩ <;>
    simp only [mulColumns, List.forall_mem_cons]
  · exact ⟨mul_le_termLimit a0 b0, mul_le_termLimit a1 w4, mul_le_termLimit a2 w3,
      mul_le_termLimit a3 w2, mul_le_termLimit a4 w1, List.forall_mem_nil _⟩
  · exact ⟨mul_le_termLimit a0 b1, mul_le_termLimit a1 b0, mul_le_termLimit a2 w4,
      mul_le_termLimit a3 w3, mul_le_termLimit a4 w2, List.forall_mem_nil _⟩
  · exact ⟨mul_le_termLimit a0 b2, mul_le_termLimit a1 b1, mul_le_termLimit a2 b0,
      mul_le_termLimit a3 w4, mul_le_termLimit a4 w3, List.forall_mem_nil _⟩
  · exact ⟨mul_le_termLimit a0 b3, mul_le_termLimit a1 b2, mul_le_termLimit a2 b1,
      mul_le_termLimit a3 b0, mul_le_termLimit a4 w4, List.forall_mem_nil _⟩
  · exact ⟨mul_le_termLimit a0 b4, mul_le_termLimit a1 b3, mul_le_termLimit a2 b2,
      mul_le_termLimit a3 b1, mul_le_termLimit a4 b0, List.forall_mem_nil _⟩

theorem fit_squareColumns {a : FieldElement} (ha : a.Carried) : (squareColumns a).Fit := by
  obtain ⟨l0, l1, l2, l3, l4⟩ := ha
  have a0 := factor_limb l0
  have a1 := factor_limb l1
  have a2 := factor_limb l2
  have a3 := factor_limb l3
  have a4 := factor_limb l4
  have d0 := factor_scaled (c := 2) l0 (by decide)
  have d1 := factor_scaled (c := 2) l1 (by decide)
  have w1 := factor_scaled (c := 38) l1 (by decide)
  have w2 := factor_scaled (c := 38) l2 (by decide)
  have w3 := factor_scaled (c := 38) l3 (by decide)
  have v3 := factor_scaled (c := 19) l3 (by decide)
  have v4 := factor_scaled (c := 19) l4 (by decide)
  have three : 3 ≤ 5 := by decide
  refine ⟨⟨three, ?_⟩, ⟨three, ?_⟩, ⟨three, ?_⟩, ⟨three, ?_⟩, ⟨three, ?_⟩⟩ <;>
    simp only [squareColumns, List.forall_mem_cons]
  · exact ⟨mul_le_termLimit a0 a0, mul_le_termLimit w1 a4, mul_le_termLimit w2 a3,
      List.forall_mem_nil _⟩
  · exact ⟨mul_le_termLimit d0 a1, mul_le_termLimit w2 a4, mul_le_termLimit v3 a3,
      List.forall_mem_nil _⟩
  · exact ⟨mul_le_termLimit d0 a2, mul_le_termLimit a1 a1, mul_le_termLimit w3 a4,
      List.forall_mem_nil _⟩
  · exact ⟨mul_le_termLimit d0 a3, mul_le_termLimit d1 a2, mul_le_termLimit v4 a4,
      List.forall_mem_nil _⟩
  · exact ⟨mul_le_termLimit d0 a4, mul_le_termLimit d1 a3, mul_le_termLimit a2 a2,
      List.forall_mem_nil _⟩

theorem denotes_mul {a b : FieldElement} {v w : ZMod prime} (ha : a.Denotes v)
    (hb : b.Denotes w) : (a.mul b).Denotes (v * w) := by
  rw [mul_eq_total]
  refine denotes_congr (Columns.denotes_total (fit_mulColumns ha.carried hb.carried)) ?_
  obtain ⟨-, m1, m2, m3, m4⟩ := hb.carried
  rw [← ha.residue, ← hb.residue, residue_eq, residue_eq]
  simp only [mulColumns, Column.value, List.map_cons, List.map_nil, List.sum_cons, List.sum_nil,
    toNat_times_nineteen m1, toNat_times_nineteen m2, toNat_times_nineteen m3,
    toNat_times_nineteen m4, columnsValue, Nat.cast_add, Nat.cast_mul, Nat.cast_ofNat,
    Nat.cast_zero]
  -- what multiplies 19 in a column is a product whose weight is that of the column times `2 ^ 255`
  linear_combination (-(a.l4.toNat * b.l1.toNat + a.l3.toNat * b.l2.toNat +
      a.l2.toNat * b.l3.toNat + a.l1.toNat * b.l4.toNat +
      0x8000000000000 * (a.l4.toNat * b.l2.toNat + a.l3.toNat * b.l3.toNat +
        a.l2.toNat * b.l4.toNat) +
      0x8000000000000 ^ 2 * (a.l4.toNat * b.l3.toNat + a.l3.toNat * b.l4.toNat) +
      0x8000000000000 ^ 3 * (a.l4.toNat * b.l4.toNat)) : ZMod prime) * two_pow_255

/-- The columns of a square are those of the product, with equal products taken once. -/
theorem square_eq_mul {a : FieldElement} (ha : a.Carried) : a.square = a.mul a := by
  have hs := fit_squareColumns ha
  have hm := fit_mulColumns ha ha
  have column {c d : Column} (hc : c.Fits) (hd : d.Fits) (h : c.value = d.value) :
      c.sum = d.sum := by
    apply UInt128.eq_of_toNat_eq
    rw [Column.toNat_sum hc, Column.toNat_sum hd, h]
  obtain ⟨l0, l1, l2, l3, l4⟩ := ha
  rw [mul_eq_total, square_eq_total, Columns.total, Columns.total, column hs.c0 hm.c0 ?_,
    column hs.c1 hm.c1 ?_, column hs.c2 hm.c2 ?_, column hs.c3 hm.c3 ?_, column hs.c4 hm.c4 ?_]
  all_goals
    simp only [mulColumns, squareColumns, Column.value, List.map_cons, List.map_nil,
      List.sum_cons, List.sum_nil, toNat_times_two l0, toNat_times_two l1, toNat_times_nineteen l1,
      toNat_times_nineteen l2, toNat_times_nineteen l3, toNat_times_nineteen l4,
      toNat_times_thirtyEight l1, toNat_times_thirtyEight l2, toNat_times_thirtyEight l3]
    ring

theorem denotes_square {a : FieldElement} {v : ZMod prime} (ha : a.Denotes v) :
    a.square.Denotes (v ^ 2) := by
  rw [square_eq_mul ha.carried, pow_two]
  exact denotes_mul ha ha

end CurveKeys.Edwards25519.FieldElement
