import CurveKeys.Proofs.Secp256k1.Limbs
import CurveKeys.Secp256k1.Accumulator

/-!
The running sum is exact as long as it fits three limbs, and the columns spell the lowest limbs of
a sum and a product.
-/

namespace CurveKeys.Secp256k1.Accumulator
open Words

theorem toNat_eq (a : Accumulator) :
    a.toNat = a.c0.toNat + 0x100000000 * (a.c1.toNat + 0x100000000 * a.c2.toNat) := by
  simp [toNat, Limbs.toNat]

theorem toNat_zero : zero.toNat = 0 := rfl

theorem eq_zero_of_toNat_eq_zero {a : Accumulator} (h : a.toNat = 0) : a = zero := by
  rw [toNat_eq] at h
  have h0 : a.c0 = 0 := UInt32.toNat_inj.mp (by rw [UInt32.toNat_zero]; omega)
  have h1 : a.c1 = 0 := UInt32.toNat_inj.mp (by rw [UInt32.toNat_zero]; omega)
  have h2 : a.c2 = 0 := UInt32.toNat_inj.mp (by rw [UInt32.toNat_zero]; omega)
  cases a
  rw [zero, mk.injEq]
  exact ⟨h0, h1, h2⟩

theorem toNat_low (a : Accumulator) : a.low.toNat = a.toNat % 0x100000000 := by
  have h := a.c0.toNat_lt
  rw [toNat_eq, low]
  omega

theorem toNat_shift (a : Accumulator) : a.shift.toNat = a.toNat / 0x100000000 := by
  have h := a.c0.toNat_lt
  have hz : (0 : UInt32).toNat = 0 := rfl
  simp only [toNat_eq, shift, hz]
  omega

/-- A wrapped sum is short of the terms by one unit of the limb above. -/
theorem toNat_add_wrapped (x y : UInt32) :
    (x + y).toNat + 0x100000000 * (wrapped (x + y) y).toNat = x.toNat + y.toNat ∧
      (wrapped (x + y) y).toNat ≤ 1 := by
  have hx := x.toNat_lt
  have hy := y.toNat_lt
  rw [wrapped]
  split
  · next h =>
      rw [UInt32.lt_iff_toNat_lt, UInt32.toNat_add] at h
      simp only [UInt32.toNat_add, UInt32.reduceToNat]
      omega
  · next h =>
      rw [UInt32.lt_iff_toNat_lt, UInt32.toNat_add] at h
      simp only [UInt32.toNat_add, UInt32.reduceToNat]
      omega

/-- The carries into the highest limb. The middle limb wraps when the high half of the term is added
to it, or when the carry of the lowest limb is. -/
def carries (a : Accumulator) (v : UInt64) : UInt32 × UInt32 :=
  let lo := v.toUInt32
  let hi := (v >>> 32).toUInt32
  let carry := wrapped (a.c0 + lo) lo
  (wrapped (a.c1 + hi) hi, wrapped (a.c1 + hi + carry) carry)

theorem c2_add (a : Accumulator) (v : UInt64) :
    (a.add v).c2 = a.c2 + (a.carries v).1 + (a.carries v).2 := rfl

/-- No carry is lost or counted twice, whatever the limbs hold. -/
theorem toNat_add_carries (a : Accumulator) (v : UInt64) :
    (a.add v).c0.toNat + 0x100000000 * ((a.add v).c1.toNat + 0x100000000 *
        (a.c2.toNat + (a.carries v).1.toNat + (a.carries v).2.toNat)) = a.toNat + v.toNat := by
  have hlo : v.toUInt32.toNat = v.toNat % 0x100000000 := Limbs.toNat_low32 v
  have hhi : (v >>> 32).toUInt32.toNat = v.toNat / 0x100000000 := by
    have hv := v.toNat_lt
    rw [Limbs.toNat_low32, toNat_high32]
    omega
  obtain ⟨s0, -⟩ := toNat_add_wrapped a.c0 v.toUInt32
  obtain ⟨s1, -⟩ := toNat_add_wrapped a.c1 (v >>> 32).toUInt32
  obtain ⟨s2, -⟩ := toNat_add_wrapped (a.c1 + (v >>> 32).toUInt32)
    (wrapped (a.c0 + v.toUInt32) v.toUInt32)
  rw [toNat_eq, add, carries]
  dsimp only
  omega

theorem toNat_add {a : Accumulator} {v : UInt64} (h : a.toNat + v.toNat < 0x100000000 ^ 3) :
    (a.add v).toNat = a.toNat + v.toNat := by
  have hsum := toNat_add_carries a v
  have hc2 : (a.add v).c2.toNat =
      a.c2.toNat + (a.carries v).1.toNat + (a.carries v).2.toNat := by
    rw [c2_add, toNat_add32 (by rw [toNat_add32 (by omega)]; omega), toNat_add32 (by omega)]
  rw [toNat_eq, hc2, hsum]

theorem toNat_product (x y : UInt32) :
    (x.toUInt64 * y.toUInt64).toNat = x.toNat * y.toNat := by
  have hx := x.toNat_lt
  have hy := y.toNat_lt
  rw [toNat_mul64, UInt32.toNat_toUInt64, UInt32.toNat_toUInt64]
  rw [UInt32.toNat_toUInt64, UInt32.toNat_toUInt64]
  nlinarith

theorem toNat_mulAdd {a : Accumulator} {x y : UInt32}
    (h : a.toNat + x.toNat * y.toNat < 0x100000000 ^ 3) :
    (a.mulAdd x y).toNat = a.toNat + x.toNat * y.toNat := by
  rw [mulAdd, toNat_add (by rwa [toNat_product]), toNat_product]

/-- The sum of the products of the limbs that stand at equal positions. -/
def dotValue : List UInt32 → List UInt32 → Nat
  | x :: xs, y :: ys => x.toNat * y.toNat + dotValue xs ys
  | _, _ => 0

theorem dotValue_le (xs ys : List UInt32) : dotValue xs ys ≤ xs.length * 0xFFFFFFFF ^ 2 := by
  induction xs generalizing ys with
  | nil => simp [dotValue]
  | cons x xs ih =>
      cases ys with
      | nil => simp [dotValue]
      | cons y ys =>
          have hx := x.toNat_lt
          have hy := y.toNat_lt
          have hxy : x.toNat * y.toNat ≤ 0xFFFFFFFF * 0xFFFFFFFF :=
            Nat.mul_le_mul (by omega) (by omega)
          have h := ih ys
          rw [dotValue, List.length_cons]
          linarith

theorem toNat_dot {acc : Accumulator} {xs ys : List UInt32}
    (h : acc.toNat + dotValue xs ys < 0x100000000 ^ 3) :
    (acc.dot xs ys).toNat = acc.toNat + dotValue xs ys := by
  induction xs generalizing acc ys with
  | nil => simp [dot, dotValue]
  | cons x xs ih =>
      cases ys with
      | nil => simp [dot, dotValue]
      | cons y ys =>
          rw [dotValue] at h ⊢
          have hm := toNat_mulAdd (a := acc) (x := x) (y := y) (by omega)
          rw [dot, ih (by rw [hm]; omega), hm]
          ring

/-- What the limbs already passed still contribute above the current column. -/
def pending : (a passed : List UInt32) → Nat
  | [], _ => 0
  | _ :: a, passed => dotValue a passed + 0x100000000 * pending a passed

theorem pending_nil (a : List UInt32) : pending a [] = 0 := by
  induction a with
  | nil => rfl
  | cons x a ih =>
      rw [pending, ih]
      cases a <;> rfl

theorem pending_eq (a passed : List UInt32) :
    pending a passed = dotValue a.tail passed + 0x100000000 * pending a.tail passed := by
  cases a <;> simp [pending, dotValue]

/-- A limb that is passed gives its column now and the rest of its products later. -/
theorem mul_add_pending (a passed : List UInt32) (y : UInt32) :
    Limbs.toNat a * y.toNat + pending a passed =
      dotValue a (y :: passed) + 0x100000000 * pending a (y :: passed) := by
  induction a with
  | nil => simp [Limbs.toNat, pending, dotValue]
  | cons x a ih =>
      rw [Limbs.toNat, pending, dotValue, pending]
      linarith

theorem toNat_headD_tail (l : List UInt32) :
    Limbs.toNat l = (l.headD 0).toNat + 0x100000000 * Limbs.toNat l.tail := by
  cases l <;> simp [Limbs.toNat]

theorem length_columns (width : Nat) (acc : Accumulator) (low a passed b : List UInt32) :
    (columns width acc low a passed b).1.length = width := by
  induction width generalizing acc low a passed b with
  | zero => simp [columns]
  | succ width ih => cases b <;> simp [columns, ih]

/-- A column's sum, with what is carried into it, fits three limbs. -/
theorem toNat_column {acc : Accumulator} (w : UInt32) {xs : List UInt32} (ys : List UInt32)
    (hacc : acc.toNat < 0x100000000 ^ 2) (hxs : xs.length < 0x80000000) :
    ((acc.add w.toUInt64).dot xs ys).toNat = acc.toNat + w.toNat + dotValue xs ys := by
  have hw := w.toNat_lt
  have hd := dotValue_le xs ys
  have hsum : (acc.add w.toUInt64).toNat = acc.toNat + w.toNat := by
    rw [toNat_add, UInt32.toNat_toUInt64]
    rw [UInt32.toNat_toUInt64]
    omega
  rw [toNat_dot, hsum]
  rw [hsum]
  nlinarith

/-- What the columns hold, what is left of the running sum and what has not been read yet make up
the total. -/
theorem columns_spec (width : Nat) (acc : Accumulator) (low a passed b : List UInt32)
    (hacc : acc.c2 = 0) (ha : a.length < 0x80000000) :
    ∃ unread, Limbs.toNat (columns width acc low a passed b).1 +
        0x100000000 ^ width * ((columns width acc low a passed b).2.toNat + unread) =
      acc.toNat + Limbs.toNat low + Limbs.toNat a * Limbs.toNat b + pending a passed := by
  -- every column passes one limb of `b`, and `pending` keeps what that limb owes to the next ones
  induction width generalizing acc low a passed b with
  | zero =>
      refine ⟨Limbs.toNat low + Limbs.toNat a * Limbs.toNat b + pending a passed, ?_⟩
      rw [columns, Limbs.toNat]
      ring
  | succ width ih =>
      have hlt : acc.toNat < 0x100000000 ^ 2 := by
        have h0 := acc.c0.toNat_lt
        have h1 := acc.c1.toNat_lt
        rw [toNat_eq, hacc]
        simp only [UInt32.reduceToNat]
        omega
      cases b with
      | cons y b =>
          have hcol := toNat_column (low.headD 0) (y :: passed) hlt ha
          have hpending := mul_add_pending a passed y
          have hlow := toNat_headD_tail low
          simp only [columns, Limbs.toNat]
          generalize (acc.add (low.headD 0).toUInt64).dot a (y :: passed) = sum at hcol ⊢
          obtain ⟨unread, hrest⟩ := ih sum.shift low.tail a (y :: passed) b rfl ha
          have hsum := Nat.div_add_mod sum.toNat 0x100000000
          rw [toNat_shift] at hrest
          refine ⟨unread, ?_⟩
          rw [toNat_low, pow_succ]
          linarith
      | nil =>
          have ha' : a.tail.length < 0x80000000 := by
            rw [List.length_tail]
            omega
          have hcol := toNat_column (low.headD 0) passed hlt ha'
          have hpending := pending_eq a passed
          have hlow := toNat_headD_tail low
          simp only [columns, Limbs.toNat]
          generalize (acc.add (low.headD 0).toUInt64).dot a.tail passed = sum at hcol ⊢
          obtain ⟨unread, hrest⟩ := ih sum.shift low.tail a.tail passed [] rfl ha'
          have hsum := Nat.div_add_mod sum.toNat 0x100000000
          rw [toNat_shift, Limbs.toNat] at hrest
          refine ⟨unread, ?_⟩
          rw [toNat_low, pow_succ]
          linarith

theorem mulColumns_spec (width : Nat) (low : List UInt32) {a : List UInt32} (b : List UInt32)
    (ha : a.length < 0x80000000) :
    ∃ unread, Limbs.toNat (mulColumns width low a b).1 +
        0x100000000 ^ width * ((mulColumns width low a b).2.toNat + unread) =
      Limbs.toNat low + Limbs.toNat a * Limbs.toNat b := by
  obtain ⟨unread, h⟩ := columns_spec width zero low a [] b rfl ha
  rw [pending_nil, toNat_zero, zero_add, add_zero] at h
  exact ⟨unread, h⟩

theorem length_mulColumns (width : Nat) (low a b : List UInt32) :
    (mulColumns width low a b).1.length = width :=
  length_columns _ _ _ _ _ _

/-- Columns wide enough for the whole sum spell it and leave nothing above them. -/
theorem mulColumns_fit {width : Nat} {low a b : List UInt32} (ha : a.length < 0x80000000)
    (h : Limbs.toNat low + Limbs.toNat a * Limbs.toNat b < 0x100000000 ^ width) :
    Limbs.toNat (mulColumns width low a b).1 = Limbs.toNat low + Limbs.toNat a * Limbs.toNat b ∧
      (mulColumns width low a b).2 = zero := by
  obtain ⟨unread, hs⟩ := mulColumns_spec width low b ha
  have hzero : (mulColumns width low a b).2.toNat + unread = 0 := by
    by_contra hne
    have hle := Nat.le_mul_of_pos_right (0x100000000 ^ width) (Nat.pos_of_ne_zero hne)
    omega
  rw [hzero, mul_zero, add_zero] at hs
  exact ⟨hs, eq_zero_of_toNat_eq_zero (Nat.eq_zero_of_add_eq_zero_right hzero)⟩

end CurveKeys.Secp256k1.Accumulator
