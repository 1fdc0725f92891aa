import CurveKeys.Proofs.CheckedWords
import CurveKeys.Proofs.Edwards25519.Field.Power

/-!
Field operations in checked words. They take the same steps as the wrapping ones, but have no result
when a sum, a product, a shift or a carry leaves its word, when a difference falls below zero, or
when an element between two operations has a limb beyond the bound. On carried operands every
checked operation has a result, and it is that of the wrapping one.
-/

namespace CurveKeys.Edwards25519.FieldElement
open Words

instance (a : FieldElement) : Decidable a.Carried :=
  decidable_of_iff (a.l0.toNat < 0x8000000040000 ∧ a.l1.toNat < 0x8000000040000 ∧
      a.l2.toNat < 0x8000000040000 ∧ a.l3.toNat < 0x8000000040000 ∧ a.l4.toNat < 0x8000000040000)
    ⟨fun ⟨h0, h1, h2, h3, h4⟩ => ⟨h0, h1, h2, h3, h4⟩,
      fun ⟨h0, h1, h2, h3, h4⟩ => ⟨h0, h1, h2, h3, h4⟩⟩

/-- The element, when its limbs keep to the bound. -/
def bounded? (a : FieldElement) : Option FieldElement := if a.Carried then some a else none

theorem bounded?_eq {a : FieldElement} (ha : a.Carried) : a.bounded? = some a := if_pos ha

/-- A limb and what is carried into it. -/
def limbCarry? (x y : UInt64) : Option UInt64 := add64? (low x) (high y)

/-- The first limb and what is carried out of the last. -/
def limbWrap? (x y : UInt64) : Option UInt64 := do add64? (low x) (← mul64? (high y) 19)

def carry? (a : FieldElement) : Option FieldElement := do
  bounded? ⟨← limbWrap? a.l0 a.l4, ← limbCarry? a.l1 a.l0, ← limbCarry? a.l2 a.l1,
    ← limbCarry? a.l3 a.l2, ← limbCarry? a.l4 a.l3⟩

def add? (a b : FieldElement) : Option FieldElement := do
  (FieldElement.mk (← add64? a.l0 b.l0) (← add64? a.l1 b.l1) (← add64? a.l2 b.l2)
    (← add64? a.l3 b.l3) (← add64? a.l4 b.l4)).carry?

/-- A limb `c` of twice the modulus is added, and has to cover the limb that is then taken away. -/
def limbSub? (x c y : UInt64) : Option UInt64 := do
  guard (y ≤ c)
  sub64? (← add64? x c) y

def sub? (a b : FieldElement) : Option FieldElement := do
  (FieldElement.mk (← limbSub? a.l0 0xFFFFFFFFFFFDA b.l0) (← limbSub? a.l1 0xFFFFFFFFFFFFE b.l1)
    (← limbSub? a.l2 0xFFFFFFFFFFFFE b.l2) (← limbSub? a.l3 0xFFFFFFFFFFFFE b.l3)
    (← limbSub? a.l4 0xFFFFFFFFFFFFE b.l4)).carry?

def negate? (a : FieldElement) : Option FieldElement := zero.sub? a

def columns? (a : FieldElement) (c : UInt64) : Option FieldElement := do
  let t0 ← add64? a.l0 c
  let t1 ← add64? a.l1 (high t0)
  let t2 ← add64? a.l2 (high t1)
  let t3 ← add64? a.l3 (high t2)
  some ⟨t0, t1, t2, t3, ← add64? a.l4 (high t3)⟩

def reduce? (a : FieldElement) : Option FieldElement := do
  let a ← a.carry?
  let trial ← a.columns? 19
  let t ← a.columns? (← mul64? 19 (high trial.l4))
  some t.lows

/-- The bytes of reduced limbs. Four limbs start inside a byte and are given moved up as well. -/
def spell (t : FieldElement) (x1 x2 x3 x4 : UInt64) : Vector UInt8 32 :=
  #v[t.l0.toUInt8, (t.l0 >>> 8).toUInt8, (t.l0 >>> 16).toUInt8, (t.l0 >>> 24).toUInt8,
    (t.l0 >>> 32).toUInt8, (t.l0 >>> 40).toUInt8, (t.l0 >>> 48 ||| x1).toUInt8,
    (t.l1 >>> 5).toUInt8, (t.l1 >>> 13).toUInt8, (t.l1 >>> 21).toUInt8, (t.l1 >>> 29).toUInt8,
    (t.l1 >>> 37).toUInt8, (t.l1 >>> 45 ||| x2).toUInt8, (t.l2 >>> 2).toUInt8,
    (t.l2 >>> 10).toUInt8, (t.l2 >>> 18).toUInt8, (t.l2 >>> 26).toUInt8, (t.l2 >>> 34).toUInt8,
    (t.l2 >>> 42).toUInt8, (t.l2 >>> 50 ||| x3).toUInt8, (t.l3 >>> 7).toUInt8,
    (t.l3 >>> 15).toUInt8, (t.l3 >>> 23).toUInt8, (t.l3 >>> 31).toUInt8, (t.l3 >>> 39).toUInt8,
    (t.l3 >>> 47 ||| x4).toUInt8, (t.l4 >>> 4).toUInt8, (t.l4 >>> 12).toUInt8,
    (t.l4 >>> 20).toUInt8, (t.l4 >>> 28).toUInt8, (t.l4 >>> 36).toUInt8, (t.l4 >>> 44).toUInt8]

theorem toBytes_eq_spell (a : FieldElement) : a.toBytes = a.reduce.spell (a.reduce.l1 <<< 3)
    (a.reduce.l2 <<< 6) (a.reduce.l3 <<< 1) (a.reduce.l4 <<< 4) := rfl

def toBytes? (a : FieldElement) : Option (Vector UInt8 32) := do
  let t ← a.reduce?
  some (t.spell (← shiftLeft64? t.l1 3) (← shiftLeft64? t.l2 6) (← shiftLeft64? t.l3 1)
    (← shiftLeft64? t.l4 4))

def same? (a b : FieldElement) : Option Bool := do
  some ((← a.toBytes?) == (← b.toBytes?))

def isNegative? (a : FieldElement) : Option Bool := do
  some (Bytes.byteAt (← a.toBytes?) 0 &&& 1 == 1)

/-- The negative is computed whether or not it is then taken. -/
def negateIf? (a : FieldElement) (flag : Bool) : Option FieldElement := do
  some (select a (← a.negate?) flag)

def abs? (a : FieldElement) : Option FieldElement := do a.negateIf? (← a.isNegative?)

namespace Column

def sum? : Column → Option UInt128
  | [] => some ⟨0, 0⟩
  | t :: r => do
    r.foldlM (fun s t => do add128? s (← mul128? t.1 t.2)) (← mul128? t.1 t.2)

end Column

/-- A limb of a column and what the column below carries into it. -/
def columnCarry? (r s : UInt128) : Option UInt64 := do add64? r.low51 (← high51? s)

/-- The first limb of the columns and what the last column carries out. -/
def columnWrap? (r s : UInt128) : Option UInt64 := do
  add64? r.low51 (← mul64? (← high51? s) 19)

def ofColumns? (r0 r1 r2 r3 r4 : UInt128) : Option FieldElement := do
  (FieldElement.mk (← columnWrap? r0 r4) (← columnCarry? r1 r0) (← columnCarry? r2 r1)
    (← columnCarry? r3 r2) (← columnCarry? r4 r3)).carry?

def Columns.total? (c : Columns) : Option FieldElement := do
  ofColumns? (← c.c0.sum?) (← c.c1.sum?) (← c.c2.sum?) (← c.c3.sum?) (← c.c4.sum?)

/-- The columns of a product; the factors beside 19 have to fit the word of a limb. -/
def mulColumns? (a b : FieldElement) : Option Columns := do
  let w1 ← mul64? b.l1 19
  let w2 ← mul64? b.l2 19
  let w3 ← mul64? b.l3 19
  let w4 ← mul64? b.l4 19
  some
    { c0 := [(a.l0, b.l0), (a.l1, w4), (a.l2, w3), (a.l3, w2), (a.l4, w1)]
      c1 := [(a.l0, b.l1), (a.l1, b.l0), (a.l2, w4), (a.l3, w3), (a.l4, w2)]
      c2 := [(a.l0, b.l2), (a.l1, b.l1), (a.l2, b.l0), (a.l3, w4), (a.l4, w3)]
      c3 := [(a.l0, b.l3), (a.l1, b.l2), (a.l2, b.l1), (a.l3, b.l0), (a.l4, w4)]
      c4 := [(a.l0, b.l4), (a.l1, b.l3), (a.l2, b.l2), (a.l3, b.l1), (a.l4, b.l0)] }

def squareColumns? (a : FieldElement) : Option Columns := do
  let d0 ← mul64? a.l0 2
  let d1 ← mul64? a.l1 2
  let w1 ← mul64? a.l1 38
  let w2 ← mul64? a.l2 38
  let w3 ← mul64? a.l3 38
  let v3 ← mul64? a.l3 19
  let v4 ← mul64? a.l4 19
  some
    { c0 := [(a.l0, a.l0), (w1, a.l4), (w2, a.l3)]
      c1 := [(d0, a.l1), (w2, a.l4), (v3, a.l3)]
      c2 := [(d0, a.l2), (a.l1, a.l1), (w3, a.l4)]
      c3 := [(d0, a.l3), (d1, a.l2), (v4, a.l4)]
      c4 := [(d0, a.l4), (d1, a.l3), (a.l2, a.l2)] }

def mul? (a b : FieldElement) : Option FieldElement := do (← mulColumns? a b).total?

def square? (a : FieldElement) : Option FieldElement := do (← squareColumns? a).total?

def squareTimes? (a : FieldElement) : Nat → Option FieldElement
  | 0 => some a
  | k + 1 => do (← a.square?).squareTimes? k

/-- A power whose exponent is shifted up, times another element. -/
def shiftMul? (a b : FieldElement) (k : Nat) : Option FieldElement := do
  (← a.squareTimes? k).mul? b

def onesPowers? (a : FieldElement) : Option (FieldElement × FieldElement) := do
  let z2 ← a.square?
  let z9 ← z2.shiftMul? a 2
  let z11 ← z9.mul? z2
  let x5 ← z11.shiftMul? z9 1
  let x10 ← x5.shiftMul? x5 5
  let x20 ← x10.shiftMul? x10 10
  let x40 ← x20.shiftMul? x20 20
  let x50 ← x40.shiftMul? x10 10
  let x100 ← x50.shiftMul? x50 50
  let x200 ← x100.shiftMul? x100 100
  some (z11, ← x200.shiftMul? x50 50)

def invert? (a : FieldElement) : Option FieldElement := do
  let (z11, x250) ← a.onesPowers?
  x250.shiftMul? z11 5

def rootPower? (a : FieldElement) : Option FieldElement := do
  let (_, x250) ← a.onesPowers?
  x250.shiftMul? a 2

/-- All candidates and comparisons are computed, whatever is then taken. -/
def sqrtRatio? (u v : FieldElement) : Option (FieldElement × Bool) := do
  let v2 ← v.square?
  let uv3 ← u.mul? (← v2.mul? v)
  let uv7 ← uv3.mul? (← v2.square?)
  let r ← uv3.mul? (← uv7.rootPower?)
  let check ← v.mul? (← r.square?)
  let minusU ← u.negate?
  let correct ← check.same? u
  let flipped ← check.same? minusU
  let flippedRoot ← check.same? (← minusU.mul? sqrtMinusOne)
  let r := select r (← r.mul? sqrtMinusOne) (flipped || flippedRoot)
  some (← r.abs?, correct || flipped)

theorem limbCarry?_eq (x y : UInt64) : limbCarry? x y = some (low x + high y) :=
  add64?_eq (by rw [toNat_limb_carry, toNat_low, toNat_high])

theorem limbWrap?_eq (x y : UInt64) : limbWrap? x y = some (low x + high y * 19) := by
  have hm : mul64? (high y) 19 = some (high y * 19) :=
    mul64?_eq (by rw [toNat_high_wrap, toNat_high]; rfl)
  rw [limbWrap?, bind_eq_of_eq_some hm]
  exact add64?_eq (by rw [toNat_limb_wrap, toNat_low, toNat_high_wrap])

/-- Whatever the limbs are, no carry leaves its word. -/
theorem carry?_eq (a : FieldElement) : a.carry? = some a.carry := by
  rw [carry?, bind_eq_of_eq_some (limbWrap?_eq _ _), bind_eq_of_eq_some (limbCarry?_eq _ _),
    bind_eq_of_eq_some (limbCarry?_eq _ _), bind_eq_of_eq_some (limbCarry?_eq _ _),
    bind_eq_of_eq_some (limbCarry?_eq _ _)]
  exact bounded?_eq (carried_carry a)

theorem add?_eq {a b : FieldElement} (ha : a.Carried) (hb : b.Carried) :
    a.add? b = some (a.add b) := by
  have limb {x y : UInt64} (hx : x.toNat < 0x8000000040000) (hy : y.toNat < 0x8000000040000) :
      add64? x y = some (x + y) := add64?_eq (toNat_add64 (by omega))
  rw [add?, bind_eq_of_eq_some (limb ha.l0 hb.l0), bind_eq_of_eq_some (limb ha.l1 hb.l1),
    bind_eq_of_eq_some (limb ha.l2 hb.l2), bind_eq_of_eq_some (limb ha.l3 hb.l3),
    bind_eq_of_eq_some (limb ha.l4 hb.l4), carry?_eq, add]

/-- Limbs within the bound are covered by those of twice the modulus. -/
theorem limbSub?_eq {x y c : UInt64} (hx : x.toNat < 0x8000000040000)
    (hy : y.toNat < 0x8000000040000) (hle : 0x8000000040000 ≤ c.toNat)
    (hc : c.toNat < 0x10000000000000) : limbSub? x c y = some (x + c - y) := by
  have hsum : (x + c).toNat = x.toNat + c.toNat := toNat_add64 (by omega)
  have hguard : guard (y ≤ c) = some () :=
    if_pos (UInt64.le_iff_toNat_le.mpr (hy.le.trans hle))
  rw [limbSub?, bind_eq_of_eq_some hguard, bind_eq_of_eq_some (add64?_eq hsum)]
  exact sub64?_eq (by omega)

theorem sub?_eq {a b : FieldElement} (ha : a.Carried) (hb : b.Carried) :
    a.sub? b = some (a.sub b) := by
  rw [sub?, bind_eq_of_eq_some (limbSub?_eq ha.l0 hb.l0 (by decide) (by decide)),
    bind_eq_of_eq_some (limbSub?_eq ha.l1 hb.l1 (by decide) (by decide)),
    bind_eq_of_eq_some (limbSub?_eq ha.l2 hb.l2 (by decide) (by decide)),
    bind_eq_of_eq_some (limbSub?_eq ha.l3 hb.l3 (by decide) (by decide)),
    bind_eq_of_eq_some (limbSub?_eq ha.l4 hb.l4 (by decide) (by decide)), carry?_eq, sub]

theorem negate?_eq {a : FieldElement} (ha : a.Carried) : a.negate? = some a.negate :=
  sub?_eq denotes_zero.carried ha

theorem columns?_eq {a : FieldElement} (ha : a.Carried) {c : UInt64} (hc : c.toNat ≤ 19) :
    a.columns? c = some (columns a c) := by
  obtain ⟨h0, h1, h2, h3, h4⟩ := ripple_columns ha hc
  have limb {x y : UInt64} (h : (x + high y).toNat = x.toNat + y.toNat / 0x8000000000000) :
      add64? x (high y) = some (x + high y) := add64?_eq (by rw [h, toNat_high])
  rw [columns?, bind_eq_of_eq_some (add64?_eq h0), bind_eq_of_eq_some (limb h1),
    bind_eq_of_eq_some (limb h2), bind_eq_of_eq_some (limb h3), bind_eq_of_eq_some (limb h4),
    columns]

theorem reduce?_eq (a : FieldElement) : a.reduce? = some a.reduce := by
  have hc := carried_carry a
  rw [reduce?, bind_eq_of_eq_some (carry?_eq a), bind_eq_of_eq_some (columns?_eq hc (by decide)),
    bind_eq_of_eq_some (mul64?_eq (toNat_trial_addend hc)),
    bind_eq_of_eq_some (columns?_eq hc (toNat_trial_addend_le hc)), reduce_eq]

theorem shiftLeft64?_limb_eq {x k : UInt64} (hx : x.toNat < 0x8000000000000) (hk : k.toNat ≤ 6) :
    shiftLeft64? x k = some (x <<< k) := by
  apply shiftLeft64?_eq
  have hp : 2 ^ k.toNat ≤ 2 ^ 6 := Nat.pow_le_pow_right (by decide) hk
  have hlt : x.toNat * 2 ^ k.toNat < 2 ^ 64 :=
    calc x.toNat * 2 ^ k.toNat ≤ x.toNat * 2 ^ 6 := Nat.mul_le_mul_left _ hp
      _ < 2 ^ 64 := by omega
  rw [UInt64.toNat_shiftLeft, Nat.mod_eq_of_lt (show k.toNat < 64 by omega), Nat.shiftLeft_eq,
    Nat.mod_eq_of_lt hlt]

/-- Whatever the limbs are, they are written without leaving a word. -/
theorem toBytes?_eq (a : FieldElement) : a.toBytes? = some a.toBytes := by
  obtain ⟨-, h1, h2, h3, h4, -⟩ := canonical_reduce a
  rw [toBytes?, bind_eq_of_eq_some (reduce?_eq a),
    bind_eq_of_eq_some (shiftLeft64?_limb_eq h1 (by decide)),
    bind_eq_of_eq_some (shiftLeft64?_limb_eq h2 (by decide)),
    bind_eq_of_eq_some (shiftLeft64?_limb_eq h3 (by decide)),
    bind_eq_of_eq_some (shiftLeft64?_limb_eq h4 (by decide)), toBytes_eq_spell]

theorem same?_eq (a b : FieldElement) : a.same? b = some (a == b) := by
  rw [same?, bind_eq_of_eq_some (toBytes?_eq a), bind_eq_of_eq_some (toBytes?_eq b)]
  rfl

theorem isNegative?_eq (a : FieldElement) : a.isNegative? = some a.isNegative := by
  rw [isNegative?, bind_eq_of_eq_some (toBytes?_eq a), isNegative]

theorem negateIf?_eq {a : FieldElement} (ha : a.Carried) (flag : Bool) :
    a.negateIf? flag = some (a.negateIf flag) := by
  rw [negateIf?, bind_eq_of_eq_some (negate?_eq ha), negateIf]

theorem abs?_eq {a : FieldElement} (ha : a.Carried) : a.abs? = some a.abs := by
  rw [abs?, bind_eq_of_eq_some (isNegative?_eq a), negateIf?_eq ha, abs]

theorem Column.foldlM?_eq (s : UInt128) (c : Column) (h : s.toNat + c.value < 2 ^ 128) :
    c.foldlM (fun s t => do add128? s (← mul128? t.1 t.2)) s =
      some (c.foldl (fun s t => s + UInt128.product t.1 t.2) s) := by
  -- the bound is on what is summed and what is still to come, so it passes to the rest
  induction c generalizing s with
  | nil => rfl
  | cons t r ih =>
      have hp := UInt128.toNat_product t.1 t.2
      simp only [value, List.map_cons, List.sum_cons] at h ih
      have hs : (s + UInt128.product t.1 t.2).toNat = s.toNat + (UInt128.product t.1 t.2).toNat :=
        UInt128.toNat_add (by omega)
      rw [List.foldlM_cons, List.foldl_cons, bind_eq_of_eq_some (mul128?_eq _ _),
        bind_eq_of_eq_some (add128?_eq hs), ih _ (by omega)]

theorem Column.sum?_eq {c : Column} (h : c.Fits) : c.sum? = some c.sum := by
  cases c with
  | nil => rfl
  | cons t r => rw [sum?, bind_eq_of_eq_some (mul128?_eq _ _), foldlM?_eq _ _ h.room, sum]

theorem columnCarry?_eq {r s : UInt128} (hs : s.toNat < 2 ^ 110) :
    columnCarry? r s = some (r.low51 + s.high51) := by
  have hh := toNat_column_high hs
  rw [columnCarry?, bind_eq_of_eq_some (high51?_eq hh)]
  exact add64?_eq (by rw [toNat_column_carry hs, UInt128.toNat_low51, hh])

theorem columnWrap?_eq {r s : UInt128} (hs : s.toNat < 2 ^ 110) :
    columnWrap? r s = some (r.low51 + s.high51 * 19) := by
  have hh := toNat_column_high hs
  have hw := toNat_column_high_wrap hs
  have hm : mul64? s.high51 19 = some (s.high51 * 19) := mul64?_eq (by rw [hw, hh]; rfl)
  rw [columnWrap?, bind_eq_of_eq_some (high51?_eq hh), bind_eq_of_eq_some hm]
  exact add64?_eq (by rw [toNat_column_wrap hs, UInt128.toNat_low51, hw])

theorem ofColumns?_eq {r0 r1 r2 r3 r4 : UInt128} (h0 : r0.toNat < 2 ^ 110)
    (h1 : r1.toNat < 2 ^ 110) (h2 : r2.toNat < 2 ^ 110) (h3 : r3.toNat < 2 ^ 110)
    (h4 : r4.toNat < 2 ^ 110) : ofColumns? r0 r1 r2 r3 r4 = some (ofColumns r0 r1 r2 r3 r4) := by
  rw [ofColumns?, bind_eq_of_eq_some (columnWrap?_eq h4), bind_eq_of_eq_some (columnCarry?_eq h0),
    bind_eq_of_eq_some (columnCarry?_eq h1), bind_eq_of_eq_some (columnCarry?_eq h2),
    bind_eq_of_eq_some (columnCarry?_eq h3), carry?_eq, ofColumns]

theorem Columns.total?_eq {c : Columns} (h : c.Fit) : c.total? = some c.total := by
  rw [total?, bind_eq_of_eq_some (Column.sum?_eq h.c0), bind_eq_of_eq_some (Column.sum?_eq h.c1),
    bind_eq_of_eq_some (Column.sum?_eq h.c2), bind_eq_of_eq_some (Column.sum?_eq h.c3),
    bind_eq_of_eq_some (Column.sum?_eq h.c4),
    ofColumns?_eq h.c0.toNat_sum_lt h.c1.toNat_sum_lt h.c2.toNat_sum_lt h.c3.toNat_sum_lt
      h.c4.toNat_sum_lt, total]

theorem mul64?_scaled_eq {x c : UInt64} (hx : x.toNat < 0x8000000040000) (hc : c.toNat ≤ 38) :
    mul64? x c = some (x * c) := mul64?_eq (toNat_scaled hx hc)

theorem mulColumns?_eq (a : FieldElement) {b : FieldElement} (hb : b.Carried) :
    mulColumns? a b = some (mulColumns a b) := by
  rw [mulColumns?, bind_eq_of_eq_some (mul64?_scaled_eq hb.l1 (by decide)),
    bind_eq_of_eq_some (mul64?_scaled_eq hb.l2 (by decide)),
    bind_eq_of_eq_some (mul64?_scaled_eq hb.l3 (by decide)),
    bind_eq_of_eq_some (mul64?_scaled_eq hb.l4 (by decide)), mulColumns]

theorem squareColumns?_eq {a : FieldElement} (ha : a.Carried) :
    squareColumns? a = some (squareColumns a) := by
  rw [squareColumns?, bind_eq_of_eq_some (mul64?_scaled_eq ha.l0 (by decide)),
    bind_eq_of_eq_some (mul64?_scaled_eq ha.l1 (by decide)),
    bind_eq_of_eq_some (mul64?_scaled_eq ha.l1 (by decide)),
    bind_eq_of_eq_some (mul64?_scaled_eq ha.l2 (by decide)),
    bind_eq_of_eq_some (mul64?_scaled_eq ha.l3 (by decide)),
    bind_eq_of_eq_some (mul64?_scaled_eq ha.l3 (by decide)),
    bind_eq_of_eq_some (mul64?_scaled_eq ha.l4 (by decide)), squareColumns]

theorem mul?_eq {a b : FieldElement} (ha : a.Carried) (hb : b.Carried) :
    a.mul? b = some (a.mul b) := by
  rw [mul?, bind_eq_of_eq_some (mulColumns?_eq a hb), Columns.total?_eq (fit_mulColumns ha hb),
    mul_eq_total]

theorem square?_eq {a : FieldElement} (ha : a.Carried) : a.square? = some a.square := by
  rw [square?, bind_eq_of_eq_some (squareColumns?_eq ha),
    Columns.total?_eq (fit_squareColumns ha), square_eq_total]

theorem carried_mul (a b : FieldElement) : (a.mul b).Carried := carried_carry _

theorem carried_square (a : FieldElement) : a.square.Carried := carried_carry _

theorem carried_select {a b : FieldElement} (flag : Bool) (ha : a.Carried) (hb : b.Carried) :
    (select a b flag).Carried := (denotes_select flag ⟨ha, rfl⟩ ⟨hb, rfl⟩).carried

theorem carried_squareTimes {a : FieldElement} (ha : a.Carried) (k : Nat) :
    (a.squareTimes k).Carried := (denotes_squareTimes ⟨ha, rfl⟩ k).carried

theorem squareTimes?_eq {a : FieldElement} (ha : a.Carried) (k : Nat) :
    a.squareTimes? k = some (a.squareTimes k) := by
  induction k generalizing a with
  | zero => rfl
  | succ k ih =>
      rw [squareTimes?, bind_eq_of_eq_some (square?_eq ha), ih (carried_square a), squareTimes]

theorem shiftMul?_eq {a b : FieldElement} (ha : a.Carried) (hb : b.Carried) (k : Nat) :
    a.shiftMul? b k = some ((a.squareTimes k).mul b) := by
  rw [shiftMul?, bind_eq_of_eq_some (squareTimes?_eq ha k), mul?_eq (carried_squareTimes ha k) hb]

theorem onesPowers?_eq {a : FieldElement} (ha : a.Carried) :
    a.onesPowers? = some a.onesPowers := by
  -- every power on the way is a product, and products are carried whatever their factors are
  have step {a b : FieldElement} (ha : a.Carried) (hb : b.Carried) (k : Nat)
      {f : FieldElement → Option (FieldElement × FieldElement)} :
      (a.shiftMul? b k >>= f) = f ((a.squareTimes k).mul b) :=
    bind_eq_of_eq_some (shiftMul?_eq ha hb k)
  have h {a b : FieldElement} : (a.mul b).Carried := carried_mul a b
  rw [onesPowers?, bind_eq_of_eq_some (square?_eq ha), step (carried_square a) ha,
    bind_eq_of_eq_some (mul?_eq h (carried_square a)), step h h, step h h, step h h, step h h,
    step h h, step h h, step h h, step h h]
  rfl

theorem invert?_eq {a : FieldElement} (ha : a.Carried) : a.invert? = some a.invert := by
  obtain ⟨z11, x250⟩ := denotes_onesPowers ⟨ha, rfl⟩
  rw [invert?, bind_eq_of_eq_some (onesPowers?_eq ha)]
  exact shiftMul?_eq x250.carried z11.carried 5

theorem rootPower?_eq {a : FieldElement} (ha : a.Carried) :
    a.rootPower? = some a.rootPower := by
  obtain ⟨-, x250⟩ := denotes_onesPowers ⟨ha, rfl⟩
  rw [rootPower?, bind_eq_of_eq_some (onesPowers?_eq ha)]
  exact shiftMul?_eq x250.carried ha 2

theorem sqrtRatio?_eq {u v : FieldElement} (hu : u.Carried) (hv : v.Carried) :
    sqrtRatio? u v = some (sqrtRatio u v) := by
  have h {a b : FieldElement} : (a.mul b).Carried := carried_mul a b
  have hs {a : FieldElement} : a.square.Carried := carried_square a
  have hr {a : FieldElement} : a.rootPower.Carried := carried_mul _ _
  have hminus : u.negate.Carried := carried_carry _
  rw [sqrtRatio?, bind_eq_of_eq_some (square?_eq hv), bind_eq_of_eq_some (mul?_eq hs hv),
    bind_eq_of_eq_some (mul?_eq hu h), bind_eq_of_eq_some (square?_eq hs),
    bind_eq_of_eq_some (mul?_eq h hs), bind_eq_of_eq_some (rootPower?_eq h),
    bind_eq_of_eq_some (mul?_eq h hr), bind_eq_of_eq_some (square?_eq h),
    bind_eq_of_eq_some (mul?_eq hv hs), bind_eq_of_eq_some (negate?_eq hu),
    bind_eq_of_eq_some (same?_eq _ _), bind_eq_of_eq_some (same?_eq _ _),
    bind_eq_of_eq_some (mul?_eq hminus denotes_sqrtMinusOne.carried),
    bind_eq_of_eq_some (same?_eq _ _), bind_eq_of_eq_some (mul?_eq h denotes_sqrtMinusOne.carried)]
  exact bind_eq_of_eq_some (abs?_eq (carried_select _ h h))

end CurveKeys.Edwards25519.FieldElement
