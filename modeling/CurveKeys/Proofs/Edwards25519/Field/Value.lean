import CurveKeys.Proofs.Edwards25519.Primality
import CurveKeys.Proofs.Words
import CurveKeys.Select

/-!
Residues of field elements. Whatever is carried has limbs below `2 ^ 51 + 2 ^ 18`, and on such
limbs no operation leaves its words; an element with that bound denotes its residue.
-/

namespace CurveKeys.Edwards25519.FieldElement
open Words

theorem toNat_eq (a : FieldElement) :
    a.toNat = a.l0.toNat + 0x8000000000000 * (a.l1.toNat + 0x8000000000000 * (a.l2.toNat +
      0x8000000000000 * (a.l3.toNat + 0x8000000000000 * a.l4.toNat))) := by
  rfl

/-- The element of the prime field that the limbs stand for. -/
def residue (a : FieldElement) : ZMod prime := (a.toNat : ZMod prime)

/-- The bound on limbs that every operation keeps. -/
structure Carried (a : FieldElement) : Prop where
  l0 : a.l0.toNat < 0x8000000040000
  l1 : a.l1.toNat < 0x8000000040000
  l2 : a.l2.toNat < 0x8000000040000
  l3 : a.l3.toNat < 0x8000000040000
  l4 : a.l4.toNat < 0x8000000040000

/-- The element is carried and has a residue. -/
structure Denotes (a : FieldElement) (v : ZMod prime) : Prop where
  carried : a.Carried
  residue : a.residue = v

theorem denotes_congr {a : FieldElement} {v w : ZMod prime} (h : a.Denotes v) (e : v = w) :
    a.Denotes w :=
  ⟨h.carried, h.residue.trans e⟩

theorem toNat_low (x : UInt64) : (low x).toNat = x.toNat % 0x8000000000000 :=
  toNat_and_ones64 x 51 rfl

theorem toNat_high (x : UInt64) : (high x).toNat = x.toNat / 0x8000000000000 :=
  toNat_shiftRight64 x 51 rfl

theorem toNat_limb_carry (x y : UInt64) :
    (low x + high y).toNat = x.toNat % 0x8000000000000 + y.toNat / 0x8000000000000 := by
  have hy := y.toNat_lt
  rw [toNat_add64 (by rw [toNat_low, toNat_high]; omega), toNat_low, toNat_high]

theorem toNat_high_wrap (y : UInt64) :
    (high y * 19).toNat = y.toNat / 0x8000000000000 * 19 := by
  have hy := y.toNat_lt
  rw [toNat_mul64 (by rw [toNat_high]; simp only [UInt64.reduceToNat]; omega), toNat_high]
  rfl

theorem toNat_limb_wrap (x y : UInt64) :
    (low x + high y * 19).toNat = x.toNat % 0x8000000000000 + y.toNat / 0x8000000000000 * 19 := by
  have hy := y.toNat_lt
  have hm := toNat_high_wrap y
  rw [toNat_add64 (by rw [toNat_low, hm]; omega), toNat_low, hm]

/-- A carry takes multiples of the modulus away. -/
theorem toNat_carry (a : FieldElement) :
    a.carry.toNat + a.l4.toNat / 0x8000000000000 * prime = a.toNat := by
  have h0 := Nat.mod_add_div a.l0.toNat 0x8000000000000
  have h1 := Nat.mod_add_div a.l1.toNat 0x8000000000000
  have h2 := Nat.mod_add_div a.l2.toNat 0x8000000000000
  have h3 := Nat.mod_add_div a.l3.toNat 0x8000000000000
  have h4 := Nat.mod_add_div a.l4.toNat 0x8000000000000
  simp only [toNat_eq, carry, toNat_limb_carry, toNat_limb_wrap, prime]
  linarith

/-- Whatever the limbs are, carrying them gives the bound. -/
theorem carried_carry (a : FieldElement) : a.carry.Carried := by
  have bound (x y : UInt64) : (low x + high y).toNat < 0x8000000040000 := by
    have hy := y.toNat_lt
    rw [toNat_limb_carry]
    omega
  have wrap (x y : UInt64) : (low x + high y * 19).toNat < 0x8000000040000 := by
    have hy := y.toNat_lt
    rw [toNat_limb_wrap]
    omega
  exact ⟨wrap _ _, bound _ _, bound _ _, bound _ _, bound _ _⟩

theorem residue_carry (a : FieldElement) : a.carry.residue = a.residue := by
  have h := congrArg (Nat.cast : Nat → ZMod prime) (toNat_carry a)
  rw [Nat.cast_add, Nat.cast_mul, ZMod.natCast_self, mul_zero, add_zero] at h
  exact h

theorem denotes_carry {a : FieldElement} {v : ZMod prime} (h : a.residue = v) :
    a.carry.Denotes v :=
  ⟨carried_carry a, (residue_carry a).trans h⟩

theorem denotes_zero : zero.Denotes 0 := by
  refine ⟨?_, by simp [residue, toNat_eq, zero]⟩
  constructor <;> decide

theorem denotes_one : one.Denotes 1 := by
  refine ⟨?_, by simp [residue, toNat_eq, one]⟩
  constructor <;> decide

theorem denotes_select {a b : FieldElement} {v w : ZMod prime} (flag : Bool)
    (ha : a.Denotes v) (hb : b.Denotes w) : (select a b flag).Denotes (select v w flag) :=
  select_related flag ha hb

theorem denotes_add {a b : FieldElement} {v w : ZMod prime} (ha : a.Denotes v)
    (hb : b.Denotes w) : (a.add b).Denotes (v + w) := by
  obtain ⟨a0, a1, a2, a3, a4⟩ := ha.carried
  obtain ⟨b0, b1, b2, b3, b4⟩ := hb.carried
  refine denotes_carry ?_
  rw [← ha.residue, ← hb.residue, residue, residue, residue, ← Nat.cast_add]
  apply congrArg
  simp (disch := omega) only [toNat_eq, toNat_add64]
  ring

/-- A limb of twice the modulus and of `a` less a limb of `b`. -/
theorem toNat_limb_sub {x y c : UInt64} (hx : x.toNat < 0x8000000040000)
    (hy : y.toNat ≤ c.toNat) (hc : c.toNat < 0x10000000000000) :
    (x + c - y).toNat + y.toNat = x.toNat + c.toNat := by
  have hsum : (x + c).toNat = x.toNat + c.toNat := toNat_add64 (by omega)
  rw [toNat_sub64 (by omega), hsum]
  omega

/-- Twice the modulus is added before the subtraction, which therefore stays above zero. -/
theorem denotes_sub {a b : FieldElement} {v w : ZMod prime} (ha : a.Denotes v)
    (hb : b.Denotes w) : (a.sub b).Denotes (v - w) := by
  obtain ⟨a0, a1, a2, a3, a4⟩ := ha.carried
  obtain ⟨b0, b1, b2, b3, b4⟩ := hb.carried
  have h0 := toNat_limb_sub (c := 0xFFFFFFFFFFFDA) a0 (le_trans b0.le (by decide)) (by decide)
  have h1 := toNat_limb_sub (c := 0xFFFFFFFFFFFFE) a1 (le_trans b1.le (by decide)) (by decide)
  have h2 := toNat_limb_sub (c := 0xFFFFFFFFFFFFE) a2 (le_trans b2.le (by decide)) (by decide)
  have h3 := toNat_limb_sub (c := 0xFFFFFFFFFFFFE) a3 (le_trans b3.le (by decide)) (by decide)
  have h4 := toNat_limb_sub (c := 0xFFFFFFFFFFFFE) a4 (le_trans b4.le (by decide)) (by decide)
  have hsum : (FieldElement.mk (a.l0 + 0xFFFFFFFFFFFDA - b.l0) (a.l1 + 0xFFFFFFFFFFFFE - b.l1)
      (a.l2 + 0xFFFFFFFFFFFFE - b.l2) (a.l3 + 0xFFFFFFFFFFFFE - b.l3)
      (a.l4 + 0xFFFFFFFFFFFFE - b.l4)).toNat + b.toNat = a.toNat + 2 * prime := by
    simp only [toNat_eq, prime]
    simp only [UInt64.reduceToNat] at h0 h1 h2 h3 h4
    linarith
  have h := congrArg (Nat.cast : Nat → ZMod prime) hsum
  rw [Nat.cast_add, Nat.cast_add, Nat.cast_mul, ZMod.natCast_self, mul_zero, add_zero] at h
  refine denotes_carry (eq_sub_of_add_eq ?_)
  rw [← ha.residue, ← hb.residue]
  exact h

theorem denotes_negate {a : FieldElement} {v : ZMod prime} (ha : a.Denotes v) :
    a.negate.Denotes (-v) := by
  have h := denotes_sub denotes_zero ha
  rwa [zero_sub] at h

theorem denotes_negateIf {a : FieldElement} {v : ZMod prime} (ha : a.Denotes v) (flag : Bool) :
    (a.negateIf flag).Denotes (if flag then -v else v) :=
  denotes_select flag ha (denotes_negate ha)

end CurveKeys.Edwards25519.FieldElement
