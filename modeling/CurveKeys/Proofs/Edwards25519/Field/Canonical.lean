import CurveKeys.Proofs.Edwards25519.Field.Value

/-!
The limbs of the residue below the modulus. Carrying leaves less than twice the modulus, so one
trial addition of 19 decides whether the modulus is still to be taken away.
-/

namespace CurveKeys.Edwards25519.FieldElement
open Words

/-- The limbs have 51 bits each and spell an integer below the modulus. -/
structure Canonical (a : FieldElement) : Prop where
  l0 : a.l0.toNat < 0x8000000000000
  l1 : a.l1.toNat < 0x8000000000000
  l2 : a.l2.toNat < 0x8000000000000
  l3 : a.l3.toNat < 0x8000000000000
  l4 : a.l4.toNat < 0x8000000000000
  toNat_lt : a.toNat < prime

theorem toNat_lt_of_carried {a : FieldElement} (h : a.Carried) : a.toNat < 2 * prime := by
  obtain ⟨h0, h1, h2, h3, h4⟩ := h
  rw [toNat_eq, prime]
  omega

theorem toNat_add_high {x y : UInt64} (hx : x.toNat < 0x10000000000000) :
    (x + high y).toNat = x.toNat + y.toNat / 0x8000000000000 := by
  have hy := y.toNat_lt
  rw [toNat_add64 (by rw [toNat_high]; omega), toNat_high]

/-- Five columns with `c` added to the lowest one: each takes the carry of the one below it. -/
structure Ripple (a : FieldElement) (c : Nat) (t : FieldElement) : Prop where
  l0 : t.l0.toNat = a.l0.toNat + c
  l1 : t.l1.toNat = a.l1.toNat + t.l0.toNat / 0x8000000000000
  l2 : t.l2.toNat = a.l2.toNat + t.l1.toNat / 0x8000000000000
  l3 : t.l3.toNat = a.l3.toNat + t.l2.toNat / 0x8000000000000
  l4 : t.l4.toNat = a.l4.toNat + t.l3.toNat / 0x8000000000000

/-- The lower 51 bits of each column. -/
def lows (t : FieldElement) : FieldElement :=
  ⟨low t.l0, low t.l1, low t.l2, low t.l3, low t.l4⟩

theorem toNat_lows_lt (t : FieldElement) : t.lows.toNat < 2 ^ 255 := by
  have h (x : UInt64) : (low x).toNat < 0x8000000000000 := by
    rw [toNat_low]
    exact Nat.mod_lt _ (by decide)
  have h0 := h t.l0
  have h1 := h t.l1
  have h2 := h t.l2
  have h3 := h t.l3
  have h4 := h t.l4
  rw [toNat_eq]
  simp only [lows]
  omega

/-- What rippling carries leaves, and what it carries out. -/
theorem toNat_ripple {a t : FieldElement} {c : Nat} (h : Ripple a c t) :
    t.lows.toNat + 2 ^ 255 * (t.l4.toNat / 0x8000000000000) = a.toNat + c := by
  obtain ⟨h0, h1, h2, h3, h4⟩ := h
  have m0 := Nat.mod_add_div t.l0.toNat 0x8000000000000
  have m1 := Nat.mod_add_div t.l1.toNat 0x8000000000000
  have m2 := Nat.mod_add_div t.l2.toNat 0x8000000000000
  have m3 := Nat.mod_add_div t.l3.toNat 0x8000000000000
  have m4 := Nat.mod_add_div t.l4.toNat 0x8000000000000
  simp only [toNat_eq, lows, toNat_low]
  linarith

theorem carry_out_ripple {a t : FieldElement} {c : Nat} (h : Ripple a c t) :
    t.l4.toNat / 0x8000000000000 = (a.toNat + c) / 2 ^ 255 := by
  have hlt := toNat_lows_lt t
  rw [← toNat_ripple h, Nat.add_mul_div_left _ _ (by decide), Nat.div_eq_of_lt hlt, zero_add]

theorem toNat_lows_ripple {a t : FieldElement} {c : Nat} (h : Ripple a c t) :
    t.lows.toNat = (a.toNat + c) % 2 ^ 255 := by
  have hlt := toNat_lows_lt t
  rw [← toNat_ripple h, Nat.add_mul_mod_self_left, Nat.mod_eq_of_lt hlt]

/-- The columns that `reduce` computes for an addend. -/
def columns (a : FieldElement) (c : UInt64) : FieldElement :=
  let t0 := a.l0 + c
  let t1 := a.l1 + high t0
  let t2 := a.l2 + high t1
  let t3 := a.l3 + high t2
  ⟨t0, t1, t2, t3, a.l4 + high t3⟩

theorem ripple_columns {a : FieldElement} (ha : a.Carried) {c : UInt64} (hc : c.toNat ≤ 19) :
    Ripple a c.toNat (columns a c) := by
  obtain ⟨h0, h1, h2, h3, h4⟩ := ha
  exact ⟨toNat_add64 (by omega), toNat_add_high (by omega), toNat_add_high (by omega),
    toNat_add_high (by omega), toNat_add_high (by omega)⟩

theorem reduce_eq (a : FieldElement) :
    a.reduce = (columns a.carry (19 * high (columns a.carry 19).l4)).lows := rfl

/-- Adding 19 reaches bit 255 exactly from the modulus on. -/
theorem trial_subtraction {n : Nat} (h : n < 2 * prime) :
    (n + 19 * ((n + 19) / 2 ^ 255)) % 2 ^ 255 = n % prime := by
  have hp : prime + 19 = 2 ^ 255 := by decide
  rcases Nat.lt_or_ge n prime with hlt | hge
  · rw [Nat.div_eq_of_lt (by omega), mul_zero, add_zero, Nat.mod_eq_of_lt hlt,
      Nat.mod_eq_of_lt (by omega)]
  · have hq : (n + 19) / 2 ^ 255 = 1 := Nat.div_eq_of_lt_le (by omega) (by omega)
    rw [hq, mul_one, Nat.mod_eq_sub_mod hge, Nat.mod_eq_of_lt (show n - prime < prime by omega),
      show n + 19 = (n - prime) + 2 ^ 255 by omega, Nat.add_mod_right,
      Nat.mod_eq_of_lt (by omega)]

theorem toNat_trial {a : FieldElement} (ha : a.Carried) :
    (high (columns a 19).l4).toNat = (a.toNat + 19) / 2 ^ 255 := by
  have htrial := carry_out_ripple (ripple_columns ha (c := 19) (by decide))
  simp only [UInt64.reduceToNat] at htrial
  rw [toNat_high, htrial]

theorem toNat_trial_le_one {a : FieldElement} (ha : a.Carried) :
    (high (columns a 19).l4).toNat ≤ 1 := by
  have hlt := toNat_lt_of_carried ha
  rw [prime] at hlt
  rw [toNat_trial ha]
  omega

theorem toNat_trial_addend {a : FieldElement} (ha : a.Carried) :
    (19 * high (columns a 19).l4).toNat = 19 * (high (columns a 19).l4).toNat := by
  have hle := toNat_trial_le_one ha
  exact toNat_mul64 (by simp only [UInt64.reduceToNat]; omega)

theorem toNat_trial_addend_le {a : FieldElement} (ha : a.Carried) :
    (19 * high (columns a 19).l4).toNat ≤ 19 := by
  have hle := toNat_trial_le_one ha
  rw [toNat_trial_addend ha]
  omega

theorem toNat_reduce (a : FieldElement) : a.reduce.toNat = a.carry.toNat % prime := by
  have hc := carried_carry a
  rw [reduce_eq, toNat_lows_ripple (ripple_columns hc (toNat_trial_addend_le hc)),
    toNat_trial_addend hc, toNat_trial hc, trial_subtraction (toNat_lt_of_carried hc)]

theorem canonical_reduce (a : FieldElement) : a.reduce.Canonical := by
  have h (x : UInt64) : (low x).toNat < 0x8000000000000 := by
    rw [toNat_low]
    exact Nat.mod_lt _ (by decide)
  refine ⟨h _, h _, h _, h _, h _, ?_⟩
  rw [toNat_reduce]
  exact Nat.mod_lt _ (by decide)

/-- The reduced limbs spell the residue. -/
theorem toNat_reduce_eq_val {a : FieldElement} {v : ZMod prime} (ha : a.residue = v) :
    a.reduce.toNat = v.val := by
  rw [toNat_reduce, ← ha, ← residue_carry, residue, ZMod.val_natCast]

end CurveKeys.Edwards25519.FieldElement
