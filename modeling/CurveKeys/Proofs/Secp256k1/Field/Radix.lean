import CurveKeys.Proofs.Words

/-!
Integers spelled in digits of 26 bits, the lowest digit first. Digits may exceed 26 bits until they
are carried; once every digit but the last is within 26 bits the spelling is unique.
-/

namespace CurveKeys.Secp256k1.Radix
open Words

def value (l : List Nat) : Nat := l.foldr (fun x n => x + 0x4000000 * n) 0

@[simp] theorem value_nil : value [] = 0 := rfl

@[simp] theorem value_cons (x : Nat) (l : List Nat) :
    value (x :: l) = x + 0x4000000 * value l := rfl

/-- Every digit but the last is within 26 bits. -/
def Carried (l : List Nat) : Prop := ∀ x ∈ l.dropLast, x < 0x4000000

theorem carried_cons {x : Nat} {l : List Nat} (hl : l ≠ []) :
    Carried (x :: l) ↔ x < 0x4000000 ∧ Carried l := by
  rw [Carried, List.dropLast_cons_of_ne_nil hl, List.forall_mem_cons, Carried]

theorem eq_of_value_eq {xs ys : List Nat} (hx : Carried xs) (hy : Carried ys)
    (hl : xs.length = ys.length) (h : value xs = value ys) : xs = ys := by
  induction xs generalizing ys with
  | nil => exact (List.length_eq_zero_iff.mp hl.symm).symm
  | cons x xs ih =>
      obtain ⟨y, ys, rfl⟩ := List.exists_cons_of_length_eq_add_one hl.symm
      rw [value_cons, value_cons] at h
      simp only [List.length_cons, Nat.add_right_cancel_iff] at hl
      by_cases hn : xs = []
      · subst hn
        obtain rfl := List.length_eq_zero_iff.mp hl.symm
        simpa using h
      · have hn' : ys ≠ [] := fun e => hn (List.length_eq_zero_iff.mp (by rw [hl, e]; rfl))
        obtain ⟨hx0, hx⟩ := (carried_cons hn).mp hx
        obtain ⟨hy0, hy⟩ := (carried_cons hn').mp hy
        rw [ih hx hy hl (by omega), show x = y by omega]

theorem value_append (xs ys : List Nat) :
    value (xs ++ ys) = value xs + 0x4000000 ^ xs.length * value ys := by
  induction xs with
  | nil => simp
  | cons x xs ih =>
      rw [List.cons_append, value_cons, value_cons, ih, List.length_cons, pow_succ]
      ring

theorem value_lt {l : List Nat} (h : ∀ x ∈ l, x < 0x4000000) :
    value l < 0x4000000 ^ l.length := by
  induction l with
  | nil => simp
  | cons x l ih =>
      obtain ⟨hx, hl⟩ := List.forall_mem_cons.mp h
      have := ih hl
      rw [value_cons, List.length_cons, pow_succ]
      omega

/-- Every bit of the integer stands in one digit. -/
theorem testBit_value {l : List Nat} (h : ∀ x ∈ l, x < 0x4000000) (t : Nat) :
    (value l).testBit t = (l.getD (t / 26) 0).testBit (t % 26) := by
  induction l generalizing t with
  | nil => simp
  | cons x l ih =>
      obtain ⟨hx, hl⟩ := List.forall_mem_cons.mp h
      have hvalue : value (x :: l) = 2 ^ 26 * value l + x := Nat.add_comm _ _
      rw [hvalue, Nat.testBit_two_pow_mul_add _ hx]
      split
      · next ht => rw [Nat.div_eq_of_lt ht, Nat.mod_eq_of_lt ht, List.getD_cons_zero]
      · next ht =>
          rw [ih hl, ← List.getD_cons_succ, show (t - 26) / 26 + 1 = t / 26 by omega,
            show (t - 26) % 26 = t % 26 by omega]

/-- Carries what a limb holds above 26 bits into the limb that follows. -/
def carry : UInt32 → List UInt32 → List UInt32
  | t, [] => [t]
  | t, l :: r => (t &&& 0x3FFFFFF) :: carry (l + t >>> 26) r

theorem carry_ne_nil (t : UInt32) (l : List UInt32) : (carry t l).map UInt32.toNat ≠ [] := by
  cases l <;> simp [carry]

theorem toNat_add_carry {l : UInt32} (t : UInt32) (h : l.toNat < 0xFF000000) :
    (l + t >>> 26).toNat = l.toNat + t.toNat / 0x4000000 := by
  have ht := t.toNat_lt
  rw [toNat_add32 (by rw [toNat_high26]; omega), toNat_high26]

theorem value_carry (t : UInt32) (ls : List UInt32) (h : ∀ l ∈ ls, l.toNat < 0xFF000000) :
    value ((carry t ls).map UInt32.toNat) =
      t.toNat + 0x4000000 * value (ls.map UInt32.toNat) := by
  induction ls generalizing t with
  | nil => rfl
  | cons l r ih =>
      obtain ⟨hl, hr⟩ := List.forall_mem_cons.mp h
      rw [carry, List.map_cons, value_cons, ih _ hr, toNat_low26, toNat_add_carry t hl,
        List.map_cons, value_cons]
      omega

theorem carried_carry (t : UInt32) (ls : List UInt32) :
    Carried ((carry t ls).map UInt32.toNat) := by
  induction ls generalizing t with
  | nil => simp [carry, Carried]
  | cons l r ih =>
      rw [carry, List.map_cons, carried_cons (carry_ne_nil _ _)]
      exact ⟨by rw [toNat_low26]; omega, ih _⟩

end CurveKeys.Secp256k1.Radix
