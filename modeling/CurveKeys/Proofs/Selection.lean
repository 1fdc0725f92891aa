import CurveKeys.Proofs.CheckedWords
import CurveKeys.Select

/-!
The choice from a table of the first eight multiples by a scan over all of its entries. A digit
outside of the table's range, or an absolute value that a signed byte does not hold, has no result.
A digit between -8 and 8 always has one: the neutral value for zero, and else the entry of its
absolute value with its sign.
-/

namespace CurveKeys.Selection
open Words

/-- The absolute value and the sign of a digit between -8 and 8. -/
def absolute? (x : Int8) : Option (UInt8 × Bool) := do
  guard (-8 ≤ x ∧ x ≤ 8)
  let mask := x >>> 7
  let sum ← addSigned8? x mask
  return ((sum ^^^ mask).toUInt8, mask &&& 1 == 1)

variable {α : Type}

/-- Goes over all entries, numbered from `n`, and keeps the one with the number that is asked for. -/
def scan (number : UInt8) (t : α) (n : UInt8) : List α → α
  | [] => t
  | entry :: table => scan number (select t entry (number == n)) (n + 1) table

/-- The choice for a digit; the sequence of operations does not depend on it. -/
def choose? (neutral : α) (negate : α → α) (table : List α) (x : Int8) : Option α := do
  let (number, negative) ← absolute? x
  let t := scan number neutral 1 table
  return select t (negate t) negative

/-- What belongs to a digit: nothing to zero, the entry of a positive one, and the opposite of the
entry for a negative one. -/
inductive Chosen (neutral : α) (negate : α → α) (table : List α) : Int → α → Prop
  | neutral : Chosen neutral negate table 0 neutral
  | entry {m : Nat} {e : α} (h : table[m]? = some e) :
      Chosen neutral negate table (m + 1) e
  | opposite {m : Nat} {e : α} (h : table[m]? = some e) :
      Chosen neutral negate table (-(m + 1)) (negate e)

/-- The choice for a digit has a result, and it is what belongs to the digit. -/
structure Serves (neutral : α) (negate : α → α) (table : List α) (x : Int8) (t : α) : Prop where
  choose?_eq : choose? neutral negate table x = some t
  chosen : Chosen neutral negate table x.toInt t

/-- A table of the digits settles each of them. -/
theorem of_digit {P : Int8 → Prop} (h : ∀ i < 17, P (Int8.ofInt ((i : Nat) - 8))) {x : Int8}
    (hx : x.toInt.natAbs ≤ 8) : P x := by
  have hp := h (x.toInt + 8).toNat (by omega)
  rwa [Int.toNat_of_nonneg (by omega), Int.add_sub_cancel, Int8.ofInt_toInt] at hp

theorem absolute?_eq {x : Int8} (hx : x.toInt.natAbs ≤ 8) :
    absolute? x = some (UInt8.ofNat x.toInt.natAbs, decide (x < 0)) :=
  of_digit (P := fun x => absolute? x = some (UInt8.ofNat x.toInt.natAbs, decide (x < 0)))
    (by decide +kernel) hx

/-- Where the numbers stay within a byte, the scan comes to the entry with the number. -/
theorem scan_eq (number : UInt8) (t : α) {n : UInt8} {table : List α}
    (h : n.toNat + table.length < 256) :
    scan number t n table =
      if n.toNat ≤ number.toNat then table.getD (number.toNat - n.toNat) t else t := by
  induction table generalizing t n with
  | nil => simp [scan]
  | cons e table ih =>
      rw [List.length_cons] at h
      have hsucc : (n + 1).toNat = n.toNat + 1 := by
        rw [UInt8.toNat_add]
        exact Nat.mod_eq_of_lt (by rw [UInt8.toNat_one]; omega)
      rw [scan, ih _ (by omega), hsucc]
      rcases lt_trichotomy number.toNat n.toNat with hlt | heq | hgt
      · have hne : (number == n) = false := beq_eq_false_iff_ne.mpr fun hn => by
          rw [hn] at hlt
          omega
        rw [if_neg (by omega), if_neg (by omega), hne]
        rfl
      · have hn : number = n := UInt8.toNat_inj.mp heq
        rw [if_neg (by omega), if_pos (by omega), heq, Nat.sub_self, beq_iff_eq.mpr hn]
        rfl
      · have hne : (number == n) = false := beq_eq_false_iff_ne.mpr fun hn => by
          rw [hn] at hgt
          omega
        rw [if_pos (by omega), if_pos (by omega), hne,
          show number.toNat - n.toNat = number.toNat - (n.toNat + 1) + 1 by omega,
          List.getD_cons_succ]
        rfl

section Choice
variable {neutral : α} {negate : α → α} {table : List α}

/-- The entry of an absolute value with the sign given to it belongs to the integer. -/
theorem chosen_signed (htable : table.length = 8) {n : Int} (hn : n.natAbs ≤ 8) {entry : α}
    (hentry : entry = match n.natAbs with
      | 0 => neutral
      | m + 1 => table.getD m neutral) :
    Chosen neutral negate table n (select entry (negate entry) (n < 0)) := by
  have hread {m : Nat} (hm : m < 8) : table[m]? = some (table.getD m neutral) := by
    have hlt : m < table.length := by rwa [htable]
    rw [List.getElem?_eq_getElem hlt, List.getD_eq_getElem _ _ hlt]
  subst hentry
  match n with
  | .ofNat 0 => exact .neutral
  | .ofNat (m + 1) => exact .entry (hread hn)
  | .negSucc m =>
      have h : Chosen neutral negate table (-(m + 1)) (negate (table.getD m neutral)) :=
        .opposite (hread hn)
      rw [← Int.negSucc_eq] at h
      rw [decide_eq_true (Int.negSucc_lt_zero m)]
      exact h

/-- A digit between -8 and 8 is served by a table of eight entries: the scan comes to what reading
the entry by its number gives. -/
theorem serves_of_le (htable : table.length = 8) {x : Int8} (hx : x.toInt.natAbs ≤ 8) {entry : α}
    (hentry : entry = match x.toInt.natAbs with
      | 0 => neutral
      | m + 1 => table.getD m neutral) :
    Serves neutral negate table x (select entry (negate entry) (x < 0)) := by
  have hneg : decide (x < 0) = decide (x.toInt < 0) := by
    rw [decide_eq_decide, Int8.lt_iff_toInt_lt]
    rfl
  have hnumber : (UInt8.ofNat x.toInt.natAbs).toNat = x.toInt.natAbs :=
    UInt8.toNat_ofNat_of_lt' (lt_of_le_of_lt hx (by decide))
  have hscan : scan (UInt8.ofNat x.toInt.natAbs) neutral 1 table = entry := by
    rw [scan_eq _ _ (by rw [htable, UInt8.toNat_one]; omega), hnumber, hentry, UInt8.toNat_one]
    cases x.toInt.natAbs with
    | zero => rfl
    | succ m => rfl
  constructor
  · rw [choose?, bind_eq_of_eq_some (absolute?_eq hx), ← hscan]
    rfl
  · rw [hneg]
    exact chosen_signed htable hx hentry

end Choice

end CurveKeys.Selection
