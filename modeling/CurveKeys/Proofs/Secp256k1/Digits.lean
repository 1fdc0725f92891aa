import CurveKeys.Proofs.Digits
import CurveKeys.Proofs.Secp256k1.Scalar.Sum
import CurveKeys.Secp256k1.Multiple

/-!
Both recodings spell the scalar they were made from, and padding the shorter of two digit lists
changes neither integer.
-/

namespace CurveKeys.Secp256k1

namespace Naf

/-- The digit and the carry of one step. -/
def digit (carry b next : Bool) : SignedBit × Bool :=
  match carry, b with
  | true, true => (.zero, true)
  | false, false => (.zero, false)
  | _, _ => if next then (.minus, true) else (.plus, false)

/-- A one that the next bit turns into -1 carries, so the step keeps the integer. -/
theorem digit_spec (carry b next : Bool) :
    (digit carry b next).1.toInt + 2 * ((digit carry b next).2.toNat : Int) =
      b.toNat + carry.toNat := by
  cases carry <;> cases b <;> cases next <;> rfl

theorem recode_cons (carry b : Bool) (l : List Bool) :
    recode carry (b :: l) =
      ((digit carry b (l.headD false)).1 :: (recode (digit carry b (l.headD false)).2 l).1,
        (recode (digit carry b (l.headD false)).2 l).2) := by
  cases carry <;> cases b <;> rfl

theorem value_recode (carry : Bool) (l : List Bool) :
    Digits.value 2 ((recode carry l).1.map SignedBit.toInt) +
        (2 : Int) ^ l.length * (recode carry l).2.toNat =
      Digits.value 2 (l.map fun b => (b.toNat : Int)) + carry.toNat := by
  induction l generalizing carry with
  | nil => simp [recode, Digits.value]
  | cons b l ih =>
      have hstep := digit_spec carry b (l.headD false)
      have hrest := ih (digit carry b (l.headD false)).2
      rw [recode_cons, List.map_cons, List.map_cons, Digits.value, Digits.value, List.length_cons,
        pow_succ]
      linarith

theorem length_recode (carry : Bool) (l : List Bool) : (recode carry l).1.length = l.length := by
  induction l generalizing carry with
  | nil => rfl
  | cons b l ih => rw [recode_cons, List.length_cons, List.length_cons, ih]

/-- The non-adjacent form spells the integer of the bytes. -/
theorem value_ofBytes (k : Bytes) :
    Digits.value 2 ((ofBytes k).map SignedBit.toInt) = Bytes.toNatBE k := by
  have hrecode := value_recode false (Digits.bits k.reverse)
  have hlen := length_recode false (Digits.bits k.reverse)
  rw [Digits.value_bits, Bytes.toNatLE_reverse, Bool.toNat_false, Nat.cast_zero, add_zero]
    at hrecode
  rw [← hrecode, ofBytes]
  cases hc : (recode false (Digits.bits k.reverse)).2 with
  | false =>
      rw [Bool.toNat_false, Nat.cast_zero, mul_zero, add_zero]
      simp only [hc, Bool.false_eq_true, if_false]
  | true =>
      simp only [hc, if_true, List.map_append, Digits.value_append, List.length_map, hlen]
      rfl

end Naf

theorem toNatBE_high_bytes {k : Scalar} (h : k.toNat < 2 ^ 128) :
    Bytes.toNatBE (k.toBytes.toList.take 16) = 0 := by
  apply Bytes.toNatBE_take_eq_zero
  rw [Scalar.toNatBE_toBytes, k.toBytes.length_toList]
  exact lt_of_lt_of_eq h (by norm_num)

/-- A scalar below `2 ^ 128` is spelled by its last sixteen bytes. -/
theorem toNatBE_low_bytes {k : Scalar} (h : k.toNat < 2 ^ 128) :
    Bytes.toNatBE (k.toBytes.toList.drop 16) = k.toNat := by
  have hk := Scalar.toNatBE_toBytes k
  rw [← Bytes.toNatBE_take_add_drop 16, toNatBE_high_bytes h, mul_zero, zero_add] at hk
  exact hk

/-- A digit that the table of the first eight multiples serves. -/
def TableDigit (d : Int8) : Prop := -8 ≤ d.toInt ∧ d.toInt ≤ 8

theorem signedRadix16Half_spec {k : Scalar} (h : k.toNat < 2 ^ 128) :
    (∀ d ∈ signedRadix16Half k, TableDigit d) ∧
      Digits.value 16 ((signedRadix16Half k).map Int8.toInt) = k.toNat := by
  obtain ⟨hdigits, hcarry, hvalue⟩ :=
    Digits.recentre_spec (c := 0) (l := Digits.nibbles (k.toBytes.toList.drop 16).reverse)
      (Or.inl rfl) fun d hd => Digits.nibble_of_mem_nibbles hd
  have hlen := Digits.length_recentre 0 (Digits.nibbles (k.toBytes.toList.drop 16).reverse)
  rw [Digits.value_nibbles, Bytes.toNatLE_reverse, toNatBE_low_bytes h, Int8.toInt_zero,
    add_zero] at hvalue
  constructor
  · intro d hd
    rcases List.mem_append.mp hd with hd | hd
    · obtain ⟨hlow, hhigh⟩ := hdigits d hd
      exact ⟨hlow, by omega⟩
    · rw [List.mem_singleton.mp hd]
      rcases hcarry with hc | hc
      · exact ⟨by omega, by omega⟩
      · exact ⟨by omega, by omega⟩
  · rw [← hvalue, signedRadix16Half, List.map_append, Digits.value_append, List.length_map, hlen]
    simp [Digits.value]

theorem length_signedRadix16Half (k : Scalar) : (signedRadix16Half k).length = 33 := by
  rw [signedRadix16Half, List.length_append, Digits.length_recentre, Digits.length_nibbles,
    List.length_reverse, List.length_drop, k.toBytes.length_toList]
  rfl

namespace JacobianPoint

/-- The integers of the paired digits. -/
def pairValues (l : List (SignedBit × SignedBit)) : Int × Int :=
  (Digits.value 2 (l.map fun d => d.1.toInt), Digits.value 2 (l.map fun d => d.2.toInt))

theorem value_map_zero {α : Type} (l : List α) :
    Digits.value 2 (l.map fun _ => SignedBit.zero.toInt) = 0 := by
  rw [List.map_const', SignedBit.toInt, Digits.value_replicate_zero]

theorem pairValues_pairDigits (xs ys : List SignedBit) :
    pairValues (pairDigits xs ys) =
      (Digits.value 2 (xs.map SignedBit.toInt), Digits.value 2 (ys.map SignedBit.toInt)) := by
  induction xs generalizing ys with
  | nil =>
      simp only [pairValues, pairDigits, List.map_map, Function.comp_def, value_map_zero]
      rfl
  | cons x xs ih =>
      cases ys with
      | nil =>
          simp only [pairValues, pairDigits, List.map_map, Function.comp_def, value_map_zero]
          rfl
      | cons y ys =>
          have h := ih ys
          simp only [pairValues, Prod.mk.injEq] at h
          simp only [pairValues, pairDigits, List.map_cons, Digits.value, h]

end JacobianPoint

end CurveKeys.Secp256k1
