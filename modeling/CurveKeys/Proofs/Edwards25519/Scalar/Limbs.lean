import CurveKeys.Proofs.Bytes
import CurveKeys.Proofs.Words
import CurveKeys.Proofs.Edwards25519.Scalar.Interval

/-!
Limbs from bytes and back. Loading splits an integer into its digits of 21 bits, the last of which
takes what is left; packing joins digits again, of which the last may have a bit more.
-/

namespace CurveKeys.Edwards25519.Limbs
open Words

theorem toNat_word (b : Bytes) (i : Nat) :
    (word b i).toNat = Bytes.toNatLE b / 256 ^ i % 256 ^ 4 := by
  have h0 : (b.getD i 0).toUInt64.toNat < 2 ^ 8 := (b.getD i 0).toNat_lt
  obtain ⟨e1, h1⟩ := toNat_or_byte (b.getD (i + 1) 0) (k := 8) 8 rfl h0
  obtain ⟨e2, h2⟩ := toNat_or_byte (b.getD (i + 2) 0) (k := 16) 16 rfl h1
  obtain ⟨e3, -⟩ := toNat_or_byte (b.getD (i + 3) 0) (k := 24) 24 rfl h2
  rw [← Bytes.toNatLE_drop, ← Bytes.toNatLE_take]
  simp only [Bytes.toNatLE_slice_succ, List.take_zero, Bytes.toNatLE]
  refine e3.trans ?_
  rw [e2, e1]
  simp only [UInt8.toNat_toUInt64, Nat.add_assoc i, Nat.reduceAdd]
  ring

/-- The bits of a string from the beginning of limb `i` on, as far as one word has them. -/
def part (b : Bytes) (i : Nat) : UInt64 := word b (21 * i / 8) >>> UInt64.ofNat (21 * i % 8)

theorem toNat_part (b : Bytes) (i : Nat) :
    (part b i).toNat = Bytes.toNatLE b / 2 ^ (21 * i) % 2 ^ (32 - 21 * i % 8) := by
  have hs : 21 * i % 8 < 8 := Nat.mod_lt _ (by decide)
  have hk : (UInt64.ofNat (21 * i % 8)).toNat = 21 * i % 8 := by
    rw [UInt64.toNat_ofNat']
    exact Nat.mod_eq_of_lt (by omega)
  have hsplit : 256 ^ 4 = 2 ^ (21 * i % 8) * 2 ^ (32 - 21 * i % 8) := by
    rw [← pow_add, Nat.add_sub_cancel' (by omega)]
    rfl
  have hpow : 256 ^ (21 * i / 8) * 2 ^ (21 * i % 8) = 2 ^ (21 * i) := by
    rw [show (256 : Nat) = 2 ^ 8 from rfl, ← pow_mul, ← pow_add, Nat.div_add_mod]
  rw [part, toNat_shiftRight64 _ _ hk (by omega), toNat_word, hsplit, Nat.mod_mul_right_div_self,
    Nat.div_div_eq_div_mul, hpow]

theorem toInt_toInt64 {x : UInt64} (h : x.toNat < 2 ^ 63) : x.toInt64.toInt = x.toNat := by
  have h2 : 2 * x.toBitVec.toNat < 2 ^ 64 := by
    change 2 * x.toNat < 2 ^ 64
    omega
  exact BitVec.toInt_eq_toNat_of_lt h2

/-- A limb that is not the last one. -/
theorem toInt_low_part (b : Bytes) (i : Nat) :
    (part b i &&& 0x1FFFFF).toInt64.toInt = (Bytes.toNatLE b / 2 ^ (21 * i) % 2 ^ 21 : Nat) := by
  have hs : 21 * i % 8 < 8 := Nat.mod_lt _ (by decide)
  have h : (part b i &&& 0x1FFFFF).toNat = Bytes.toNatLE b / 2 ^ (21 * i) % 2 ^ 21 := by
    rw [toNat_and_ones64 _ 21 rfl, toNat_part,
      Nat.mod_mod_of_dvd _ (pow_dvd_pow 2 (by omega))]
  have hlt : Bytes.toNatLE b / 2 ^ (21 * i) % 2 ^ 21 < 2 ^ 21 := Nat.mod_lt _ (by decide)
  rw [toInt_toInt64 (by omega), h]

theorem toInt_part (b : Bytes) (i : Nat) :
    (part b i).toInt64.toInt =
      (Bytes.toNatLE b / 2 ^ (21 * i) % 2 ^ (32 - 21 * i % 8) : Nat) := by
  have hlt := (part b i).toNat_lt
  have h32 : (part b i).toNat < 2 ^ 32 := by
    rw [toNat_part]
    exact lt_of_lt_of_le (Nat.mod_lt _ (by positivity))
      (Nat.pow_le_pow_right (by decide) (by omega))
  rw [toInt_toInt64 (by omega), toNat_part]

theorem load_succ (n : Nat) (b : Bytes) :
    load (n + 1) b = (List.range n).map (fun i => (part b i &&& 0x1FFFFF).toInt64) ++
      [(part b n).toInt64] := by
  rw [load, List.range_succ, List.map_append, List.map_singleton]
  congr 1
  · apply List.map_congr_left
    intro i hi
    have hne : i + 1 ≠ n + 1 := by
      have := List.mem_range.mp hi
      omega
    simp only [if_neg hne]
    rfl
  · simp only [if_true]
    rfl

theorem toInt_low_parts (b : Bytes) (n : Nat) :
    toInt ((List.range n).map fun i => (part b i &&& 0x1FFFFF).toInt64) =
      (Bytes.toNatLE b % 2 ^ (21 * n) : Nat) := by
  induction n with
  | zero => simp [toInt, Nat.mod_one]
  | succ n ih =>
      rw [List.range_succ, List.map_append, toInt_append, ih, List.map_singleton, toInt, toInt,
        toInt_low_part, List.length_map, List.length_range, Nat.mul_succ, pow_add,
        Nat.mod_mul]
      push_cast
      ring

/-- Loading keeps the integer when the last limb has room for its end. -/
theorem toInt_load (n : Nat) (b : Bytes)
    (h : Bytes.toNatLE b < 2 ^ (21 * n + (32 - 21 * n % 8))) :
    toInt (load (n + 1) b) = Bytes.toNatLE b := by
  have hdiv : Bytes.toNatLE b / 2 ^ (21 * n) < 2 ^ (32 - 21 * n % 8) := by
    rw [Nat.div_lt_iff_lt_mul (by positivity), ← pow_add, add_comm]
    exact h
  rw [load_succ, toInt_append, toInt_low_parts, List.length_map, List.length_range, toInt, toInt,
    toInt_part, Nat.mod_eq_of_lt hdiv]
  exact_mod_cast Nat.mod_add_div _ _

/-- Intervals for `n` limbs and a last one with `k` bits. -/
def digits (n k : Nat) : Box := List.replicate n ⟨0, 2 ^ 21 - 1⟩ ++ [⟨0, 2 ^ k - 1⟩]

theorem within_load (n : Nat) (b : Bytes) :
    Within (digits n (32 - 21 * n % 8)) (load (n + 1) b) := by
  rw [load_succ, digits]
  apply within_append
  · induction n with
    | zero => exact .nil
    | succ n ih =>
        rw [List.replicate_succ', List.range_succ, List.map_append]
        refine within_append ih (.cons ?_ .nil)
        have hlt : Bytes.toNatLE b / 2 ^ (21 * n) % 2 ^ 21 < 2 ^ 21 := Nat.mod_lt _ (by decide)
        rw [Interval.Contains, toInt_low_part]
        exact ⟨Int.natCast_nonneg _, Int.le_sub_one_of_lt (by exact_mod_cast hlt)⟩
  · refine .cons ?_ .nil
    have hlt : Bytes.toNatLE b / 2 ^ (21 * n) % 2 ^ (32 - 21 * n % 8) < 2 ^ (32 - 21 * n % 8) :=
      Nat.mod_lt _ (by positivity)
    rw [Interval.Contains, toInt_part]
    exact ⟨Int.natCast_nonneg _, Int.le_sub_one_of_lt (by exact_mod_cast hlt)⟩

theorem emit_spec (n : Nat) (acc : UInt64) (hn : n ≤ 7) :
    Bytes.toNatLE (emit n acc).1 = acc.toNat % 256 ^ n ∧
      (emit n acc).2.toNat = acc.toNat / 256 ^ n ∧ (emit n acc).1.length = n := by
  induction n generalizing acc with
  | zero => simp [emit, Bytes.toNatLE, Nat.mod_one]
  | succ n ih =>
      obtain ⟨hrest, hlast, hlen⟩ := ih (acc >>> 8) (by omega)
      have hshift : (acc >>> 8).toNat = acc.toNat / 256 := toNat_shiftRight64 acc 8 rfl (by decide)
      rw [hshift] at hrest hlast
      refine ⟨?_, ?_, ?_⟩
      · simp only [emit, Bytes.toNatLE]
        rw [hrest, UInt64.toNat_toUInt8, pow_succ' 256 n]
        exact Nat.mod_mul.symm
      · simp only [emit]
        rw [hlast, Nat.div_div_eq_div_mul, pow_succ']
      · simp only [emit, List.length_cons]
        rw [hlen]

/-- Digits of 21 bits, of which the last one may be `2 ^ 21`. -/
inductive Packable : List Int64 → Prop where
  | last {x : Int64} (h0 : 0 ≤ x.toInt) (h1 : x.toInt ≤ 2 ^ 21) : Packable [x]
  | cons {x y : Int64} {r : List Int64} (h0 : 0 ≤ x.toInt) (h1 : x.toInt < 2 ^ 21)
      (hr : Packable (y :: r)) : Packable (x :: y :: r)

theorem toNat_toUInt64 {x : Int64} (h : 0 ≤ x.toInt) : (x.toUInt64.toNat : Int) = x.toInt := by
  have hcond := BitVec.toInt_eq_toNat_cond x.toBitVec
  have hx : x.toInt = x.toBitVec.toInt := rfl
  have hn : x.toUInt64.toNat = x.toBitVec.toNat := rfl
  have hlt := x.toUInt64.toNat_lt
  split at hcond <;> omega

/-- One digit on top of the pending bits. -/
theorem toNat_join {acc : UInt64} {x : Int64} {pending : Nat} (hp : pending < 8)
    (hacc : acc.toNat < 2 ^ pending) (h0 : 0 ≤ x.toInt) (h1 : x.toInt ≤ 2 ^ 21) :
    ((acc ||| x.toUInt64 <<< UInt64.ofNat pending).toNat : Int) =
      acc.toNat + 2 ^ pending * x.toInt := by
  have hx := toNat_toUInt64 h0
  have hk : (UInt64.ofNat pending).toNat = pending := by
    rw [UInt64.toNat_ofNat']
    exact Nat.mod_eq_of_lt (by omega)
  have hle : 2 ^ pending * x.toUInt64.toNat ≤ 2 ^ 7 * 2 ^ 21 :=
    Nat.mul_le_mul (Nat.pow_le_pow_right (by decide) (by omega)) (by omega)
  rw [toNat_or_shiftLeft64 pending hk (by omega) hacc (by omega), ← hx]
  push_cast
  rfl

theorem pack_cons (acc : UInt64) (pending : Nat) (x : Int64) (r : List Int64) :
    pack acc pending (x :: r) =
      (emit ((pending + 21) / 8) (acc ||| x.toUInt64 <<< UInt64.ofNat pending)).1 ++
        pack (emit ((pending + 21) / 8) (acc ||| x.toUInt64 <<< UInt64.ofNat pending)).2
          ((pending + 21) % 8) r := rfl

theorem length_pack (acc : UInt64) (pending : Nat) (hp : pending < 8) (s : List Int64) :
    (pack acc pending s).length = (pending + 21 * s.length) / 8 + 1 := by
  induction s generalizing acc pending with
  | nil => rw [pack, List.length_singleton, List.length_nil]; omega
  | cons x r ih =>
      rw [pack_cons, List.length_append, (emit_spec _ _ (by omega)).2.2,
        ih _ _ (Nat.mod_lt _ (by decide)), List.length_cons]
      omega

/-- What is emitted and what is left of the pending bits and one digit. -/
theorem emit_join {acc : UInt64} {x : Int64} {pending : Nat} (hp : pending < 8)
    (hacc : acc.toNat < 2 ^ pending) (h0 : 0 ≤ x.toInt) (h1 : x.toInt ≤ 2 ^ 21) :
    let e := emit ((pending + 21) / 8) (acc ||| x.toUInt64 <<< UInt64.ofNat pending)
    (Bytes.toNatLE e.1 : Int) + 256 ^ ((pending + 21) / 8) * e.2.toNat =
        acc.toNat + 2 ^ pending * x.toInt ∧ e.1.length = (pending + 21) / 8 := by
  intro e
  obtain ⟨hfirst, hlast, hlen⟩ := emit_spec ((pending + 21) / 8)
    (acc ||| x.toUInt64 <<< UInt64.ofNat pending) (by omega)
  refine ⟨?_, hlen⟩
  rw [← toNat_join hp hacc h0 h1, hfirst, hlast]
  exact_mod_cast Nat.mod_add_div _ _

/-- Whole bytes and the bits that are left make all bits. -/
theorem bytes_mul_bits (k : Nat) : (256 : Int) ^ (k / 8) * 2 ^ (k % 8) = 2 ^ k := by
  rw [show (256 : Int) = 2 ^ 8 from rfl, ← pow_mul, ← pow_add, Nat.div_add_mod]

/-- How much is left of the pending bits and a digit below `bound`. -/
theorem left_lt {first pending : Nat} {left acc x bound : Int} (hacc : acc < 2 ^ pending)
    (hx : x ≤ bound - 1)
    (h : first + 256 ^ ((pending + 21) / 8) * left = acc + 2 ^ pending * x) (c : Int)
    (hc : bound ≤ 2 ^ 21 * c) : left < 2 ^ ((pending + 21) % 8) * c := by
  have hbits := bytes_mul_bits (pending + 21)
  have hpos : (0 : Int) < 2 ^ pending := by positivity
  have hxc : 2 ^ pending * x ≤ 2 ^ pending * (2 ^ 21 * c - 1) :=
    mul_le_mul_of_nonneg_left (by omega) hpos.le
  refine lt_of_mul_lt_mul_left ?_ (show (0 : Int) ≤ 256 ^ ((pending + 21) / 8) by positivity)
  calc 256 ^ ((pending + 21) / 8) * left ≤ acc + 2 ^ pending * x := by
        linarith [Int.natCast_nonneg first]
    _ < 2 ^ pending + 2 ^ pending * (2 ^ 21 * c - 1) := by linarith
    _ = 256 ^ ((pending + 21) / 8) * (2 ^ ((pending + 21) % 8) * c) := by
        rw [← mul_assoc, hbits, pow_add]
        ring

/-- Packing spells the pending bits and the digits on top of them. -/
theorem toNatLE_pack {s : List Int64} (hs : Packable s) {acc : UInt64} {pending : Nat}
    (hp : pending < 8) (hacc : acc.toNat < 2 ^ pending) :
    (Bytes.toNatLE (pack acc pending s) : Int) = acc.toNat + 2 ^ pending * toInt s := by
  induction hs generalizing acc pending with
  | @last x h0 h1 =>
      obtain ⟨hjoin, hlen⟩ := emit_join hp hacc h0 h1
      rw [pack_cons, pack, Bytes.toNatLE_append, hlen, Bytes.toNatLE, Bytes.toNatLE]
      generalize emit _ _ = e at hjoin ⊢
      have hx : x.toInt ≤ 2 ^ 21 + 1 - 1 := by omega
      have hleft := left_lt (by exact_mod_cast hacc) hx hjoin 2 (by decide)
      have hbits : (2 : Int) ^ ((pending + 21) % 8) ≤ 2 ^ 7 :=
        pow_le_pow_right₀ (by decide) (by omega)
      rw [UInt64.toNat_toUInt8, Nat.mod_eq_of_lt (by omega), toInt, toInt]
      push_cast
      linarith
  | @cons x y r h0 h1 hr ih =>
      obtain ⟨hjoin, hlen⟩ := emit_join hp hacc h0 h1.le
      rw [pack_cons, Bytes.toNatLE_append, hlen]
      generalize emit _ _ = e at hjoin ⊢
      have hleft := left_lt (by exact_mod_cast hacc) (Int.le_sub_one_of_lt h1) hjoin 1 (by decide)
      rw [mul_one] at hleft
      have hnext : e.2.toNat < 2 ^ ((pending + 21) % 8) := by exact_mod_cast hleft
      have hrest := ih (Nat.mod_lt _ (by decide)) hnext
      have hbits := bytes_mul_bits (pending + 21)
      have hcons : toInt (x :: y :: r) = x.toInt + 2 ^ 21 * toInt (y :: r) := rfl
      rw [pow_add] at hbits
      push_cast
      rw [hrest, hcons]
      linear_combination hjoin + toInt (y :: r) * hbits

end CurveKeys.Edwards25519.Limbs
