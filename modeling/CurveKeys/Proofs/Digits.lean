import CurveKeys.Proofs.Bytes
import CurveKeys.Digits

/-!
The integers spelled by digit lists: bits and nibbles spell what their bytes spell, and recentring
keeps the integer while it moves every digit into `[-8, 8)`.
-/

namespace CurveKeys.Digits

theorem value_append (base : Int) (a b : List Int) :
    value base (a ++ b) = value base a + base ^ a.length * value base b := by
  induction a with
  | nil => simp [value]
  | cons d a ih =>
      rw [List.cons_append, value, value, ih, List.length_cons, pow_succ']
      ring

theorem value_replicate_zero (base : Int) (n : Nat) : value base (List.replicate n 0) = 0 := by
  induction n with
  | zero => rfl
  | succ n ih => rw [List.replicate_succ, value, ih, mul_zero, add_zero]

theorem toNat_bit (x i : UInt8) (hi : i.toNat < 8) :
    (x >>> i &&& 1 == 1).toNat = x.toNat / 2 ^ i.toNat % 2 := by
  have hbit : (x >>> i &&& 1).toNat = x.toNat / 2 ^ i.toNat % 2 := by
    rw [UInt8.toNat_and, UInt8.toNat_shiftRight, Nat.mod_eq_of_lt hi,
      Nat.shiftRight_eq_div_pow]
    exact Nat.and_two_pow_sub_one_eq_mod _ 1
  by_cases h : x >>> i &&& 1 = 1
  · rw [beq_iff_eq.mpr h, ← hbit, h]
    rfl
  · have hne : (x >>> i &&& 1).toNat ≠ 1 := fun e => h (UInt8.toNat_inj.mp e)
    rw [beq_eq_false_iff_ne.mpr h, ← hbit, Bool.toNat_false]
    omega

theorem value_bitsOfByte (x : UInt8) :
    value 2 ((bitsOfByte x).map fun b => (b.toNat : Int)) = x.toNat := by
  have hx := x.toNat_lt
  simp only [bitsOfByte, List.map, value, toNat_bit x 0 (by decide),
    toNat_bit x 1 (by decide), toNat_bit x 2 (by decide), toNat_bit x 3 (by decide),
    toNat_bit x 4 (by decide), toNat_bit x 5 (by decide), toNat_bit x 6 (by decide),
    toNat_bit x 7 (by decide),
    UInt8.reduceToNat]
  omega

theorem value_bits (b : Bytes) :
    value 2 ((bits b).map fun b => (b.toNat : Int)) = Bytes.toNatLE b := by
  induction b with
  | nil => rfl
  | cons x b ih =>
      rw [bits, List.flatMap_cons, List.map_append, value_append, value_bitsOfByte, Bytes.toNatLE,
        ← bits, ih, List.length_map, show (bitsOfByte x).length = 8 from rfl]
      push_cast
      ring

theorem length_bits (b : Bytes) : (bits b).length = 8 * b.length := by
  induction b with
  | nil => rfl
  | cons x b ih =>
      rw [bits, List.flatMap_cons, List.length_append, ← bits, ih, List.length_cons]
      simp only [bitsOfByte, List.map_cons, List.map_nil, List.length_cons, List.length_nil]
      ring

theorem getD_bitsOfByte (x : UInt8) {i : Nat} (hi : i < 8) :
    (bitsOfByte x).getD i false = (x >>> UInt8.ofNat i &&& 1 == 1) := by
  interval_cases i <;> rfl

/-- Bit `i` of a string is bit `i % 8` of byte `i / 8`. -/
theorem getD_bits (b : Bytes) (i : Nat) :
    (bits b).getD i false = (b.getD (i / 8) 0 >>> UInt8.ofNat (i % 8) &&& 1 == 1) := by
  induction b generalizing i with
  | nil => simp [bits]
  | cons x b ih =>
      have hlen : (bitsOfByte x).length = 8 := rfl
      rw [bits, List.flatMap_cons, ← bits]
      rcases Nat.lt_or_ge i 8 with hi | hi
      · rw [List.getD_append _ _ _ _ (by omega), getD_bitsOfByte x hi, Nat.div_eq_of_lt hi,
          Nat.mod_eq_of_lt hi, List.getD_cons_zero]
      · obtain ⟨j, rfl⟩ := Nat.exists_eq_add_of_le' hi
        rw [List.getD_append_right _ _ _ _ (by omega), hlen, Nat.add_sub_cancel, ih,
          Nat.add_mod_right, Nat.add_div_right _ (by decide), List.getD_cons_succ]

/-- A digit of base 16 that has not been recentred. -/
def Nibble (d : Int8) : Prop := 0 ≤ d.toInt ∧ d.toInt < 16

theorem toInt_toInt8 {x : UInt8} (h : x.toNat < 128) : x.toInt8.toInt = x.toNat := by
  have h2 : 2 * x.toBitVec.toNat < 2 ^ 8 := by
    change 2 * x.toNat < 256
    omega
  exact BitVec.toInt_eq_toNat_of_lt h2

theorem toInt_low_nibble (x : UInt8) : (x &&& 15).toInt8.toInt = (x.toNat % 16 : Nat) := by
  have h : (x &&& 15).toNat = x.toNat % 16 := by
    rw [UInt8.toNat_and]
    exact Nat.and_two_pow_sub_one_eq_mod x.toNat 4
  rw [toInt_toInt8 (by omega), h]

theorem toInt_high_nibble (x : UInt8) : (x >>> 4).toInt8.toInt = (x.toNat / 16 : Nat) := by
  have hx := x.toNat_lt
  have h : (x >>> 4).toNat = x.toNat / 16 := by
    rw [UInt8.toNat_shiftRight]
    exact Nat.shiftRight_eq_div_pow x.toNat 4
  rw [toInt_toInt8 (by omega), h]

theorem nibble_of_mem_nibblesOfByte {x : UInt8} {d : Int8} (h : d ∈ nibblesOfByte x) :
    Nibble d := by
  have hx := x.toNat_lt
  rw [nibblesOfByte, List.mem_cons, List.mem_singleton] at h
  rcases h with rfl | rfl
  · rw [Nibble, toInt_low_nibble]
    omega
  · rw [Nibble, toInt_high_nibble]
    omega

theorem value_nibblesOfByte (x : UInt8) :
    value 16 ((nibblesOfByte x).map Int8.toInt) = x.toNat := by
  simp only [nibblesOfByte, List.map, value, toInt_low_nibble, toInt_high_nibble]
  omega

theorem nibble_of_mem_nibbles {b : Bytes} {d : Int8} (h : d ∈ nibbles b) : Nibble d := by
  obtain ⟨x, -, hd⟩ := List.mem_flatMap.mp h
  exact nibble_of_mem_nibblesOfByte hd

theorem length_nibbles (b : Bytes) : (nibbles b).length = 2 * b.length := by
  induction b with
  | nil => rfl
  | cons x b ih =>
      rw [nibbles, List.flatMap_cons, List.length_append, ← nibbles, ih, List.length_cons]
      simp only [nibblesOfByte, List.length_cons, List.length_nil]
      ring

theorem value_nibbles (b : Bytes) : value 16 ((nibbles b).map Int8.toInt) = Bytes.toNatLE b := by
  induction b with
  | nil => rfl
  | cons x b ih =>
      rw [nibbles, List.flatMap_cons, List.map_append, value_append, value_nibblesOfByte,
        Bytes.toNatLE, ← nibbles, ih, List.length_map, show (nibblesOfByte x).length = 2 from rfl]
      push_cast
      ring

/-- A carry between base 16 digits. -/
def Carry (c : Int8) : Prop := c.toInt = 0 ∨ c.toInt = 1

/-- A recentred digit. -/
def Centred (d : Int8) : Prop := -8 ≤ d.toInt ∧ d.toInt < 8

instance (c : Int8) : Decidable (Carry c) :=
  inferInstanceAs (Decidable (c.toInt = 0 ∨ c.toInt = 1))

instance (d : Int8) : Decidable (Centred d) :=
  inferInstanceAs (Decidable (-8 ≤ d.toInt ∧ d.toInt < 8))

/-- A table of the nibbles and carries settles each of them. -/
theorem of_nibble_of_carry {P : Int8 → Int8 → Prop}
    (h : ∀ i < 16, ∀ j < 2, P (Int8.ofInt (i : Nat)) (Int8.ofInt (j : Nat))) {d c : Int8}
    (hd : Nibble d) (hc : Carry c) : P d c := by
  obtain ⟨hd0, hd1⟩ := hd
  have hc0 : 0 ≤ c.toInt ∧ c.toInt < 2 := by rcases hc with h | h <;> omega
  have hp := h d.toInt.toNat (by omega) c.toInt.toNat (by omega)
  rwa [Int.toNat_of_nonneg hd0, Int.toNat_of_nonneg hc0.1, Int8.ofInt_toInt, Int8.ofInt_toInt] at hp

theorem recentre_step {c d : Int8} (hc : Carry c) (hd : Nibble d) :
    Carry ((d + c + 8) >>> 4) ∧ Centred (d + c - (d + c + 8) >>> 4 <<< 4) ∧
      (d + c - (d + c + 8) >>> 4 <<< 4).toInt + (16 : Int) * ((d + c + 8) >>> 4).toInt =
        d.toInt + c.toInt := by
  exact of_nibble_of_carry (P := fun d c => Carry ((d + c + 8) >>> 4) ∧
    Centred (d + c - (d + c + 8) >>> 4 <<< 4) ∧
    (d + c - (d + c + 8) >>> 4 <<< 4).toInt + (16 : Int) * ((d + c + 8) >>> 4).toInt =
      d.toInt + c.toInt) (by decide +kernel) hd hc

/-- The digits come out centred, and with the last carry they spell what went in. -/
theorem recentre_spec {c : Int8} {l : List Int8} (hc : Carry c) (hl : ∀ d ∈ l, Nibble d) :
    (∀ d ∈ (recentre c l).1, Centred d) ∧ Carry (recentre c l).2 ∧
      value 16 ((recentre c l).1.map Int8.toInt) + (16 : Int) ^ l.length * (recentre c l).2.toInt =
        value 16 (l.map Int8.toInt) + c.toInt := by
  induction l generalizing c with
  | nil =>
      refine ⟨List.forall_mem_nil _, hc, ?_⟩
      simp [recentre, value]
  | cons d l ih =>
      obtain ⟨hd, hl⟩ := List.forall_mem_cons.mp hl
      obtain ⟨hup, hcentred, hstep⟩ := recentre_step hc hd
      obtain ⟨hdigits, hout, hvalue⟩ := ih hup hl
      refine ⟨List.forall_mem_cons.mpr ⟨hcentred, hdigits⟩, hout, ?_⟩
      simp only [recentre, List.map_cons, value, List.length_cons, pow_succ]
      linarith

theorem length_recentre (c : Int8) (l : List Int8) : (recentre c l).1.length = l.length := by
  induction l generalizing c with
  | nil => rfl
  | cons d l ih => simp only [recentre, List.length_cons, ih]

end CurveKeys.Digits
