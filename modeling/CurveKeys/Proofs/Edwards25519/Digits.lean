import CurveKeys.Proofs.Digits
import CurveKeys.Edwards25519.Digits

/-!
Both recodings spell the scalar they are made from, in digits that the tables of multiples serve.
A scalar far enough below `2 ^ 256` leaves no carry behind the last digit.
-/

namespace CurveKeys.Edwards25519.Digits

theorem value_bools (l : List Bool) :
    Digits.value 2 (l.map fun b => (b.toNat : Int)) = bitsToNat l := by
  induction l with
  | nil => rfl
  | cons b l ih =>
      rw [List.map_cons, Digits.value, ih, bitsToNat]
      push_cast
      rfl

theorem bitsToNat_lt (l : List Bool) : bitsToNat l < 2 ^ l.length := by
  induction l with
  | nil => exact Nat.one_pos
  | cons b l ih =>
      have hb := b.toNat_lt
      rw [bitsToNat, List.length_cons, pow_succ]
      omega

theorem bitsToNat_take_add_drop (l : List Bool) (n : Nat) :
    bitsToNat l = bitsToNat (l.take n) + 2 ^ n * bitsToNat (l.drop n) := by
  induction l generalizing n with
  | nil => rw [List.take_nil, List.drop_nil, bitsToNat, mul_zero, add_zero]
  | cons b l ih =>
      cases n with
      | zero => rw [List.take_zero, List.drop_zero, bitsToNat, pow_zero, one_mul, zero_add]
      | succ n =>
          rw [List.take_succ_cons, List.drop_succ_cons, bitsToNat, bitsToNat, ih n, pow_succ]
          ring

theorem bitsToNat_take (l : List Bool) (n : Nat) :
    bitsToNat (l.take n) = bitsToNat l % 2 ^ n := by
  have hlt : bitsToNat (l.take n) < 2 ^ n :=
    lt_of_lt_of_le (bitsToNat_lt _) (Nat.pow_le_pow_right Nat.two_pos (List.length_take_le n l))
  rw [bitsToNat_take_add_drop l n, Nat.add_mul_mod_self_left, Nat.mod_eq_of_lt hlt]

theorem bitsToNat_drop (l : List Bool) (n : Nat) : bitsToNat (l.drop n) = bitsToNat l / 2 ^ n := by
  have hlt : bitsToNat (l.take n) < 2 ^ n := by
    rw [bitsToNat_take]
    exact Nat.mod_lt _ (Nat.two_pow_pos n)
  rw [bitsToNat_take_add_drop l n, Nat.add_mul_div_left _ _ (Nat.two_pow_pos n),
    Nat.div_eq_of_lt hlt, zero_add]

/-- A digit that a table of the odd multiples below `2 ^ (w - 1)` serves. -/
def OddDigit (w : Nat) (d : Int8) : Prop :=
  d = 0 ∨ d.toInt.natAbs % 2 = 1 ∧ d.toInt.natAbs < 2 ^ (w - 1)

/-- A digit that the table of the first eight multiples serves. -/
def SmallDigit (d : Int8) : Prop := d.toInt.natAbs ≤ 8

section NonAdjacent
variable {w : Nat}

/-- What a step takes from the bits: the carry and one window. -/
def window (w carry : Nat) (l : List Bool) : Nat := carry + bitsToNat (l.take w)

theorem window_le {carry : Nat} (hc : carry ≤ 1) (l : List Bool) : window w carry l ≤ 2 ^ w := by
  have hlt : bitsToNat l % 2 ^ w < 2 ^ w := Nat.mod_lt _ (by positivity)
  rw [window, bitsToNat_take]
  omega

theorem add_bitsToNat (w carry : Nat) (l : List Bool) :
    carry + bitsToNat l = window w carry l + 2 ^ w * bitsToNat (l.drop w) := by
  rw [window, bitsToNat_take_add_drop l w]
  exact (Nat.add_assoc _ _ _).symm

theorem window_mod_two (hw : 2 ≤ w) (carry : Nat) (b : Bool) (l : List Bool) :
    window w carry (b :: l) % 2 = (carry + b.toNat) % 2 := by
  obtain ⟨n, rfl⟩ := Nat.exists_eq_add_of_le' hw
  rw [window, List.take_succ_cons, bitsToNat]
  omega

/-- A step passes a digit zero and keeps the carry, or takes a window and skips its other bits. The
window with the digit taken off is the carry, which is one only above the middle of the range. -/
theorem recode_step (hw : 2 ≤ w) (hw8 : w ≤ 8) {carry : Nat} (hc : carry ≤ 1) (b : Bool)
    (l : List Bool) :
    (carry = b.toNat ∧ recode w carry 0 (b :: l) = 0 :: recode w carry 0 l) ∨
      ∃ d c, recode w carry 0 (b :: l) = d :: recode w c (w - 1) l ∧ c ≤ 1 ∧
        d.toInt.natAbs % 2 = 1 ∧ d.toInt.natAbs < 2 ^ (w - 1) ∧
        d.toInt + 2 ^ w * (c : Int) = window w carry (b :: l) ∧
        (c = 1 → 2 ^ (w - 1) < window w carry (b :: l)) := by
  have hb := b.toNat_lt
  have hparity := window_mod_two hw carry b l
  have hle := window_le (w := w) hc (b :: l)
  have hpow : 2 ^ w = 2 * 2 ^ (w - 1) := by
    rw [← pow_succ', Nat.sub_add_cancel (by omega)]
  have heven : 2 ^ (w - 1) % 2 = 0 := by
    rw [← Nat.sub_add_cancel (show 1 ≤ w - 1 by omega), pow_succ]
    omega
  have hsmall : 2 ^ (w - 1) ≤ 2 ^ 7 := Nat.pow_le_pow_right Nat.two_pos (by omega)
  have hcast : (2 : Int) ^ w = (2 ^ w : Nat) := by push_cast; rfl
  rw [hcast, recode, ← window, Nat.one_shiftLeft, Nat.one_shiftLeft]
  generalize window w carry (b :: l) = n at *
  by_cases hn : n % 2 = 0
  · exact .inl ⟨by omega, if_pos hn⟩
  · rw [if_neg hn]
    by_cases hlow : n < 2 ^ (w - 1)
    · have hd : (Int8.ofNat n).toInt = n := Int8.toInt_ofNat_of_lt (by omega)
      refine .inr ⟨_, 0, if_pos hlow, by omega, ?_⟩
      rw [hd]
      omega
    · have hd : (Int8.ofInt (n - (2 ^ w : Nat))).toInt = n - (2 ^ w : Nat) :=
        Int8.toInt_ofInt_of_le (by omega) (by omega)
      refine .inr ⟨_, 1, if_neg hlow, by omega, ?_⟩
      rw [hd]
      omega

theorem oddDigit_of_mem_recode (hw : 2 ≤ w) (hw8 : w ≤ 8) {carry skip : Nat} (hc : carry ≤ 1)
    {l : List Bool} {d : Int8} (hd : d ∈ recode w carry skip l) : OddDigit w d := by
  induction l generalizing carry skip with
  | nil =>
      rw [recode] at hd
      exact nomatch hd
  | cons b l ih =>
      cases skip with
      | succ skip =>
          rw [recode, List.mem_cons] at hd
          rcases hd with rfl | hd
          · exact .inl rfl
          · exact ih hc hd
      | zero =>
          rcases recode_step hw hw8 hc b l with ⟨-, heq⟩ | ⟨e, c, heq, hc', hodd, hlt, -, -⟩
          · rw [heq, List.mem_cons] at hd
            rcases hd with rfl | hd
            · exact .inl rfl
            · exact ih hc hd
          · rw [heq, List.mem_cons] at hd
            rcases hd with rfl | hd
            · exact .inr ⟨hodd, hlt⟩
            · exact ih hc' hd

theorem length_recode (carry skip : Nat) (l : List Bool) :
    (recode w carry skip l).length = l.length := by
  induction l generalizing carry skip with
  | nil => rw [recode]; rfl
  | cons b l ih =>
      cases skip with
      | succ skip => rw [recode, List.length_cons, ih, List.length_cons]
      | zero =>
          rw [recode]
          split
          · rw [List.length_cons, ih, List.length_cons]
          · split <;> rw [List.length_cons, ih, List.length_cons]

/-- Half of the range of the bits holds the carry with what is left of them after a window. -/
theorem carry_add_le {n m c W D : Nat} (h : W + 2 ^ (n + 1) * D ≤ 2 ^ n * 2 ^ m) (hc : c ≤ 1)
    (hm : 0 < m) (hpos : c = 1 → 2 ^ n < W) : 2 * (c + D) ≤ 2 ^ m := by
  obtain ⟨m, rfl⟩ := Nat.exists_eq_add_of_le' hm
  have hrange : 2 ^ n * 2 ^ (m + 1) = 2 ^ (n + 1) * 2 ^ m := by ring
  rw [hrange] at h
  have hD : c + D ≤ 2 ^ m := by
    rcases Nat.le_one_iff_eq_zero_or_eq_one.mp hc with rfl | rfl
    · rw [zero_add]
      exact Nat.le_of_mul_le_mul_left (le_trans (Nat.le_add_left _ W) h) (Nat.two_pow_pos _)
    · have hW : 0 < W := lt_of_le_of_lt (Nat.zero_le _) (hpos rfl)
      rw [Nat.add_comm]
      exact Nat.lt_of_mul_lt_mul_left (lt_of_lt_of_le (Nat.lt_add_of_pos_left hW) h)
  rw [pow_succ']
  exact Nat.mul_le_mul_left 2 hD

/-- After a window the carry and the bits that are left are again within half of their range. -/
theorem carry_add_drop_le {n carry c : Nat} {b : Bool} {l : List Bool}
    (h : 2 * (carry + bitsToNat (b :: l)) ≤ 2 ^ (l.length + 1)) (hc : c ≤ 1)
    (hhigh : c = 1 → 2 ^ n < window (n + 1) carry (b :: l)) :
    2 * (c + bitsToNat (l.drop n)) ≤ 2 ^ (l.length - n) := by
  have hsplit := add_bitsToNat (n + 1) carry (b :: l)
  rw [List.drop_succ_cons] at hsplit
  rw [hsplit, pow_succ' 2 l.length] at h
  have h := Nat.le_of_mul_le_mul_left h Nat.two_pos
  by_cases hlen : n < l.length
  · refine carry_add_le (n := n) ?_ hc (Nat.sub_pos_of_lt hlen) hhigh
    rwa [← pow_add, Nat.add_sub_cancel' hlen.le]
  · -- the window holds all bits left, and more than half of the range is excluded
    have hlen := Nat.le_of_not_lt hlen
    have hrange : 2 ^ l.length ≤ 2 ^ n := Nat.pow_le_pow_right Nat.two_pos hlen
    rw [List.drop_eq_nil_of_le hlen, bitsToNat, Nat.mul_zero] at h
    rw [List.drop_eq_nil_of_le hlen, bitsToNat, Nat.sub_eq_zero_of_le hlen]
    have hzero : c ≠ 1 := fun hone => by
      have := hhigh hone
      omega
    omega

/-- Where the carry and the bits not yet taken come to at most half of the range of those bits, the
digits spell them in full. -/
theorem value_recode (hw : 2 ≤ w) (hw8 : w ≤ 8) {carry skip : Nat} (hc : carry ≤ 1)
    {l : List Bool} (h : 2 * (carry + bitsToNat (l.drop skip)) ≤ 2 ^ (l.length - skip)) :
    Digits.value 2 ((recode w carry skip l).map Int8.toInt) =
      2 ^ skip * ((carry : Int) + bitsToNat (l.drop skip)) := by
  induction l generalizing carry skip with
  | nil =>
      rw [List.drop_nil, bitsToNat, List.length_nil, Nat.zero_sub] at h
      obtain rfl : carry = 0 := by omega
      rw [recode, List.drop_nil, bitsToNat]
      simp [Digits.value]
  | cons b l ih =>
      cases skip with
      | succ skip =>
          rw [List.drop_succ_cons, List.length_cons, Nat.add_sub_add_right] at h
          rw [recode, List.map_cons, Digits.value, ih hc h, List.drop_succ_cons, pow_succ,
            Int8.toInt_zero]
          ring
      | zero =>
          rw [List.drop_zero, Nat.sub_zero, List.length_cons] at h
          rw [List.drop_zero, pow_zero, one_mul]
          rcases recode_step hw hw8 hc b l with ⟨rfl, heq⟩ | ⟨d, c, heq, hc', -, -, hsum, hhigh⟩
          · rw [bitsToNat, pow_succ] at h
            have hhalf : 2 * (b.toNat + bitsToNat (l.drop 0)) ≤ 2 ^ (l.length - 0) := by
              rw [List.drop_zero, Nat.sub_zero]
              omega
            have hrest := ih hc hhalf
            rw [List.drop_zero, pow_zero, one_mul] at hrest
            rw [heq, List.map_cons, Digits.value, hrest, bitsToNat, Int8.toInt_zero]
            push_cast
            ring
          · obtain ⟨n, rfl⟩ := Nat.exists_eq_add_of_le' (show 1 ≤ w by omega)
            rw [Nat.add_sub_cancel] at heq hhigh
            have hsplit : (carry : Int) + bitsToNat (b :: l) =
                window (n + 1) carry (b :: l) + 2 ^ (n + 1) * bitsToNat (l.drop n) := by
              exact_mod_cast add_bitsToNat (n + 1) carry (b :: l)
            rw [heq, List.map_cons, Digits.value, ih hc' (carry_add_drop_le h hc' hhigh), hsplit,
              ← hsum]
            ring

theorem oddDigit_of_mem_nonAdjacent (hw : 2 ≤ w) (hw8 : w ≤ 8) {s : Scalar} {d : Int8}
    (hd : d ∈ nonAdjacent w s) : OddDigit w d :=
  oddDigit_of_mem_recode hw hw8 (Nat.zero_le 1) hd

theorem length_nonAdjacent (w : Nat) (s : Scalar) : (nonAdjacent w s).length = 256 := by
  rw [nonAdjacent, length_recode, Digits.length_bits, s.bytes.length_toList]

theorem bitsToNat_bits (s : Scalar) : bitsToNat (Digits.bits s.bytes.toList) = s.toNat := by
  have h := Digits.value_bits s.bytes.toList
  rw [value_bools] at h
  exact_mod_cast h

/-- The digits spell every scalar up to half of the range of its bytes. -/
theorem value_nonAdjacent (hw : 2 ≤ w) (hw8 : w ≤ 8) {s : Scalar} (hs : s.toNat ≤ 2 ^ 255) :
    Digits.value 2 ((nonAdjacent w s).map Int8.toInt) = s.toNat := by
  have hbits := bitsToNat_bits s
  have hrange : 2 * (0 + bitsToNat ((Digits.bits s.bytes.toList).drop 0)) ≤
      2 ^ ((Digits.bits s.bytes.toList).length - 0) := by
    rw [List.drop_zero, hbits, Nat.zero_add, Digits.length_bits, s.bytes.length_toList]
    omega
  rw [nonAdjacent, value_recode hw hw8 (Nat.zero_le 1) hrange, List.drop_zero, hbits]
  simp

end NonAdjacent

section SignedRadix16

theorem value_nonneg {l : List Int8} (hl : ∀ d ∈ l, Digits.Nibble d) :
    0 ≤ Digits.value 16 (l.map Int8.toInt) := by
  induction l with
  | nil => exact le_refl 0
  | cons d l ih =>
      obtain ⟨hd, hl⟩ := List.forall_mem_cons.mp hl
      have hrest := ih hl
      have hd0 : 0 ≤ d.toInt := hd.1
      rw [List.map_cons, Digits.value]
      omega

/-- The last base 16 digit of an integer below `2 ^ 255` is at most 7. -/
theorem nibbles_split {b : Bytes} (hlen : b.length = 32) (hb : Bytes.toNatLE b < 2 ^ 255) :
    ∃ low top, Digits.nibbles b = low ++ [top] ∧ low.length = 63 ∧ (∀ d ∈ low, Digits.Nibble d) ∧
      0 ≤ top.toInt ∧ top.toInt ≤ 7 := by
  have hvalue := Digits.value_nibbles b
  have hnibble (d : Int8) (hd : d ∈ Digits.nibbles b) : Digits.Nibble d :=
    Digits.nibble_of_mem_nibbles hd
  have hdigits := Digits.length_nibbles b
  generalize Digits.nibbles b = digits at *
  have hne : digits ≠ [] := by
    rintro rfl
    rw [List.length_nil] at hdigits
    omega
  obtain ⟨low, top, rfl⟩ := (List.eq_nil_or_concat' digits).resolve_left hne
  have hlow (d : Int8) (hd : d ∈ low) := hnibble d (List.mem_append_left _ hd)
  obtain ⟨htop, -⟩ := hnibble top (List.mem_append_right _ (List.mem_singleton_self top))
  have hlength : low.length = 63 := by
    rw [List.length_append, List.length_singleton] at hdigits
    omega
  rw [List.map_append, Digits.value_append, List.length_map, hlength, List.map_singleton,
    Digits.value, Digits.value] at hvalue
  have hnonneg := value_nonneg hlow
  exact ⟨low, top, rfl, hlength, hlow, htop, by omega⟩

theorem signedRadix16_eq {s : Scalar} {low : List Int8} {top : Int8}
    (h : Digits.nibbles s.bytes.toList = low ++ [top]) (hlen : low.length = 63) :
    signedRadix16 s = (Digits.recentre 0 low).1 ++ [top + (Digits.recentre 0 low).2] := by
  rw [signedRadix16, h, List.take_left' hlen, List.drop_left' hlen]
  rfl

theorem toInt_add_carry {top carry : Int8} (h0 : 0 ≤ top.toInt) (h7 : top.toInt ≤ 7)
    (hc : Digits.Carry carry) : (top + carry).toInt = top.toInt + carry.toInt := by
  rw [Digits.Carry] at hc
  rw [Int8.toInt_add]
  exact Int.bmod_eq_of_le (by omega) (by omega)

/-- The last digit takes the carry as it is. -/
theorem signedRadix16_spec {s : Scalar} (hs : s.toNat < 2 ^ 255) :
    (∀ d ∈ signedRadix16 s, SmallDigit d) ∧
      Digits.value 16 ((signedRadix16 s).map Int8.toInt) = s.toNat := by
  obtain ⟨low, top, hsplit, hlen, hlow, htop0, htop7⟩ := nibbles_split s.bytes.length_toList hs
  obtain ⟨hcentred, hcarry, hsum⟩ := Digits.recentre_spec (c := 0) (Or.inl rfl) hlow
  have hlast := toInt_add_carry htop0 htop7 hcarry
  have hvalue : Digits.value 16 ((Digits.nibbles s.bytes.toList).map Int8.toInt) = s.toNat :=
    Digits.value_nibbles _
  rw [hsplit, List.map_append, Digits.value_append, List.length_map, List.map_singleton,
    Digits.value, Digits.value] at hvalue
  rw [Int8.toInt_zero, add_zero] at hsum
  rw [signedRadix16_eq hsplit hlen]
  constructor
  · intro d hd
    rw [SmallDigit]
    rcases List.mem_append.mp hd with hd | hd
    · have h := hcentred d hd
      rw [Digits.Centred] at h
      omega
    · rw [Digits.Carry] at hcarry
      rw [List.mem_singleton.mp hd, hlast]
      omega
  · rw [List.map_append, Digits.value_append, List.length_map, Digits.length_recentre,
      List.map_singleton, Digits.value, Digits.value, hlast]
    linarith

theorem length_signedRadix16 (s : Scalar) : (signedRadix16 s).length = 64 := by
  simp [signedRadix16, Digits.length_recentre, Digits.length_nibbles]

end SignedRadix16

end CurveKeys.Edwards25519.Digits
