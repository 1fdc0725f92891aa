import CurveKeys.Proofs.CheckedWords
import CurveKeys.Proofs.Edwards25519.Digits
import CurveKeys.Proofs.Edwards25519.Scalar.Residue

/-!
The non-adjacent form, and its recoding by positions. The scalar is read from five words, the last
of them zero; a window may cross from a word into the next. An index outside of the words or the
digits, a shift by a whole word, or a digit that a byte does not hold has no result. For every
scalar below the order there is one, and no carry is left behind the last digit.
-/

namespace CurveKeys.Edwards25519.Digits
open Words

/-- The four words of an encoding, the lowest one first, and a word of zeros. -/
def words (s : Scalar) : List UInt64 :=
  (List.range 4).map
      (fun i => UInt64.ofNat (Bytes.toNatLE ((s.bytes.toList.drop (8 * i)).take 8))) ++ [0]

/-- The amount of a shift by fewer bits than a word has. -/
def amount? (k : Nat) : Option UInt64 := if k < 64 then some (UInt64.ofNat k) else none

/-- The bits from a position on, of one word or of two when a window of `w` bits crosses into the
next. -/
def bitsFrom? (words : List UInt64) (w pos : Nat) : Option UInt64 := do
  let low ← words[pos / 64]?
  let down ← amount? (pos % 64)
  if pos % 64 < 64 - w then
    some (low >>> down)
  else
    let high ← words[pos / 64 + 1]?
    let up ← amount? (64 - pos % 64)
    some (low >>> down ||| high <<< up)

/-- The digits with another one at a position. -/
def write? (digits : List Int8) (pos : Nat) (d : Int8) : Option (List Int8) :=
  if pos < digits.length then some (digits.set pos d) else none

/-- Recodes the bits from a position on and writes the digits that are not zero. The carry that is
left at the end is returned with the digits. -/
def scan? (w : Nat) (hw : 0 < w) (words : List UInt64) (pos : Nat) (carry : UInt64)
    (digits : List Int8) : Option (List Int8 × UInt64) :=
  if _h : pos < 256 then do
    let bits ← bitsFrom? words w pos
    let width ← shiftLeft64? 1 (← amount? w)
    let window ← add64? carry (bits &&& (width - 1))
    if window &&& 1 = 0 then
      scan? w hw words (pos + 1) carry digits
    else if window < width / 2 then
      let digits ← write? digits pos (← signed8? window.toNat)
      scan? w hw words (pos + w) 0 digits
    else
      let digits ← write? digits pos (← signed8? (window.toNat - width.toNat))
      scan? w hw words (pos + w) 1 digits
  else
    some (digits, carry)
termination_by 256 - pos

/-- The 256 digits and the carry that is left, for a width from 2 to 8. -/
def nonAdjacentForm? (w : Nat) (s : Scalar) : Option (List Int8 × UInt64) :=
  if hw : 2 ≤ w ∧ w ≤ 8 then
    scan? w (by omega) (words s) 0 0 (List.replicate 256 0)
  else
    none

theorem amount?_eq {k : Nat} (h : k < 64) : amount? k = some (UInt64.ofNat k) := if_pos h

theorem toNat_amount {k : Nat} (h : k < 64) : (UInt64.ofNat k).toNat = k := by
  rw [UInt64.toNat_ofNat']
  exact Nat.mod_eq_of_lt (by omega)

theorem words_getElem? (s : Scalar) {i : Nat} (hi : i < 5) :
    ∃ x, (words s)[i]? = some x ∧ x.toNat = s.toNat / 2 ^ (64 * i) % 2 ^ 64 := by
  rcases Nat.lt_or_ge i 4 with h4 | h4
  · refine ⟨UInt64.ofNat (Bytes.toNatLE ((s.bytes.toList.drop (8 * i)).take 8)), ?_, ?_⟩
    · rw [words, List.getElem?_append_left (by simpa using h4)]
      simp [h4]
    · have hpow : 256 ^ (8 * i) = 2 ^ (64 * i) := by
        rw [show (256 : Nat) = 2 ^ 8 from rfl, ← pow_mul, ← Nat.mul_assoc]
      rw [UInt64.toNat_ofNat', Bytes.toNatLE_take, Bytes.toNatLE_drop, hpow, ← Scalar.toNat]
      exact Nat.mod_mod _ _
  · obtain rfl : i = 4 := by omega
    have hs : s.toNat < 2 ^ 256 := lt_of_lt_of_eq (Bytes.toNatLE_vector_lt s.bytes) (by norm_num)
    refine ⟨0, rfl, ?_⟩
    rw [Nat.div_eq_of_lt (by simpa using hs)]
    rfl

/-- The bits read from the words, up to the width, are those of the scalar. -/
theorem bitsFrom?_spec (s : Scalar) {w pos : Nat} (hw : w ≤ 8) (hpos : pos < 256) :
    ∃ x, bitsFrom? (words s) w pos = some x ∧
      x.toNat % 2 ^ w = s.toNat / 2 ^ pos % 2 ^ w := by
  have hbit : pos % 64 < 64 := Nat.mod_lt _ (by decide)
  have hsplit := Nat.div_add_mod pos 64
  obtain ⟨low, hlow, vlow⟩ := words_getElem? s (i := pos / 64) (by omega)
  have hdown := toNat_amount hbit
  rw [bitsFrom?, bind_eq_of_eq_some hlow, bind_eq_of_eq_some (amount?_eq hbit)]
  split
  · next hwithin =>
      refine ⟨_, rfl, Nat.eq_of_testBit_eq fun i => ?_⟩
      rw [toNat_shiftRight64 low _ hdown hbit, vlow]
      simp only [Nat.testBit_mod_two_pow, Nat.testBit_div_two_pow]
      by_cases hi : i < w
      · simp [hi, show i + pos % 64 < 64 by omega,
          show i + pos % 64 + 64 * (pos / 64) = i + pos by omega]
      · simp [hi]
  · next hcross =>
      obtain ⟨high, hhigh, vhigh⟩ := words_getElem? s (i := pos / 64 + 1) (by omega)
      have hup := toNat_amount (show 64 - pos % 64 < 64 by omega)
      rw [bind_eq_of_eq_some hhigh, bind_eq_of_eq_some (amount?_eq (by omega))]
      refine ⟨_, rfl, Nat.eq_of_testBit_eq fun i => ?_⟩
      rw [UInt64.toNat_or, toNat_shiftRight64 low _ hdown hbit, UInt64.toNat_shiftLeft, hup, vlow,
        vhigh, Nat.mod_eq_of_lt (show 64 - pos % 64 < 64 by omega)]
      simp only [Nat.testBit_mod_two_pow, Nat.testBit_div_two_pow, Nat.testBit_or,
        Nat.testBit_shiftLeft]
      by_cases hi : i < w
      · rcases Nat.lt_or_ge (i + pos % 64) 64 with hin | hout
        · simp [hi, hin, show ¬ 64 - pos % 64 ≤ i by omega,
            show i + pos % 64 + 64 * (pos / 64) = i + pos by omega]
        · simp [hi, show ¬ i + pos % 64 < 64 by omega, show 64 - pos % 64 ≤ i by omega,
            show i < 64 by omega, show i - (64 - pos % 64) < 64 by omega,
            show i - (64 - pos % 64) + 64 * (pos / 64 + 1) = i + pos by omega]
      · simp [hi]

theorem write?_append (low : List Int8) (n : Nat) (d : Int8) :
    write? (low ++ List.replicate (n + 1) 0) low.length d =
      some (low ++ d :: List.replicate n 0) := by
  rw [write?, if_pos (by simp), List.set_append_right _ _ (le_refl _), Nat.sub_self,
    List.replicate_succ, List.set_cons_zero]

section Scan
variable {w : Nat} {s : Scalar}

/-- The bits of a scalar from a position on. -/
def rest (s : Scalar) (pos : Nat) : List Bool := (Digits.bits s.bytes.toList).drop pos

theorem length_rest (s : Scalar) (pos : Nat) : (rest s pos).length = 256 - pos := by
  rw [rest, List.length_drop, Digits.length_bits, s.bytes.length_toList]

/-- The word with only the bit of the width. -/
theorem width?_spec (hw8 : w ≤ 8) :
    ∃ width, shiftLeft64? 1 (UInt64.ofNat w) = some width ∧ width.toNat = 2 ^ w := by
  have hpow : 2 ^ w ≤ 2 ^ 8 := Nat.pow_le_pow_right Nat.two_pos hw8
  have hwidth : (UInt64.ofNat (2 ^ w)).toNat = 2 ^ w := by
    rw [UInt64.toNat_ofNat']
    exact Nat.mod_eq_of_lt (by omega)
  refine ⟨UInt64.ofNat (2 ^ w), word64?_eq_some_iff.mpr ?_, hwidth⟩
  rw [hwidth, toNat_amount (by omega), UInt64.toNat_one]
  push_cast
  ring

/-- The carry and the masked bits of a word that agrees with the scalar up to the width. -/
theorem window?_spec (hw8 : w ≤ 8) {pos : Nat} {carry x width : UInt64} (hc : carry.toNat ≤ 1)
    (hx : x.toNat % 2 ^ w = s.toNat / 2 ^ pos % 2 ^ w) (hwidth : width.toNat = 2 ^ w) :
    ∃ v, add64? carry (x &&& (width - 1)) = some v ∧
      v.toNat = window w carry.toNat (rest s pos) := by
  have hpow : 2 ^ w ≤ 2 ^ 8 := Nat.pow_le_pow_right Nat.two_pos hw8
  have hmask : (x &&& (width - 1)).toNat = bitsToNat ((rest s pos).take w) := by
    have hones := toNat_sub64 (x := width) (y := 1) (by rw [hwidth]; exact Nat.one_le_two_pow)
    rw [toNat_and_ones64 x w (by rw [hones, hwidth]; rfl), hx, bitsToNat_take, rest,
      bitsToNat_drop, bitsToNat_bits]
  have hlt : (x &&& (width - 1)).toNat < 2 ^ w := by
    rw [hmask, bitsToNat_take]
    exact Nat.mod_lt _ (Nat.two_pow_pos w)
  have hsum := toNat_add64 (x := carry) (y := x &&& (width - 1)) (by omega)
  exact ⟨_, add64?_eq hsum, by rw [hsum, hmask, window]⟩

theorem and_one_eq_zero_iff (x : UInt64) : x &&& 1 = 0 ↔ x.toNat % 2 = 0 := by
  rw [← UInt64.toNat_inj, toNat_and_ones64 x 1 rfl]
  rfl

/-- What one turn does with the window at a position. -/
theorem scan?_step (hw : 2 ≤ w) (hw8 : w ≤ 8) (h0 : 0 < w) {pos : Nat} (hpos : pos < 256)
    {carry : UInt64} (hc : carry.toNat ≤ 1) (digits : List Int8) :
    scan? w h0 (words s) pos carry digits =
      let n := window w carry.toNat (rest s pos)
      if n % 2 = 0 then scan? w h0 (words s) (pos + 1) carry digits
      else if n < 2 ^ (w - 1) then
        (signed8? n).bind fun d => (write? digits pos d).bind (scan? w h0 (words s) (pos + w) 0)
      else
        (signed8? (n - (2 ^ w : Nat))).bind fun d =>
          (write? digits pos d).bind (scan? w h0 (words s) (pos + w) 1) := by
  obtain ⟨x, hx, vx⟩ := bitsFrom?_spec s hw8 hpos
  obtain ⟨width, hwidth, vwidth⟩ := width?_spec hw8
  obtain ⟨v, hv, vv⟩ := window?_spec hw8 hc vx vwidth
  have hlow : v < width / 2 ↔ window w carry.toNat (rest s pos) < 2 ^ (w - 1) := by
    have hhalf : 2 ^ w / 2 ^ 1 = 2 ^ (w - 1) := Nat.pow_div (by omega) Nat.two_pos
    rw [UInt64.lt_iff_toNat_lt, UInt64.toNat_div, vwidth, vv, ← hhalf]
    rfl
  rw [scan?, dif_pos hpos, bind_eq_of_eq_some hx, bind_eq_of_eq_some (amount?_eq (by omega)),
    bind_eq_of_eq_some hwidth, bind_eq_of_eq_some hv]
  simp only [and_one_eq_zero_iff, hlow, vv, vwidth]
  rfl

theorem drop_rest (s : Scalar) (pos k : Nat) : (rest s pos).drop k = rest s (pos + k) :=
  List.drop_drop

theorem rest_eq_cons (s : Scalar) {pos : Nat} (hpos : pos < 256) :
    ∃ b, rest s pos = b :: rest s (pos + 1) := by
  have hlen : pos < (Digits.bits s.bytes.toList).length := by
    rw [Digits.length_bits, s.bytes.length_toList]
    exact hpos
  exact ⟨_, List.drop_eq_getElem_cons hlen⟩

/-- The digits of a skipped window are zeros. -/
theorem recode_skip (carry skip : Nat) (l : List Bool) :
    recode w carry skip l =
      List.replicate (min skip l.length) 0 ++ recode w carry 0 (l.drop skip) := by
  induction l generalizing skip with
  | nil => simp [recode]
  | cons b l ih =>
      cases skip with
      | zero => simp
      | succ skip =>
          rw [recode, ih, List.length_cons, Nat.add_min_add_right, List.replicate_succ,
            List.drop_succ_cons, List.cons_append]

/-- A turn that takes a window writes its digit and goes on behind it with the carry. -/
theorem scan?_window (hw : 2 ≤ w) (hw8 : w ≤ 8) (h0 : 0 < w) {pos : Nat} (hpos : pos < 256)
    {carry : UInt64} (hc : carry.toNat ≤ 1) (digits : List Int8) {d : Int8} {c : Nat} (hc1 : c ≤ 1)
    (hodd : d.toInt.natAbs % 2 = 1) (hlt : d.toInt.natAbs < 2 ^ (w - 1))
    (hsum : d.toInt + 2 ^ w * (c : Int) = window w carry.toNat (rest s pos)) :
    scan? w h0 (words s) pos carry digits =
      (write? digits pos d).bind (scan? w h0 (words s) (pos + w) (UInt64.ofNat c)) := by
  have hpow : 2 ^ w = 2 * 2 ^ (w - 1) := by
    rw [← pow_succ', Nat.sub_add_cancel (by omega)]
  have hcast : (2 : Int) ^ w = (2 ^ w : Nat) := by push_cast; rfl
  rw [hcast] at hsum
  rw [scan?_step hw hw8 h0 hpos hc]
  generalize window w carry.toNat (rest s pos) = n at hsum
  rcases Nat.le_one_iff_eq_zero_or_eq_one.mp hc1 with rfl | rfl
  · have hd : signed8? n = some d := signed8?_eq_some_iff.mpr (by omega)
    simp only [if_neg (show ¬ n % 2 = 0 by omega), if_pos (show n < 2 ^ (w - 1) by omega), hd]
    rfl
  · have hd : signed8? (n - (2 ^ w : Nat)) = some d := signed8?_eq_some_iff.mpr (by omega)
    simp only [if_neg (show ¬ n % 2 = 0 by omega), if_neg (show ¬ n < 2 ^ (w - 1) by omega), hd]
    rfl

/-- The scan from a position writes the digits of the recoding behind those found so far, and no
carry is left at its end. -/
def Scans (w : Nat) (h0 : 0 < w) (s : Scalar) (low : List Int8) (pos : Nat) (carry : UInt64) :
    Prop :=
  scan? w h0 (words s) pos carry (low ++ List.replicate (256 - pos) 0) =
    some (low ++ recode w carry.toNat 0 (rest s pos), 0)

theorem scans_end (h0 : 0 < w) (s : Scalar) (low : List Int8) {pos : Nat} (hpos : 256 ≤ pos) :
    Scans w h0 s low pos 0 := by
  have hend : rest s pos = [] := List.eq_nil_of_length_eq_zero (by rw [length_rest]; omega)
  rw [Scans, scan?, dif_neg (by omega), hend, recode, Nat.sub_eq_zero_of_le hpos]
  rfl

theorem scans_zero (hw : 2 ≤ w) (hw8 : w ≤ 8) (h0 : 0 < w) {low : List Int8}
    (hpos : low.length < 256) {carry : UInt64} (hc : carry.toNat ≤ 1) {b : Bool}
    (hb : rest s low.length = b :: rest s (low.length + 1)) (hcarry : carry.toNat = b.toNat)
    (heq : recode w carry.toNat 0 (b :: rest s (low.length + 1)) =
      0 :: recode w carry.toNat 0 (rest s (low.length + 1)))
    (hnext : Scans w h0 s (low ++ [0]) (low.length + 1) carry) :
    Scans w h0 s low low.length carry := by
  have heven : window w carry.toNat (rest s low.length) % 2 = 0 := by
    rw [hb, window_mod_two hw]
    omega
  have hzeros : List.replicate (256 - low.length) (0 : Int8) =
      [0] ++ List.replicate (256 - (low.length + 1)) 0 := by
    rw [show 256 - low.length = 256 - (low.length + 1) + 1 by omega, List.replicate_succ]
    rfl
  rw [Scans, scan?_step hw hw8 h0 hpos hc, if_pos heven, hzeros, ← List.append_assoc, hnext, hb,
    heq, List.append_assoc]
  rfl

theorem scans_window (hw : 2 ≤ w) (hw8 : w ≤ 8) (h0 : 0 < w) {low : List Int8}
    (hpos : low.length < 256) {carry : UInt64} (hc : carry.toNat ≤ 1) {d : Int8} {c : Nat}
    (hc1 : c ≤ 1) (hodd : d.toInt.natAbs % 2 = 1) (hlt : d.toInt.natAbs < 2 ^ (w - 1))
    (hsum : d.toInt + 2 ^ w * (c : Int) = window w carry.toNat (rest s low.length))
    (heq : recode w carry.toNat 0 (rest s low.length) =
      d :: recode w c (w - 1) (rest s (low.length + 1)))
    (hnext : Scans w h0 s (low ++ d :: List.replicate (min (w - 1) (255 - low.length)) 0)
      (low.length + w) (UInt64.ofNat c)) :
    Scans w h0 s low low.length carry := by
  have hskip : (rest s (low.length + 1)).drop (w - 1) = rest s (low.length + w) := by
    rw [drop_rest]
    congr 1
    omega
  have hzeros : List.replicate (255 - low.length) (0 : Int8) =
      List.replicate (min (w - 1) (255 - low.length)) 0 ++
        List.replicate (256 - (low.length + w)) 0 := by
    rw [List.replicate_append_replicate]
    congr 1
    omega
  have hlen : (rest s (low.length + 1)).length = 255 - low.length := by
    rw [length_rest]
    omega
  rw [Scans, toNat_amount (by omega)] at hnext
  rw [Scans, show 256 - low.length = 255 - low.length + 1 by omega,
    scan?_window hw hw8 h0 hpos hc _ hc1 hodd hlt hsum, write?_append, Option.bind_some, heq,
    recode_skip, hlen, hskip, hzeros]
  simpa only [List.append_assoc, List.cons_append] using hnext

/-- The scan comes to the digits of the recoding, where the carry and the bits ahead come to at most
half of their range. -/
theorem scans (hw : 2 ≤ w) (hw8 : w ≤ 8) (h0 : 0 < w) {pos : Nat} {carry : UInt64}
    (hc : carry.toNat ≤ 1) {low : List Int8} (hlow : low.length = min pos 256)
    (hrange : 2 * (carry.toNat + bitsToNat (rest s pos)) ≤ 2 ^ (256 - pos)) :
    Scans w h0 s low pos carry := by
  -- on the number of bits ahead, which every turn lowers
  induction hm : 256 - pos using Nat.strong_induction_on generalizing pos carry low with
  | _ m ih =>
      subst hm
      by_cases hpos : pos < 256
      · obtain rfl : pos = low.length := by omega
        obtain ⟨b, hb⟩ := rest_eq_cons s hpos
        have hlen := length_rest s (low.length + 1)
        rw [hb, show 256 - low.length = (rest s (low.length + 1)).length + 1 by omega] at hrange
        rcases recode_step hw hw8 hc b (rest s (low.length + 1)) with
          ⟨hcarry, heq⟩ | ⟨d, c, heq, hc1, hodd, hlt, hsum, hhigh⟩
        · refine scans_zero hw hw8 h0 hpos hc hb hcarry heq (ih _ (by omega) hc ?_ ?_ rfl)
          · rw [List.length_append, List.length_singleton]
            omega
          · rw [bitsToNat, pow_succ] at hrange
            rw [← hlen]
            omega
        · rw [← hb] at hsum heq
          refine scans_window hw hw8 h0 hpos hc hc1 hodd hlt hsum heq (ih _ (by omega) ?_ ?_ ?_ rfl)
          · rw [toNat_amount (by omega)]
            exact hc1
          · rw [List.length_append, List.length_cons, List.length_replicate]
            omega
          · obtain ⟨k, rfl⟩ : ∃ k, w = k + 1 := ⟨w - 1, by omega⟩
            have hleft := carry_add_drop_le hrange hc1 hhigh
            have hahead : low.length + 1 + k = low.length + (k + 1) := by omega
            rw [Nat.add_sub_cancel, hlen, drop_rest, Nat.sub_sub, hahead] at hleft
            rw [toNat_amount (by omega)]
            exact hleft
      · rw [List.eq_nil_of_length_eq_zero (l := rest s pos) (by rw [length_rest]; omega), bitsToNat,
          Nat.sub_eq_zero_of_le (by omega)] at hrange
        obtain rfl : carry = 0 := UInt64.toNat_inj.mp (by rw [UInt64.toNat_zero]; omega)
        exact scans_end h0 s low (by omega)

/-- The digits of a skipped window, one by one. -/
theorem getD_recode_skip {carry skip j : Nat} (l : List Bool) (hj : j < skip) :
    (recode w carry skip l).getD j 0 = 0 := by
  rw [recode_skip]
  rcases Nat.lt_or_ge j l.length with h | h
  · have hzero : j < (List.replicate (min skip l.length) (0 : Int8)).length := by simp [hj, h]
    rw [List.getD_append _ _ _ _ hzero, List.getD_replicate _ (by simp [hj, h])]
  · refine List.getD_eq_default _ _ ?_
    rw [← recode_skip, length_recode]
    exact h

/-- Of two digits less than a width apart one is zero. -/
theorem recode_apart {carry skip : Nat} {l : List Bool} {i j : Nat} (hij : i < j) (hj : j < i + w) :
    (recode w carry skip l).getD i 0 = 0 ∨ (recode w carry skip l).getD j 0 = 0 := by
  induction l generalizing carry skip i j with
  | nil => exact .inl (by rw [recode]; rfl)
  | cons b l ih =>
      obtain ⟨j, rfl⟩ := Nat.exists_eq_add_of_le' (show 1 ≤ j by omega)
      cases skip with
      | succ skip =>
          rw [recode]
          cases i with
          | zero => exact .inl rfl
          | succ i => exact ih (by omega) (by omega)
      | zero =>
          rw [recode]
          cases i with
          | zero =>
              split
              · exact .inl rfl
              · split <;> exact .inr (getD_recode_skip l (by omega))
          | succ i =>
              split
              · exact ih (by omega) (by omega)
              · split <;> exact ih (by omega) (by omega)

end Scan

/-- A non-adjacent form of width `w` with 256 digits. -/
structure IsNonAdjacentForm (w : Nat) (digits : List Int8) (n : Nat) : Prop where
  length : digits.length = 256
  value : Digits.value 2 (digits.map Int8.toInt) = n
  odd : ∀ d ∈ digits, OddDigit w d
  apart : ∀ i j, i < j → j < i + w → digits.getD i 0 = 0 ∨ digits.getD j 0 = 0

theorem isNonAdjacentForm {w : Nat} (hw : 2 ≤ w) (hw8 : w ≤ 8) {s : Scalar}
    (hs : s.toNat ≤ 2 ^ 255) : IsNonAdjacentForm w (nonAdjacent w s) s.toNat where
  length := length_nonAdjacent w s
  value := value_nonAdjacent hw hw8 hs
  odd _ hd := oddDigit_of_mem_nonAdjacent hw hw8 hd
  apart _ _ hij hj := recode_apart hij hj

theorem nonAdjacentForm?_eq {w : Nat} (hw : 2 ≤ w) (hw8 : w ≤ 8) {s : Scalar}
    (hs : s.toNat ≤ 2 ^ 255) : nonAdjacentForm? w s = some (nonAdjacent w s, 0) := by
  have hrange : 2 * ((0 : UInt64).toNat + bitsToNat (rest s 0)) ≤ 2 ^ (256 - 0) := by
    rw [rest, List.drop_zero, bitsToNat_bits, UInt64.toNat_zero]
    omega
  have h : Scans w (by omega) s [] 0 0 := scans hw hw8 (by omega) (by decide) rfl hrange
  rw [nonAdjacentForm?, dif_pos ⟨hw, hw8⟩]
  exact h

/-- For every width from 2 to 8 the scan by positions ends with 256 digits and no carry: no word, no
digit and no shift amount is out of its range on the way, and the digits are the non-adjacent form
of the scalar. Any other width is refused. -/
theorem nonAdjacentForm_exact {s : Scalar} (hs : s.toNat < Limbs.order) (w : Nat) :
    (2 ≤ w ∧ w ≤ 8 → ∃ digits, nonAdjacentForm w s = .ok digits ∧
      nonAdjacentForm? w s = some (digits, 0) ∧ IsNonAdjacentForm w digits s.toNat) ∧
    (¬ (2 ≤ w ∧ w ≤ 8) → ∃ e, nonAdjacentForm w s = .error e ∧
      e.message = "NAF width must be in 2..=8") := by
  have hhalf : Limbs.order ≤ 2 ^ 255 := by decide
  constructor
  · rintro ⟨hw, hw8⟩
    exact ⟨nonAdjacent w s, if_pos ⟨hw, hw8⟩, nonAdjacentForm?_eq hw hw8 (by omega),
      isNonAdjacentForm hw hw8 (by omega)⟩
  · intro h
    exact ⟨⟨⟩, if_neg h, rfl⟩

/-- Nine ones at the end of a word: the carry passes an even window and comes out of the word. -/
theorem nonAdjacentForm_exact_across_words :
    let s := Scalar.ofUInt64 0xFF80000000000000
    s.toNat < Limbs.order ∧
      ∃ digits, nonAdjacentForm 8 s = .ok digits ∧ nonAdjacentForm? 8 s = some (digits, 0) ∧
        IsNonAdjacentForm 8 digits s.toNat ∧ digits.getD 55 0 = -1 ∧ digits.getD 64 0 = 1 := by
  intro s
  have hs : s.toNat < Limbs.order := by decide +kernel
  obtain ⟨digits, hform, hscan, hdigits⟩ := (nonAdjacentForm_exact hs 8).1 (by decide)
  obtain rfl : nonAdjacent 8 s = digits := Except.ok.inj hform
  exact ⟨hs, _, hform, hscan, hdigits, by decide +kernel, by decide +kernel⟩

end CurveKeys.Edwards25519.Digits
