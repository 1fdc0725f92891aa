import CurveKeys.Proofs.CheckedWords
import CurveKeys.Proofs.Secp256k1.Digits
import CurveKeys.Proofs.Secp256k1.Nonce.Stream

/-!
The non-adjacent form as two bit strings, one with a bit for each digit 1 and one with a bit for each
digit -1. A scan writes them bit by bit into buffers of 33 bytes and moves them to the end; an index
outside a string or a buffer, a shift by a whole byte or a sum that a byte does not hold has no
result. For every string of at most 32 bytes there is one.
-/

namespace CurveKeys.Secp256k1

namespace Naf
open Words
open Nonce (copy? copy?_append front? front?_append)

/-- The amount of a shift by fewer bits than a byte has. -/
def amount? (k : Nat) : Option UInt8 := if k < 8 then some (UInt8.ofNat k) else none

/-- A bit of a big-endian string, counted from its end; past the front every bit is zero. -/
def bit? (k : Bytes) (i : Nat) : Option UInt8 :=
  if 8 * k.length ≤ i then some 0
  else do
    guard (i / 8 + 1 ≤ k.length)
    let x ← k[k.length - 1 - i / 8]?
    let down ← amount? (i % 8)
    return x >>> down &&& 1

/-- A buffer with more bits set in one byte. -/
def mark? (buffer : Bytes) (i : Nat) (mask : UInt8) : Option Bytes := do
  let x ← buffer[i]?
  return buffer.set i (x ||| mask)

/-- The buffers of the two strings and the carry, between two digits. -/
structure Scan where
  pos : Bytes
  neg : Bytes
  carry : UInt8

/-- Writes digit `i`, which stands in a front of the buffers with one byte more than `k`. -/
def step? (k : Bytes) (s : Scan) (i : Nat) : Option Scan := do
  guard (i / 8 ≤ k.length)
  let byte := k.length - i / 8
  let up ← amount? (i % 8)
  let mask : UInt8 := 1 <<< up
  let sum ← add8? s.carry (← bit? k i)
  if sum = 1 then
    let next ← bit? k (i + 1)
    if next = 1 then
      let neg ← mark? s.neg byte mask
      return ⟨s.pos, neg, 1⟩
    else
      let pos ← mark? s.pos byte mask
      return ⟨pos, s.neg, 0⟩
  else if sum = 2 then
    return ⟨s.pos, s.neg, 1⟩
  else
    return ⟨s.pos, s.neg, 0⟩

/-- Moves the front of a buffer to the end of another one. -/
def moveToEnd? (buffer : Bytes) (used : Nat) : Option Bytes := do
  guard (used ≤ 33)
  let front ← front? buffer used
  copy? (List.replicate 33 0) (33 - used) used front

def from? (buffer : Bytes) (start : Nat) : Option Bytes :=
  if start ≤ buffer.length then some (buffer.drop start) else none

/-- The fronts of both buffers, each moved to the end of another one and read from there. -/
def ends? (pos neg : Bytes) (used start : Nat) : Option (Bytes × Bytes) := do
  let pos ← moveToEnd? pos used
  let neg ← moveToEnd? neg used
  return (← from? pos (33 - used + start), ← from? neg (33 - used + start))

/-- The strings for the digits 1 and -1 of a string of at most 32 bytes. The byte in front of the
others is part of them only when the last digit carries. -/
def layout? (k : Bytes) : Option (Bytes × Bytes) := do
  guard (k.length ≤ 32)
  let s ← (List.range (8 * k.length)).foldlM (step? k)
    ⟨List.replicate 33 0, List.replicate 33 0, 0⟩
  let pos ← if s.carry = 1 then copy? s.pos 0 1 [1] else some s.pos
  ends? pos s.neg (k.length + 1) (if s.carry = 1 then 0 else 1)

/-- The positions of a digit, as the bits of an integer. -/
def places (d : SignedBit) : List SignedBit → Nat
  | [] => 0
  | e :: r => (if e = d then 1 else 0) + 2 * places d r

theorem testBit_places {d : SignedBit} {l : List SignedBit} {i : Nat} :
    (places d l).testBit i = true ↔ l[i]? = some d := by
  induction l generalizing i with
  | nil => simp [places]
  | cons e l ih =>
      cases i with
      | zero =>
          rw [places, Nat.testBit_zero, decide_eq_true_iff, List.getElem?_cons_zero, Option.some_inj]
          split <;> simp [*]
      | succ i =>
          have hhalf : ((if e = d then 1 else 0) + 2 * places d l) / 2 = places d l := by
            split <;> omega
          rw [places, Nat.testBit_succ, hhalf, ih, List.getElem?_cons_succ]

theorem places_append (d : SignedBit) (a b : List SignedBit) :
    places d (a ++ b) = places d a + 2 ^ a.length * places d b := by
  induction a with
  | nil => simp [places]
  | cons e a ih =>
      rw [List.cons_append, places, places, ih, List.length_cons, pow_succ]
      ring

theorem places_lt (d : SignedBit) (l : List SignedBit) : places d l < 2 ^ l.length := by
  induction l with
  | nil => exact Nat.one_pos
  | cons e l ih =>
      rw [places, List.length_cons, pow_succ]
      split <;> omega

/-- The digits spell the integer of the one string less that of the other. -/
theorem places_sub_places (l : List SignedBit) :
    (places .plus l : Int) - places .minus l = Digits.value 2 (l.map SignedBit.toInt) := by
  induction l with
  | nil => rfl
  | cons d l ih =>
      rw [List.map_cons, Digits.value, ← ih, places, places]
      cases d <;> simp [SignedBit.toInt] <;> ring

/-- No two neighbours are both non-zero. -/
def Sparse (l : List SignedBit) : Prop := l.IsChain fun d e => d = .zero ∨ e = .zero

/-- The digits for a carry, the last of them in a byte of its own. -/
def extend (carry : Bool) : List SignedBit :=
  if carry then .plus :: List.replicate 7 .zero else []

theorem ofBytes_eq (k : Bytes) :
    ofBytes k = (recode false (Digits.bits k.reverse)).1 ++
      extend (recode false (Digits.bits k.reverse)).2 := by
  cases h : (recode false (Digits.bits k.reverse)).2 <;> simp [ofBytes, extend, h]

/-- A digit that is not zero carries just what turns the next digit to zero. -/
theorem digit_carry {carry b next : Bool} (h : (digit carry b next).1 ≠ .zero) :
    (digit carry b next).2 = next := by
  cases carry <;> cases b <;> cases next <;> simp_all [digit]

theorem head_zero {carry : Bool} {l : List Bool} (h : carry = l.headD false) :
    ∀ d ∈ ((recode carry l).1 ++ extend (recode carry l).2).head?, d = .zero := by
  subst h
  cases l with
  | nil => simp [recode, extend]
  | cons b l => cases b <;> simp [recode_cons, digit]

theorem sparse_recode (carry : Bool) (l : List Bool) :
    Sparse ((recode carry l).1 ++ extend (recode carry l).2) := by
  induction l generalizing carry with
  | nil => cases carry <;> simp [recode, extend, Sparse]
  | cons b l ih =>
      rw [recode_cons]
      refine List.isChain_cons.mpr ⟨fun e he => ?_, ih _⟩
      rw [or_iff_not_imp_left]
      intro hd
      exact head_zero (digit_carry hd) e he

theorem sparse_ofBytes (k : Bytes) : Sparse (ofBytes k) := by
  rw [ofBytes_eq]
  exact sparse_recode false _

theorem Sparse.apart {l : List SignedBit} (h : Sparse l) {i : Nat} {d e : SignedBit}
    (hd : l[i]? = some d) (he : l[i + 1]? = some e) : d = .zero ∨ e = .zero := by
  obtain ⟨hi, rfl⟩ := List.getElem?_eq_some_iff.mp hd
  obtain ⟨hi', rfl⟩ := List.getElem?_eq_some_iff.mp he
  exact List.isChain_iff_getElem.mp h i hi'

theorem two_pow_mod_three (n : Nat) : (2 : Int) ^ n % 3 ≠ 0 := by
  induction n with
  | zero => decide
  | succ n ih =>
      rw [pow_succ]
      omega

theorem value_bools_emod_two (l : List Bool) :
    Digits.value 2 (l.map fun b => (b.toNat : Int)) % 2 = (l.headD false).toNat := by
  cases l with
  | nil => rfl
  | cons b l =>
      have hb := b.toNat_lt
      rw [List.map_cons, Digits.value, List.headD_cons]
      omega

/-- The carry out of the last digit stands for the integers above two thirds of the range. -/
theorem carry_iff (carry : Bool) (l : List Bool) :
    (recode carry l).2 = true ↔ (2 : Int) ^ (l.length + 1) <
      3 * (Digits.value 2 (l.map fun b => (b.toNat : Int)) + carry.toNat) := by
  induction l generalizing carry with
  | nil => cases carry <;> simp [recode, Digits.value]
  | cons b l ih =>
      have hstep := digit_spec carry b (l.headD false)
      have hthree := two_pow_mod_three (l.length + 1)
      have hparity := value_bools_emod_two l
      have hpow : (2 : Int) ^ (l.length + 1) = 2 * 2 ^ l.length := pow_succ' 2 _
      rw [recode_cons, ih, List.map_cons, Digits.value, List.length_cons, pow_succ _ (l.length + 1)]
      -- a digit that is not zero leaves an even integer above it, which meets no bound by one
      by_cases hd : (digit carry b (l.headD false)).1 = .zero
      · rw [hd, SignedBit.toInt] at hstep
        omega
      · have hcarry := digit_carry hd
        rw [hcarry] at hstep ⊢
        have hdigit : (digit carry b (l.headD false)).1.toInt = 1 ∨
            (digit carry b (l.headD false)).1.toInt = -1 := by
          revert hd
          cases (digit carry b (l.headD false)).1 <;> simp [SignedBit.toInt]
        omega

theorem amount?_eq {k : Nat} (h : k < 8) : amount? k = some (UInt8.ofNat k) := if_pos h

theorem toNat_amount {k : Nat} (h : k < 8) : (UInt8.ofNat k).toNat = k :=
  UInt8.toNat_ofNat_of_lt' (h.trans (by decide))

theorem and_one (x : UInt8) : x &&& 1 = (x &&& 1 == 1).toUInt8 := by
  have h : (x &&& 1).toNat = x.toNat % 2 := by
    rw [UInt8.toNat_and]
    exact Nat.and_two_pow_sub_one_eq_mod _ 1
  rcases Nat.mod_two_eq_zero_or_one x.toNat with h0 | h1
  · rw [show x &&& 1 = 0 from UInt8.toNat_inj.mp (h.trans h0)]
    rfl
  · rw [show x &&& 1 = 1 from UInt8.toNat_inj.mp (h.trans h1)]
    rfl

theorem bit?_eq (k : Bytes) (i : Nat) :
    bit? k i = some ((Digits.bits k.reverse).getD i false).toUInt8 := by
  rw [bit?, Digits.getD_bits]
  split
  · next h =>
      rw [List.getD_eq_default _ _ (by rw [List.length_reverse]; omega)]
      rw [UInt8.zero_shiftRight]
      rfl
  · next h =>
      have hguard : guard (i / 8 + 1 ≤ k.length) = some () := if_pos (by omega)
      have hread : k[k.length - 1 - i / 8]? = some (k.reverse.getD (i / 8) 0) := by
        rw [List.getD_eq_getElem?_getD, List.getElem?_reverse (by omega),
          List.getElem?_eq_getElem (by omega)]
        rfl
      rw [bind_eq_of_eq_some hguard, bind_eq_of_eq_some hread,
        bind_eq_of_eq_some (amount?_eq (Nat.mod_lt _ (by decide))), ← and_one]
      rfl

/-- A front of a buffer of 33 bytes that spells an integer. -/
structure Holds (buffer : Bytes) (used n : Nat) : Prop where
  length : buffer.length = 33
  value : Bytes.toNatBE (buffer.take used) = n

theorem toNat_or_bit {x : UInt8} {s : Nat} (hs : s < 8) (hx : x.toNat < 2 ^ s) :
    (x ||| 1 <<< UInt8.ofNat s).toNat = x.toNat + 2 ^ s := by
  have hlt : 2 ^ s < 2 ^ 8 := Nat.pow_lt_pow_right (by decide) hs
  have hbit : ((1 : UInt8) <<< UInt8.ofNat s).toNat = 2 ^ s := by
    rw [UInt8.toNat_shiftLeft, toNat_amount hs, UInt8.toNat_one, Nat.mod_eq_of_lt hs,
      Nat.one_shiftLeft, Nat.mod_eq_of_lt hlt]
  rw [UInt8.toNat_or, hbit, Nat.or_comm]
  have hor := Nat.two_pow_add_eq_or_of_lt hx 1
  rw [mul_one] at hor
  rw [← hor, Nat.add_comm]

/-- A bit above all those set so far is set in the byte where it stands. -/
theorem Holds.mark {buffer : Bytes} {len n i : Nat} (h : Holds buffer (len + 1) n) (hlen : len ≤ 32)
    (hi : i < 8 * (len + 1)) (hn : n < 2 ^ i) :
    ∃ buffer', mark? buffer (len - i / 8) (1 <<< UInt8.ofNat (i % 8)) = some buffer' ∧
      Holds buffer' (len + 1) (n + 2 ^ i) := by
  have hbuffer := h.length
  have hj : len - i / 8 < buffer.length := by omega
  have hread : buffer[len - i / 8]? = some buffer[len - i / 8] := List.getElem?_eq_getElem hj
  refine ⟨_, bind_eq_of_eq_some hread, by rw [List.length_set, hbuffer], ?_⟩
  have hused : len - i / 8 < (buffer.take (len + 1)).length := by
    rw [List.length_take]
    omega
  have hpow : 2 ^ i = 256 ^ (i / 8) * 2 ^ (i % 8) := by
    rw [show (256 : Nat) = 2 ^ 8 from rfl, ← pow_mul, ← pow_add, Nat.div_add_mod]
  have hright : ((buffer.take (len + 1)).drop (len - i / 8 + 1)).length = i / 8 := by
    rw [List.length_drop, List.length_take]
    omega
  have hold := h.value
  rw [← List.take_append_drop (len - i / 8) (buffer.take (len + 1)),
    List.drop_eq_getElem_cons hused, Bytes.toNatBE_middle, hright, List.getElem_take] at hold
  rw [List.take_set, List.set_eq_take_append_cons_drop, if_pos hused, Bytes.toNatBE_middle, hright]
  generalize buffer[len - i / 8] = x at hold ⊢
  have hx : x.toNat < 2 ^ (i % 8) := by
    apply Nat.lt_of_mul_lt_mul_left (a := 256 ^ (i / 8))
    rw [← hpow]
    refine lt_of_le_of_lt ?_ hn
    rw [← hold, Nat.mul_add]
    omega
  rw [toNat_or_bit (Nat.mod_lt _ (by decide)) hx, hpow, ← hold]
  ring

/-- The bit of a digit set in the buffer that it belongs to. -/
def place? (s : Scan) (byte : Nat) (mask : UInt8) (d : SignedBit) (carry : Bool) : Option Scan :=
  match d with
  | .plus => do
    let pos ← mark? s.pos byte mask
    return ⟨pos, s.neg, carry.toUInt8⟩
  | .minus => do
    let neg ← mark? s.neg byte mask
    return ⟨s.pos, neg, carry.toUInt8⟩
  | .zero => some ⟨s.pos, s.neg, carry.toUInt8⟩

/-- What one turn does with the bit at a position and the next one. -/
theorem step?_eq {k : Bytes} {s : Scan} {i : Nat} (hi : i < 8 * k.length) {carry : Bool}
    (hcarry : s.carry = carry.toUInt8) :
    let d := digit carry ((Digits.bits k.reverse).getD i false)
      ((Digits.bits k.reverse).getD (i + 1) false)
    step? k s i = place? s (k.length - i / 8) (1 <<< UInt8.ofNat (i % 8)) d.1 d.2 := by
  intro d
  have hguard : guard (i / 8 ≤ k.length) = some () := if_pos (by omega)
  have hsum (b : Bool) : add8? carry.toUInt8 b.toUInt8 = some (carry.toUInt8 + b.toUInt8) :=
    add8?_eq (by cases carry <;> cases b <;> rfl)
  rw [step?, bind_eq_of_eq_some hguard, hcarry]
  simp only [amount?_eq (Nat.mod_lt i (show 0 < 8 by decide)), bit?_eq, hsum, Option.bind_eq_bind,
    Option.bind_some, d]
  generalize (Digits.bits k.reverse).getD i false = b
  generalize (Digits.bits k.reverse).getD (i + 1) false = next
  cases carry <;> cases b <;> cases next <;> rfl

/-- The digits so far stand in the buffers, and the digits ahead begin with the carry. -/
structure Reached (k : Bytes) (s : Scan) (low : List SignedBit) (carry : Bool) : Prop where
  carry_eq : s.carry = carry.toUInt8
  ahead : recode false (Digits.bits k.reverse) =
    (low ++ (recode carry ((Digits.bits k.reverse).drop low.length)).1,
      (recode carry ((Digits.bits k.reverse).drop low.length)).2)
  pos : Holds s.pos (k.length + 1) (places .plus low)
  neg : Holds s.neg (k.length + 1) (places .minus low)

theorem places_concat (d e : SignedBit) (l : List SignedBit) :
    places d (l ++ [e]) = places d l + if e = d then 2 ^ l.length else 0 := by
  rw [places_append, places, places]
  split <;> simp

/-- The recoding from a position on, by the bit there and the next one. -/
theorem recode_drop (carry : Bool) {l : List Bool} {i : Nat} (h : i < l.length) :
    recode carry (l.drop i) =
      ((digit carry (l.getD i false) (l.getD (i + 1) false)).1 ::
        (recode (digit carry (l.getD i false) (l.getD (i + 1) false)).2 (l.drop (i + 1))).1,
        (recode (digit carry (l.getD i false) (l.getD (i + 1) false)).2 (l.drop (i + 1))).2) := by
  have hhead : (l.drop (i + 1)).headD false = l.getD (i + 1) false := by
    rw [List.headD_eq_head?_getD, List.head?_drop, List.getD_eq_getElem?_getD]
  rw [List.drop_eq_getElem_cons h, recode_cons, hhead, List.getD_eq_getElem _ _ h]

theorem Reached.step {k : Bytes} (hk : k.length ≤ 32) {s : Scan} {low : List SignedBit}
    {carry : Bool} (h : Reached k s low carry) (hlow : low.length < 8 * k.length) :
    ∃ s' d c, step? k s low.length = some s' ∧ Reached k s' (low ++ [d]) c := by
  have hstep := step?_eq hlow h.carry_eq
  have hahead := h.ahead
  have hmark {buffer : Bytes} {d : SignedBit} (hb : Holds buffer (k.length + 1) (places d low)) :=
    hb.mark hk (show low.length < 8 * (k.length + 1) by omega) (places_lt d low)
  have hlt : low.length < (Digits.bits k.reverse).length := by
    rwa [Digits.length_bits, List.length_reverse]
  rw [recode_drop carry hlt] at hahead
  generalize digit carry ((Digits.bits k.reverse).getD low.length false)
    ((Digits.bits k.reverse).getD (low.length + 1) false) = next at hstep hahead
  obtain ⟨d, c⟩ := next
  have hreached {s' : Scan} (hc : s'.carry = c.toUInt8)
      (hpos : Holds s'.pos (k.length + 1) (places .plus (low ++ [d])))
      (hneg : Holds s'.neg (k.length + 1) (places .minus (low ++ [d]))) :
      Reached k s' (low ++ [d]) c := by
    refine ⟨hc, ?_, hpos, hneg⟩
    rw [hahead, List.length_append, List.append_assoc]
    rfl
  simp only [places_concat] at hreached
  cases d with
  | zero => exact ⟨_, _, _, hstep, hreached rfl h.pos h.neg⟩
  | plus =>
      obtain ⟨pos, hpos, hholds⟩ := hmark h.pos
      exact ⟨_, _, _, hstep.trans (bind_eq_of_eq_some hpos), hreached rfl hholds h.neg⟩
  | minus =>
      obtain ⟨neg, hneg, hholds⟩ := hmark h.neg
      exact ⟨_, _, _, hstep.trans (bind_eq_of_eq_some hneg), hreached rfl h.pos hholds⟩

/-- After the bits of all bytes the buffers hold the digits of the recoding. -/
theorem exists_reached {k : Bytes} (hk : k.length ≤ 32) {n : Nat} (hn : n ≤ 8 * k.length) :
    ∃ s low carry, (List.range n).foldlM (step? k)
        ⟨List.replicate 33 0, List.replicate 33 0, 0⟩ = some s ∧
      low.length = n ∧ Reached k s low carry := by
  induction n with
  | zero =>
      have hzero : Holds (List.replicate 33 0) (k.length + 1) 0 := by
        refine ⟨rfl, ?_⟩
        rw [List.take_replicate, ← List.append_nil (List.replicate _ _),
          Bytes.toNatBE_replicate_append]
        rfl
      exact ⟨_, [], false, rfl, rfl, rfl, rfl, hzero, hzero⟩
  | succ n ih =>
      obtain ⟨s, low, carry, hs, rfl, h⟩ := ih (by omega)
      obtain ⟨s', d, c, hs', h'⟩ := h.step hk (by omega)
      refine ⟨s', low ++ [d], c, ?_, by rw [List.length_append]; rfl, h'⟩
      rw [List.range_succ, List.foldlM_append, bind_eq_of_eq_some hs, List.foldlM_cons,
        bind_eq_of_eq_some hs']
      rfl

/-- The carry out of the last digit. -/
def carryOut (k : Bytes) : Bool := (recode false (Digits.bits k.reverse)).2

theorem carryOut_iff (k : Bytes) :
    carryOut k = true ↔ 2 ^ (8 * k.length + 1) < 3 * Bytes.toNatBE k := by
  have h := carry_iff false (Digits.bits k.reverse)
  rw [Digits.value_bits, Bytes.toNatLE_reverse, Digits.length_bits, List.length_reverse,
    Bool.toNat_false, Nat.cast_zero, add_zero] at h
  rw [carryOut, h]
  norm_cast

/-- The byte in front is zero and takes the carry. -/
theorem Holds.write_front {buffer : Bytes} {len n : Nat} (h : Holds buffer (len + 1) n)
    (hn : n < 256 ^ len) (hlen : len ≤ 32) :
    ∃ buffer', copy? buffer 0 1 [1] = some buffer' ∧ Holds buffer' (len + 1) (256 ^ len + n) := by
  obtain ⟨x, rest, rfl⟩ := List.exists_cons_of_length_eq_add_one h.length
  have hrest : rest.length = 32 := Nat.succ.inj h.length
  have htake : (rest.take len).length = len := by
    rw [List.length_take]
    omega
  have hvalue := h.value
  have hfirst := Bytes.toNatBE_take_eq_zero (n := 1) (b := (x :: rest).take (len + 1))
    (by rw [hvalue, List.take_succ_cons, List.length_cons, htake]; exact hn)
  have hx : x = 0 := UInt8.toNat_inj.mp ((Nat.zero_add _).symm.trans hfirst)
  rw [hx, List.take_succ_cons, Bytes.toNatBE_zero_cons] at hvalue
  refine ⟨1 :: rest, ?_, by rw [List.length_cons, hrest], ?_⟩
  · rw [copy?, if_pos ⟨by rw [List.length_cons]; omega, rfl⟩]
    rfl
  · rw [List.take_succ_cons, Bytes.toNatBE_cons, htake, hvalue, UInt8.toNat_one, mul_one]

/-- The front of a buffer moved to the end and read from there, with its first byte or, when the
integer has no need of it, without. -/
theorem Holds.moved {buffer : Bytes} {len n : Nat} (h : Holds buffer (len + 1) n) (start : Nat)
    (hlen : len ≤ 32) (hstart : start ≤ 1) (hn : start = 1 → n < 256 ^ len) :
    ∃ moved x, moveToEnd? buffer (len + 1) = some moved ∧
      from? moved (33 - (len + 1) + start) = some x ∧ x.length = len + 1 - start ∧
      Bytes.toNatBE x = n := by
  have hbuffer := h.length
  have hused : (buffer.take (len + 1)).length = len + 1 := by
    rw [List.length_take]
    omega
  have hguard : guard (len + 1 ≤ 33) = some () := if_pos (by omega)
  have hfront : front? buffer (len + 1) = some (buffer.take (len + 1)) := if_pos (by omega)
  have hsplit : List.replicate 33 (0 : UInt8) =
      List.replicate (33 - (len + 1)) 0 ++ List.replicate (len + 1) 0 ++ [] := by
    rw [List.append_nil, List.replicate_append_replicate, Nat.sub_add_cancel (by omega)]
  have hcopy : copy? (List.replicate 33 0) (33 - (len + 1)) (len + 1) (buffer.take (len + 1)) =
      some (List.replicate (33 - (len + 1)) 0 ++ buffer.take (len + 1)) := by
    rw [hsplit, copy?_append [] List.length_replicate List.length_replicate hused, List.append_nil]
  refine ⟨_, (buffer.take (len + 1)).drop start,
    (bind_eq_of_eq_some hguard).trans ((bind_eq_of_eq_some hfront).trans hcopy), ?_, ?_, ?_⟩
  · rw [from?, if_pos (by rw [List.length_append, List.length_replicate, hused]; omega),
      List.drop_append, List.drop_of_length_le (by rw [List.length_replicate]; omega),
      List.length_replicate, Nat.add_sub_cancel_left]
    rfl
  · rw [List.length_drop, hused]
  · have hvalue := Bytes.toNatBE_take_add_drop start (buffer.take (len + 1))
    rw [h.value, hused] at hvalue
    rcases Nat.le_one_iff_eq_zero_or_eq_one.mp hstart with rfl | rfl
    · rw [List.drop_zero, h.value]
    · have hzero := Bytes.toNatBE_take_eq_zero (n := 1) (b := buffer.take (len + 1))
        (by rw [h.value, hused]; exact hn rfl)
      rw [hzero, mul_zero, zero_add] at hvalue
      exact hvalue

theorem ends?_spec {pos neg : Bytes} {len p n : Nat} (hp : Holds pos (len + 1) p)
    (hn : Holds neg (len + 1) n) (start : Nat) (hlen : len ≤ 32) (hstart : start ≤ 1)
    (hfits : start = 1 → p < 256 ^ len ∧ n < 256 ^ len) :
    ∃ x y, ends? pos neg (len + 1) start = some (x, y) ∧ x.length = len + 1 - start ∧
      y.length = x.length ∧ Bytes.toNatBE x = p ∧ Bytes.toNatBE y = n := by
  obtain ⟨mp, x, hmp, hx, hlx, hvx⟩ := hp.moved start hlen hstart fun h => (hfits h).1
  obtain ⟨mn, y, hmn, hy, hly, hvy⟩ := hn.moved start hlen hstart fun h => (hfits h).2
  refine ⟨x, y, ?_, hlx, hly.trans hlx.symm, hvx, hvy⟩
  rw [ends?, bind_eq_of_eq_some hmp, bind_eq_of_eq_some hmn, bind_eq_of_eq_some hx,
    bind_eq_of_eq_some hy]
  rfl

/-- The strings hold the places of the digits, and the byte of the carry when there is one. -/
theorem layout?_spec {k : Bytes} (hk : k.length ≤ 32) :
    ∃ pos neg, layout? k = some (pos, neg) ∧ pos.length = k.length + (carryOut k).toNat ∧
      neg.length = pos.length ∧ Bytes.toNatBE pos = places .plus (ofBytes k) ∧
      Bytes.toNatBE neg = places .minus (ofBytes k) := by
  obtain ⟨s, low, carry, hs, hlow, h⟩ := exists_reached hk le_rfl
  have hpow : 2 ^ low.length = 256 ^ k.length := by
    rw [hlow, pow_mul]
    rfl
  have hlt (d : SignedBit) : places d low < 256 ^ k.length := hpow ▸ places_lt d low
  have hend : (Digits.bits k.reverse).drop low.length = [] :=
    List.drop_of_length_le (by rw [Digits.length_bits, List.length_reverse, hlow])
  have hahead := h.ahead
  rw [hend, recode, List.append_nil] at hahead
  have hout : carryOut k = carry := congrArg Prod.snd hahead
  have hdigits : ofBytes k = low ++ extend carry := by rw [ofBytes_eq, hahead]
  have hguard : guard (k.length ≤ 32) = some () := if_pos hk
  rw [hout, hdigits, places_append, places_append, hpow, layout?, bind_eq_of_eq_some hguard,
    bind_eq_of_eq_some hs, h.carry_eq]
  cases carry with
  | false => exact ends?_spec h.pos h.neg 1 hk le_rfl fun _ => ⟨hlt _, hlt _⟩
  | true =>
      obtain ⟨buffer, hbuffer, hfront⟩ := h.pos.write_front (hlt _) hk
      obtain ⟨pos, neg, hends, hlp, hln, hvp, hvn⟩ :=
        ends?_spec hfront h.neg 0 hk zero_le_one fun h => absurd h zero_ne_one
      refine ⟨pos, neg, (bind_eq_of_eq_some hbuffer).trans hends, hlp, hln, ?_, hvn⟩
      rw [hvp, Nat.add_comm]
      exact congrArg _ (mul_one _).symm

/-- Two bit strings, for the digits 1 and for the digits -1 of a non-adjacent form. -/
structure BitStrings (pos neg : Bytes) (n : Nat) : Prop where
  length_eq : neg.length = pos.length
  disjoint : ∀ i, ¬((Bytes.toNatBE pos).testBit i = true ∧ (Bytes.toNatBE neg).testBit i = true)
  apart : ∀ i, (Bytes.toNatBE pos ||| Bytes.toNatBE neg).testBit i = true →
    (Bytes.toNatBE pos ||| Bytes.toNatBE neg).testBit (i + 1) = false
  value : (Bytes.toNatBE pos : Int) - Bytes.toNatBE neg = n

theorem testBit_both (l : List SignedBit) (i : Nat) :
    (places .plus l ||| places .minus l).testBit i = true ↔
      ∃ d, l[i]? = some d ∧ d ≠ .zero := by
  rw [Nat.testBit_or, Bool.or_eq_true, testBit_places, testBit_places]
  constructor
  · rintro (h | h) <;> exact ⟨_, h, nofun⟩
  · rintro ⟨d, h, hd⟩
    cases d with
    | zero => exact absurd rfl hd
    | plus => exact .inl h
    | minus => exact .inr h

theorem bitStrings_of_sparse {pos neg : Bytes} {l : List SignedBit} (h : Sparse l)
    (hlength : neg.length = pos.length) (hpos : Bytes.toNatBE pos = places .plus l)
    (hneg : Bytes.toNatBE neg = places .minus l) {n : Nat}
    (hvalue : Digits.value 2 (l.map SignedBit.toInt) = n) : BitStrings pos neg n where
  length_eq := hlength
  disjoint i := by
    rw [hpos, hneg, testBit_places, testBit_places]
    rintro ⟨hplus, hminus⟩
    cases hplus.symm.trans hminus
  apart i := by
    rw [hpos, hneg, ← Bool.not_eq_true, testBit_both, testBit_both]
    rintro ⟨d, hd, hd0⟩ ⟨e, he, he0⟩
    rcases h.apart hd he with rfl | rfl
    · exact hd0 rfl
    · exact he0 rfl
  value := by rw [hpos, hneg, places_sub_places, hvalue]

/-- The scan of at most 32 bytes ends with two strings, as long as the bytes or longer by one byte
when the last digit carries, and they are the non-adjacent form of the integer. -/
theorem non_adjacent_layout_exact {k : Bytes} (hk : k.length ≤ 32) :
    ∃ pos neg, layout? k = some (pos, neg) ∧ Bytes.toNatBE pos = places .plus (ofBytes k) ∧
      Bytes.toNatBE neg = places .minus (ofBytes k) ∧
      pos.length = k.length + (carryOut k).toNat ∧
      (carryOut k = true ↔ 2 ^ (8 * k.length + 1) < 3 * Bytes.toNatBE k) ∧
      BitStrings pos neg (Bytes.toNatBE k) := by
  obtain ⟨pos, neg, hlayout, hlength, hboth, hpos, hneg⟩ := layout?_spec hk
  exact ⟨pos, neg, hlayout, hpos, hneg, hlength, carryOut_iff k,
    bitStrings_of_sparse (sparse_ofBytes k) hboth hpos hneg (value_ofBytes k)⟩

/-- The greatest string is one less than the carry alone. -/
theorem non_adjacent_layout_of_greatest :
    let k : Bytes := List.replicate 32 0xFF
    k.length ≤ 32 ∧ carryOut k = true ∧
      ∃ pos neg, layout? k = some (pos, neg) ∧ pos = 1 :: List.replicate 32 0 ∧
        neg = List.replicate 32 0 ++ [1] ∧ pos.length = k.length + 1 ∧
        BitStrings pos neg (Bytes.toNatBE k) := by
  intro k
  have hk : k.length ≤ 32 := by decide
  obtain ⟨pos, neg, hlayout, -, -, hlength, hcarry, hform⟩ := non_adjacent_layout_exact hk
  have hout : carryOut k = true := hcarry.mpr (by decide +kernel)
  have hstrings : layout? k = some (1 :: List.replicate 32 0, List.replicate 32 0 ++ [1]) := by
    decide +kernel
  obtain ⟨rfl, rfl⟩ := Prod.mk.inj (Option.some.inj (hlayout.symm.trans hstrings))
  rw [hout] at hlength
  exact ⟨hk, hout, _, _, hlayout, rfl, rfl, hlength, hform⟩

end Naf

end CurveKeys.Secp256k1
