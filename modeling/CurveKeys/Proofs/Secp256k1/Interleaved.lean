import CurveKeys.Proofs.Secp256k1.Multiple
import CurveKeys.Proofs.Secp256k1.NonAdjacent

/-!
The branching multiplication over the bit strings of the two non-adjacent forms. A loop goes through
the bytes of the longer strings and the bits of every byte from the highest down, with zeros in front
of the shorter strings; an index outside a string has no result. It does for every bit what the run
over the paired digits does, so it always has a result, which is the multiple.
-/

namespace CurveKeys.Secp256k1

namespace Naf
open Words

/-- Whether a bit of a byte is set. -/
def tested? (x : UInt8) (bit : Nat) : Option Bool := do
  let down ← amount? bit
  return x >>> down &&& 1 == 1

/-- The bytes of two strings that stand `pad` bytes behind the front of longer ones. -/
def bytesAt? (pos neg : Bytes) (pad i : Nat) : Option (UInt8 × UInt8) :=
  if i < pad then some (0, 0)
  else do return (← pos[i - pad]?, ← neg[i - pad]?)

/-- Two strings for the digits 1 and -1 of a list, which is as long as their bits. -/
structure Spells (pos neg : Bytes) (l : List SignedBit) : Prop where
  length_pos : l.length = 8 * pos.length
  length_neg : neg.length = pos.length
  pos : Bytes.toNatBE pos = places .plus l
  neg : Bytes.toNatBE neg = places .minus l

theorem length_ofBytes (k : Bytes) :
    (ofBytes k).length = 8 * (k.length + (carryOut k).toNat) := by
  rw [ofBytes_eq, List.length_append, length_recode, Digits.length_bits, List.length_reverse,
    ← carryOut]
  cases carryOut k <;> rfl

theorem exists_spells {k : Bytes} (hk : k.length ≤ 32) :
    ∃ pos neg, layout? k = some (pos, neg) ∧ Spells pos neg (ofBytes k) := by
  obtain ⟨pos, neg, hlayout, hlength, hboth, hpos, hneg⟩ := layout?_spec hk
  exact ⟨pos, neg, hlayout, by rw [length_ofBytes, hlength], hboth, hpos, hneg⟩

/-- A byte counted from the end of a string has its bits of the integer. -/
theorem tested?_eq (b : Bytes) (j : Nat) {bit : Nat} (hbit : bit < 8) :
    tested? (b.reverse.getD j 0) bit = some ((Bytes.toNatBE b).testBit (8 * j + bit)) := by
  have hbyte : (b.reverse.getD j 0).toNat = Bytes.toNatBE b / 256 ^ j % 256 := by
    rw [Bytes.toNat_getD, Bytes.toNatLE_reverse]
  have hpow : 256 ^ j = 2 ^ (8 * j) := by
    rw [pow_mul]
    rfl
  have hset := Digits.toNat_bit (b.reverse.getD j 0) (UInt8.ofNat bit)
    (by rwa [toNat_amount hbit])
  rw [toNat_amount hbit, hbyte, hpow] at hset
  have htest : (Bytes.toNatBE b / 2 ^ (8 * j) % 2 ^ 8).testBit bit =
      (Bytes.toNatBE b).testBit (8 * j + bit) := by
    rw [Nat.testBit_mod_two_pow, decide_eq_true hbit, Bool.true_and, Nat.testBit_div_two_pow,
      Nat.add_comm]
  rw [tested?, bind_eq_of_eq_some (amount?_eq hbit), ← htest, Nat.testBit_eq_decide_div_mod_eq]
  refine congrArg some ?_
  rw [Bool.eq_iff_iff, decide_eq_true_iff, ← Bool.toNat_eq_one, hset]
  rfl

theorem testBit_places_getD {d : SignedBit} (hd : d ≠ .zero) (l : List SignedBit) (i : Nat) :
    (places d l).testBit i = decide (l.getD i .zero = d) := by
  rw [Bool.eq_iff_iff, testBit_places, decide_eq_true_iff, List.getD_eq_getElem?_getD]
  cases l[i]? with
  | none => exact iff_of_false nofun fun h => hd h.symm
  | some e => rw [Option.some_inj, Option.getD_some]

/-- In front of a string and inside it there is a byte, and its bits are those of the digits. -/
theorem Spells.exists_bytes {pos neg : Bytes} {l : List SignedBit} (h : Spells pos neg l)
    {len i : Nat} (hlen : pos.length ≤ len) (hi : i < len) :
    ∃ x y, bytesAt? pos neg (len - pos.length) i = some (x, y) ∧ ∀ bit < 8,
      tested? x bit = some (decide (l.getD (8 * (len - 1 - i) + bit) .zero = .plus)) ∧
      tested? y bit = some (decide (l.getD (8 * (len - 1 - i) + bit) .zero = .minus)) := by
  refine ⟨pos.reverse.getD (len - 1 - i) 0, neg.reverse.getD (len - 1 - i) 0, ?_,
    fun bit hbit => ⟨?_, ?_⟩⟩
  · have hneg := h.length_neg
    have hread {b : Bytes} (hb : b.length = pos.length) (hpad : ¬i < len - pos.length) :
        b[i - (len - pos.length)]? = some (b.reverse.getD (len - 1 - i) 0) := by
      rw [List.getD_eq_getElem?_getD, List.getElem?_reverse (by omega),
        show b.length - 1 - (len - 1 - i) = i - (len - pos.length) by omega,
        List.getElem?_eq_getElem (by omega)]
      rfl
    rw [bytesAt?]
    split
    · next hpad =>
        rw [List.getD_eq_default _ _ (by rw [List.length_reverse]; omega),
          List.getD_eq_default _ _ (by rw [List.length_reverse]; omega)]
    · next hpad =>
        rw [bind_eq_of_eq_some (hread rfl hpad), bind_eq_of_eq_some (hread hneg hpad)]
        rfl
  · rw [tested?_eq _ _ hbit, h.pos, testBit_places_getD SignedBit.noConfusion]
  · rw [tested?_eq _ _ hbit, h.neg, testBit_places_getD SignedBit.noConfusion]

end Naf

namespace JacobianPoint
open Words

/-- A loop that turns from the first index to the last and reads from the last place to the first. -/
theorem foldl_range_reverse {α : Type} (f : α → Nat → α) (n : Nat) (a : α) :
    (List.range n).foldl (fun a i => f a (n - 1 - i)) a = (List.range n).foldr (fun j a => f a j) a := by
  rw [← List.foldl_reverse, List.range_eq_range', List.reverse_range', List.foldl_map,
    List.range_eq_range']
  simp only [Nat.zero_add]

/-- A loop over bytes with a loop over the bits of each is one over all the bits. -/
theorem foldr_bytes {α : Type} (f : α → Nat → α) (n : Nat) (a : α) :
    (List.range n).foldr (fun j a => (List.range 8).foldr (fun bit a => f a (8 * j + bit)) a) a =
      (List.range (8 * n)).foldr (fun i a => f a i) a := by
  induction n generalizing a with
  | zero => rfl
  | succ n ih =>
      rw [List.range_succ (n := n), List.foldr_append, Nat.mul_succ, List.range_add,
        List.foldr_append, List.foldr_map, ← ih]
      rfl

/-- The digits of one list under a tag, read by their places. -/
theorem map_tag {α : Type} (tag : SignedBit → α) (l : List SignedBit) :
    l.map tag = (List.range l.length).map fun i => tag (l.getD i .zero) := by
  refine List.ext_getElem (by simp) fun i hi _ => ?_
  rw [List.length_map] at hi
  rw [List.getElem_map, List.getElem_map, List.getElem_range, List.getD_eq_getElem _ _ hi]

/-- Every place of the longer list has a digit of each, zero past the end of the shorter one. -/
theorem pairDigits_eq (xs ys : List SignedBit) :
    pairDigits xs ys = (List.range (max xs.length ys.length)).map fun i =>
      (xs.getD i .zero, ys.getD i .zero) := by
  induction xs generalizing ys with
  | nil =>
      rw [List.length_nil, Nat.zero_max]
      exact map_tag (Prod.mk SignedBit.zero) ys
  | cons x xs ih =>
      cases ys with
      | nil =>
          rw [List.length_nil, Nat.max_zero]
          exact map_tag (·, SignedBit.zero) (x :: xs)
      | cons y ys =>
          rw [pairDigits, ih, List.length_cons, List.length_cons, Nat.succ_max_succ,
            List.range_succ_eq_map, List.map_cons, List.map_map]
          rfl

/-- One half of a multiplication: a point and its negative, and the bit strings for the digits. -/
structure Half where
  p : JacobianPoint
  minusP : JacobianPoint
  pos : Bytes
  neg : Bytes

namespace Half

/-- The half of a multiplication by a scalar, with the sign of the scalar given to the point. -/
def ofScalar? (p : JacobianPoint) (k : Scalar) : Option Half := do
  let (k, negative) := k.absolute
  let (pos, neg) ← Naf.layout? (k.toBytes.toList.dropWhile (· == 0))
  return ⟨select p p.negate negative, select p.negate p negative, pos, neg⟩

/-- The two bytes of turn `i`, if the longer strings have `len` bytes. -/
def bytesAt? (h : Half) (len i : Nat) : Option (UInt8 × UInt8) :=
  Naf.bytesAt? h.pos h.neg (len - h.pos.length) i

/-- Adds the point if the bit is set in the first byte, and else its negative if it is set in the
second one. -/
def add? (h : Half) (acc : JacobianPoint) (bytes : UInt8 × UInt8) (bit : Nat) :
    Option JacobianPoint := do
  if ← Naf.tested? bytes.1 bit then return acc.addVar h.p
  else if ← Naf.tested? bytes.2 bit then return acc.addVar h.minusP
  else return acc

/-- What a half adds for a digit. -/
def add (h : Half) (acc : JacobianPoint) (d : SignedBit) : JacobianPoint :=
  acc.addSigned h.p h.minusP d

/-- The strings of a half spell digits. -/
def Spells (h : Half) (l : List SignedBit) : Prop := Naf.Spells h.pos h.neg l

theorem exists_ofScalar? (p : JacobianPoint) (k : Scalar) :
    ∃ h, ofScalar? p k = some h ∧ h.p = select p p.negate k.absolute.2 ∧
      h.minusP = select p.negate p k.absolute.2 ∧
      h.Spells (Naf.ofBytes (k.absolute.1.toBytes.toList.dropWhile (· == 0))) := by
  have hlength (b : Vector UInt8 32) : (b.toList.dropWhile (· == 0)).length ≤ 32 := by
    have h := (List.dropWhile_suffix (· == 0) (l := b.toList)).length_le
    rwa [Vector.length_toList] at h
  obtain ⟨pos, neg, hlayout, hspells⟩ := Naf.exists_spells (hlength k.absolute.1.toBytes)
  exact ⟨⟨_, _, pos, neg⟩, bind_eq_of_eq_some hlayout, rfl, rfl, hspells⟩

/-- In every turn there are two bytes, and every bit of them adds what the digit in its place
does. -/
theorem Spells.exists_bytes {h : Half} {l : List SignedBit} (hl : h.Spells l) {len i : Nat}
    (hlen : h.pos.length ≤ len) (hi : i < len) :
    ∃ bytes, h.bytesAt? len i = some bytes ∧ ∀ bit < 8, ∀ acc,
      h.add? acc bytes bit = some (h.add acc (l.getD (8 * (len - 1 - i) + bit) .zero)) := by
  obtain ⟨x, y, hbytes, hbits⟩ := Naf.Spells.exists_bytes hl hlen hi
  refine ⟨(x, y), hbytes, fun bit hbit acc => ?_⟩
  obtain ⟨hx, hy⟩ := hbits bit hbit
  generalize l.getD (8 * (len - 1 - i) + bit) .zero = d at hx hy
  rw [add?, bind_eq_of_eq_some hx]
  cases d with
  | plus => rfl
  | minus =>
      rw [if_neg (by decide), bind_eq_of_eq_some hy]
      rfl
  | zero =>
      rw [if_neg (by decide), bind_eq_of_eq_some hy]
      rfl

end Half

/-- One byte of the strings: a doubling and the two additions for each bit from the highest down. -/
def turn? (a b : Half) (len : Nat) (acc : JacobianPoint) (i : Nat) : Option JacobianPoint := do
  let bytes1 ← a.bytesAt? len i
  let bytes2 ← b.bytesAt? len i
  (List.range 8).reverse.foldlM (fun acc bit => do
    let acc ← a.add? acc.doubleVar bytes1 bit
    b.add? acc bytes2 bit) acc

/-- The loop over the bytes of the longer strings. -/
def interleave? (a b : Half) : Option JacobianPoint :=
  let len := max a.pos.length b.pos.length
  (List.range len).foldlM (turn? a b len) identity

/-- What the digits in one place do. -/
def place (a b : Half) (xs ys : List SignedBit) (acc : JacobianPoint) (i : Nat) : JacobianPoint :=
  b.add (a.add acc.doubleVar (xs.getD i .zero)) (ys.getD i .zero)

variable {a b : Half} {xs ys : List SignedBit}

theorem turn?_eq (ha : a.Spells xs) (hb : b.Spells ys) {len : Nat} (hlen1 : a.pos.length ≤ len)
    (hlen2 : b.pos.length ≤ len) (acc : JacobianPoint) {i : Nat} (hi : i < len) :
    turn? a b len acc i = some ((List.range 8).foldr
      (fun bit acc => place a b xs ys acc (8 * (len - 1 - i) + bit)) acc) := by
  obtain ⟨bytes1, hbytes1, hadd1⟩ := ha.exists_bytes hlen1 hi
  obtain ⟨bytes2, hbytes2, hadd2⟩ := hb.exists_bytes hlen2 hi
  rw [turn?, bind_eq_of_eq_some hbytes1, bind_eq_of_eq_some hbytes2, ← List.foldl_reverse]
  refine foldlM_eq_foldl fun acc bit hbit => ?_
  have hbit := List.mem_range.mp (List.mem_reverse.mp hbit)
  rw [bind_eq_of_eq_some (hadd1 bit hbit _), hadd2 bit hbit]
  rfl

/-- The bits of all turns together are the digits of both halves, each in its place. -/
theorem interleave?_eq (ha : a.Spells xs) (hb : b.Spells ys) :
    interleave? a b = some ((pairDigits xs ys).foldr
      (fun (d, e) acc => b.add (a.add acc.doubleVar d) e) identity) := by
  have hlen : max xs.length ys.length = 8 * max a.pos.length b.pos.length := by
    rw [ha.length_pos, hb.length_pos, Nat.mul_max_mul_left]
  have hturn (acc : JacobianPoint) (i : Nat)
      (hi : i ∈ List.range (max a.pos.length b.pos.length)) :=
    turn?_eq ha hb (le_max_left _ _) (le_max_right _ _) acc (List.mem_range.mp hi)
  rw [pairDigits_eq, List.foldr_map, hlen, interleave?, foldlM_eq_foldl hturn]
  exact congrArg some ((foldl_range_reverse _ _ _).trans (foldr_bytes (place a b xs ys) _ _))

/-- The multiple of a point, over the bit strings of the halves of the scalar. -/
def mulVar? (p : JacobianPoint) (k : Scalar) : Option JacobianPoint := do
  let a ← Half.ofScalar? p k.split.1
  let b ← Half.ofScalar? p.endomorphism k.split.2
  interleave? a b

theorem mulVar?_eq (p : JacobianPoint) (k : Scalar) : p.mulVar? k = some (p.mulVar k) := by
  obtain ⟨a, ha, hp1, hm1, hspells1⟩ := Half.exists_ofScalar? p k.split.1
  obtain ⟨b, hb, hp2, hm2, hspells2⟩ := Half.exists_ofScalar? p.endomorphism k.split.2
  rw [mulVar?, bind_eq_of_eq_some ha, bind_eq_of_eq_some hb, interleave?_eq hspells1 hspells2,
    mulVar_eq]
  simp only [Half.add, hp1, hm1, hp2, hm2]

/-- The loop over the bit strings gives the multiple of any point. -/
theorem exists_mulVar? {p : JacobianPoint} {P : Curve.Point} (hp : p.Denotes P) {k : Scalar}
    (hk : k.toNat < Scalar.order) : ∃ q, p.mulVar? k = some q ∧ q.Denotes (k.toNat • P) :=
  ⟨p.mulVar k, mulVar?_eq p k, denotes_mulVar hp hk⟩

end JacobianPoint

end CurveKeys.Secp256k1
