import CurveKeys.Proofs.Secp256k1.Field.Checked
import CurveKeys.Proofs.Secp256k1.Field.Reduction
import CurveKeys.Proofs.Secp256k1.Scalar.Positions

/-!
Bytes and limbs by position. Byte `i` of 32 begins at bit `8 * (31 - i)`, which is bit `bit % 26` of
limb `bit / 26`, and goes on in the next limb when fewer than eight bits of that one are left. The
limbs are read by index, and an index outside them or a shift by a whole word leaves no result.
There always is one. Both directions only move bits: a bit of the integer stands at one position of
the limbs and at one of the bytes.
-/

namespace CurveKeys.Secp256k1

namespace Radix

theorem testBit_limbs {w : List UInt32} (h : ∀ x ∈ w, x.toNat < 0x4000000) (t : Nat) :
    (value (w.map UInt32.toNat)).testBit t = (w.getD (t / 26) 0).toNat.testBit (t % 26) := by
  have hread : (w.map UInt32.toNat).getD (t / 26) 0 = (w.getD (t / 26) 0).toNat :=
    List.getD_map w 0 UInt32.toNat
  rw [testBit_value (List.forall_mem_map.mpr h), hread]

/-- Ten limbs of 26 bits that spell the integer. -/
structure Holds (w : List UInt32) (n : Nat) : Prop where
  length_eq : w.length = 10
  limb_lt : ∀ x ∈ w, x.toNat < 0x4000000
  value_eq : value (w.map UInt32.toNat) = n

namespace Holds
variable {w : List UInt32} {n : Nat}

theorem testBit (h : Holds w n) (t : Nat) :
    n.testBit t = (w.getD (t / 26) 0).toNat.testBit (t % 26) := by
  rw [← h.value_eq, testBit_limbs h.limb_lt]

theorem getD_lt (h : Holds w n) (i : Nat) : (w.getD i 0).toNat < 2 ^ 26 := by
  rw [List.getD_eq_getElem?_getD]
  cases hi : w[i]? with
  | none => decide
  | some x => exact h.limb_lt x (List.mem_of_getElem? hi)

theorem getElem? (h : Holds w n) {i : Nat} (hi : i < 10) : w[i]? = some (w.getD i 0) :=
  Scalar.getElem?_of_lt (by rwa [h.length_eq])

end Holds

/-- Joins a word with the limb at an index. -/
def join? (w : List UInt32) (i : Nat) (x : UInt32) : Option (List UInt32) := do
  let y ← w[i]?
  return w.set i (y ||| x)

/-- A limb joined with more bits of its own joins them with the integer at the place of the limb. -/
theorem value_set_or {w : List UInt32} (h : ∀ x ∈ w, x.toNat < 0x4000000) {i : Nat}
    (hi : i < w.length) {x : UInt32} (hx : x.toNat < 2 ^ 26)
    (hset : ∀ y ∈ w.set i (w.getD i 0 ||| x), y.toNat < 0x4000000) :
    value ((w.set i (w.getD i 0 ||| x)).map UInt32.toNat) =
      value (w.map UInt32.toNat) ||| x.toNat <<< (26 * i) := by
  apply Nat.eq_of_testBit_eq
  intro t
  rw [testBit_limbs hset, Nat.testBit_or, testBit_limbs h, Nat.testBit_shiftLeft,
    List.getD_eq_getElem?_getD, List.getElem?_set]
  by_cases ht : i = t / 26
  · subst ht
    rw [if_pos rfl, if_pos hi, Option.getD_some, UInt32.toNat_or, Nat.testBit_or,
      show t - 26 * (t / 26) = t % 26 by omega]
    simp [show 26 * (t / 26) ≤ t by omega]
  · -- the word has no bit outside its limb
    have hnone : (decide (t ≥ 26 * i) && x.toNat.testBit (t - 26 * i)) = false := by
      rcases Nat.lt_or_ge t (26 * i) with hlow | hhigh
      · simp [Nat.not_le.mpr hlow]
      · rw [Nat.testBit_lt_two_pow
          (hx.trans_le (Nat.pow_le_pow_right (by decide) (by omega))), Bool.and_false]
    rw [if_neg ht, ← List.getD_eq_getElem?_getD, hnone, Bool.or_false]

theorem Holds.join {w : List UInt32} {n : Nat} (h : Holds w n) {i : Nat} (hi : i < 10) {x : UInt32}
    (hx : x.toNat < 2 ^ 26) :
    ∃ w', join? w i x = some w' ∧ Holds w' (n ||| x.toNat <<< (26 * i)) := by
  have hlt : i < w.length := by rwa [h.length_eq]
  have hlimbs : ∀ y ∈ w.set i (w.getD i 0 ||| x), y.toNat < 0x4000000 := by
    intro y hy
    rcases List.mem_or_eq_of_mem_set hy with hy | rfl
    · exact h.limb_lt y hy
    · rw [UInt32.toNat_or]
      exact Nat.or_lt_two_pow (h.getD_lt i) hx
  refine ⟨w.set i (w.getD i 0 ||| x), ?_, by rw [List.length_set, h.length_eq], hlimbs, ?_⟩
  · rw [join?, Words.bind_eq_of_eq_some (h.getElem? hi)]
    rfl
  · rw [value_set_or h.limb_lt hlt hx hlimbs, h.value_eq]

end Radix

namespace FieldElement
open Words Radix
open Scalar (amount? amount?_eq)

/-- Joins byte `i` with the limbs. -/
def packByte? (b : Vector UInt8 32) (w : List UInt32) (i : Nat) : Option (List UInt32) := do
  guard (i ≤ 31)
  let bit := 8 * (31 - i)
  let x ← b[i]?
  let up ← amount? (bit % 26)
  let low ← join? w (bit / 26) (x.toUInt32 <<< up &&& 0x3FFFFFF)
  if 18 < bit % 26 then
    let down ← amount? (26 - bit % 26)
    join? low (bit / 26 + 1) (x.toUInt32 >>> down)
  else
    return low

/-- The limbs of 32 bytes, gathered byte by byte. -/
def pack? (b : Vector UInt8 32) : Option FieldElement := do
  let w ← (List.range 32).foldlM (packByte? b) (List.replicate 10 0)
  ofLimbs? w

/-- Byte `i` of the encoding, taken from the limb where it begins and the one where it goes on. -/
def byte? (w : List UInt32) (i : Nat) : Option UInt8 := do
  guard (i ≤ 31)
  let bit := 8 * (31 - i)
  let x ← w[bit / 26]?
  let down ← amount? (bit % 26)
  if 18 < bit % 26 then
    let y ← w[bit / 26 + 1]?
    let up ← amount? (26 - bit % 26)
    return (x >>> down ||| y <<< up).toUInt8
  else
    return (x >>> down).toUInt8

/-- The encoding, taken byte by byte. -/
def unpack? (a : FieldElement) : Option Bytes := (List.range 32).mapM (byte? a.limbs)

theorem toNat_amount {k : Nat} (h : k < 32) : (UInt32.ofNat k).toNat = k :=
  UInt32.toNat_ofNat_of_lt' (h.trans (by decide))

/-- A byte moved up within a limb and what it has left for the next one. -/
theorem shiftLeft_split (v : Nat) {l s : Nat} (hs : s ≤ 26) :
    (v <<< s % 2 ^ 26) <<< (26 * l) ||| (v >>> (26 - s)) <<< (26 * (l + 1)) =
      v <<< (26 * l + s) := by
  apply Nat.eq_of_testBit_eq
  intro t
  simp only [Nat.testBit_or, Nat.testBit_shiftLeft, Nat.testBit_shiftRight,
    Nat.testBit_mod_two_pow]
  rcases Nat.lt_or_ge t (26 * (l + 1)) with hlow | hhigh
  · rw [show t - 26 * l - s = t - (26 * l + s) by omega]
    have hlimb : t - 26 * l < 26 := by omega
    simp only [hlimb, decide_true, Bool.true_and, show ¬t ≥ 26 * (l + 1) by omega, decide_false,
      Bool.false_and, Bool.or_false]
    have hplace : t ≥ 26 * l ∧ t - 26 * l ≥ s ↔ t ≥ 26 * l + s := by omega
    rw [← Bool.and_assoc, ← Bool.decide_and, decide_eq_decide.mpr hplace]
  · rw [show 26 - s + (t - 26 * (l + 1)) = t - (26 * l + s) by omega]
    simp [hhigh, show ¬t - 26 * l < 26 by omega, show 26 * l + s ≤ t by omega]

theorem toNat_pack_low (x : UInt8) {k : Nat} (hk : k < 26) :
    (x.toUInt32 <<< UInt32.ofNat k &&& 0x3FFFFFF).toNat = x.toNat <<< k % 2 ^ 26 := by
  rw [toNat_and_ones _ (m := 0x3FFFFFF) 26 rfl, UInt32.toNat_shiftLeft, UInt8.toNat_toUInt32,
    toNat_amount (by omega), Nat.mod_eq_of_lt (show k < 32 by omega),
    Nat.mod_mod_of_dvd _ (pow_dvd_pow 2 (by decide))]

theorem toNat_pack_high (x : UInt8) {k : Nat} (hk : k < 32) :
    (x.toUInt32 >>> UInt32.ofNat k).toNat = x.toNat >>> k := by
  rw [toNat_byte_shift x _ (toNat_amount hk) hk, Nat.shiftRight_eq_div_pow]

/-- One byte is joined with the integer at its own place. -/
theorem packByte?_spec (b : Vector UInt8 32) {w : List UInt32} {n i : Nat} (h : Holds w n)
    (hi : i < 32) :
    ∃ w', packByte? b w i = some w' ∧
      Holds w' (n ||| (Bytes.byteAt b i).toNat <<< (8 * (31 - i))) := by
  have hx := (Bytes.byteAt b i).toNat_lt
  have hread : b[i]? = some (Bytes.byteAt b i) := by
    rw [Bytes.byteAt_eq_getElem b i hi, Vector.getElem?_eq_getElem hi]
  have hguard : guard (i ≤ 31) = some () := if_pos (by omega)
  generalize hbit : 8 * (31 - i) = bit
  generalize Bytes.byteAt b i = x at hx hread
  have hs := Nat.mod_lt bit (show 0 < 26 by decide)
  have hplace : 26 * (bit / 26) + bit % 26 = bit := Nat.div_add_mod bit 26
  have hlow := toNat_pack_low x hs
  obtain ⟨low, hjoin, hhold⟩ := h.join (i := bit / 26) (by omega)
    (hlow.trans_lt (Nat.mod_lt _ (by decide)))
  rw [hlow] at hhold
  rw [packByte?, bind_eq_of_eq_some hguard]
  simp only [hbit]
  rw [bind_eq_of_eq_some hread, bind_eq_of_eq_some (amount?_eq (by omega)),
    bind_eq_of_eq_some hjoin]
  have hsplit := shiftLeft_split x.toNat (l := bit / 26) hs.le
  rw [hplace] at hsplit
  by_cases hover : 18 < bit % 26
  · have hhigh := toNat_pack_high x (show 26 - bit % 26 < 32 by omega)
    obtain ⟨w', hjoin', hhold'⟩ := hhold.join (i := bit / 26 + 1) (by omega)
      (hhigh.trans_lt ((Nat.shiftRight_le _ _).trans_lt (hx.trans (by decide))))
    rw [hhigh, Nat.or_assoc, hsplit] at hhold'
    rw [if_pos hover, bind_eq_of_eq_some (amount?_eq (by omega))]
    exact ⟨w', hjoin', hhold'⟩
  · -- nothing of the byte is left for the next limb
    have hnone : x.toNat >>> (26 - bit % 26) = 0 := by
      rw [Nat.shiftRight_eq_div_pow]
      exact Nat.div_eq_of_lt (hx.trans_le (Nat.pow_le_pow_right (by decide) (by omega)))
    rw [hnone, Nat.zero_shiftLeft, Nat.or_zero] at hsplit
    rw [hsplit] at hhold
    rw [if_neg hover]
    exact ⟨low, rfl, hhold⟩

/-- After `k` bytes the limbs hold the integer that these spell, above the bits still to come. -/
theorem foldlM_packByte? (b : Vector UInt8 32) {k : Nat} (hk : k ≤ 32) :
    ∃ w, (List.range k).foldlM (packByte? b) (List.replicate 10 0) = some w ∧
      Holds w (Bytes.toNatBE (b.toList.take k) <<< (8 * (32 - k))) := by
  induction k with
  | zero =>
      have hzero : ∀ x ∈ List.replicate 10 (0 : UInt32), x.toNat < 0x4000000 := by
        intro x hx
        rw [List.eq_of_mem_replicate hx]
        decide
      exact ⟨_, rfl, rfl, hzero, (Nat.zero_shiftLeft _).symm⟩
  | succ k ih =>
      obtain ⟨w, hw, h⟩ := ih (by omega)
      obtain ⟨w', hw', h'⟩ := packByte?_spec b h hk
      refine ⟨w', ?_, ?_⟩
      · rw [List.range_succ, List.foldlM_append, bind_eq_of_eq_some hw, List.foldlM_cons,
          bind_eq_of_eq_some hw']
        rfl
      · have hx := (Bytes.byteAt b k).toNat_lt
        have htake : Bytes.toNatBE (b.toList.take (k + 1)) =
            Bytes.toNatBE (b.toList.take k) <<< 8 ||| (Bytes.byteAt b k).toNat := by
          rw [List.take_succ_eq_append_getElem (by rwa [b.length_toList]), Bytes.toNatBE_concat,
            Vector.getElem_toList, ← Bytes.byteAt_eq_getElem b k hk,
            ← Nat.shiftLeft_add_eq_or_of_lt hx, Nat.shiftLeft_eq, Nat.mul_comm]
        rwa [htake, Nat.shiftLeft_or_distrib, ← Nat.shiftLeft_add,
          show 8 + 8 * (32 - (k + 1)) = 8 * (32 - k) by omega,
          show 32 - (k + 1) = 31 - k by omega]

theorem pack?_eq (b : Vector UInt8 32) : pack? b = some (pack b) := by
  obtain ⟨w, hw, h⟩ := foldlM_packByte? b le_rfl
  rw [List.take_of_length_le (by rw [b.length_toList]), Nat.sub_self, Nat.mul_zero,
    Nat.shiftLeft_zero, ← toNat_pack] at h
  have hdigits : ∀ x ∈ w.map UInt32.toNat, x < 0x4000000 := List.forall_mem_map.mpr h.limb_lt
  have hcarried : Radix.Carried (w.map UInt32.toNat) := fun x hx =>
    hdigits x (List.mem_of_mem_dropLast hx)
  have hlimbs := eq_of_value_eq hcarried (carried_pack b)
    ((List.length_map _).trans h.length_eq) h.value_eq
  have hw' : w = (pack b).limbs :=
    List.map_injective_iff.mpr (fun _ _ e => UInt32.toNat_inj.mp e) hlimbs
  rw [pack?, bind_eq_of_eq_some hw, hw', ofLimbs?_limbs]

/-- Eight bits of the integer, from the limb where they begin and the next one. -/
theorem bits_of_limbs {w : List UInt32} {n : Nat} (h : Holds w n) {l s : Nat} (hs : s < 26) :
    n / 2 ^ (26 * l + s) % 2 ^ 8 =
      ((w.getD l 0).toNat >>> s ||| (w.getD (l + 1) 0).toNat <<< (26 - s)) % 2 ^ 8 := by
  apply Nat.eq_of_testBit_eq
  intro t
  rw [Nat.testBit_mod_two_pow, Nat.testBit_mod_two_pow, Nat.testBit_div_two_pow, Nat.testBit_or,
    Nat.testBit_shiftRight, Nat.testBit_shiftLeft, h.testBit]
  rcases Nat.lt_or_ge (s + t) 26 with hlow | hhigh
  · rw [show (t + (26 * l + s)) / 26 = l by omega, show (t + (26 * l + s)) % 26 = s + t by omega]
    simp [show ¬26 - s ≤ t by omega]
  · by_cases ht : t < 8
    · have hnone : (w.getD l 0).toNat.testBit (s + t) = false :=
        Nat.testBit_lt_two_pow ((h.getD_lt l).trans_le (Nat.pow_le_pow_right (by decide) hhigh))
      rw [show (t + (26 * l + s)) / 26 = l + 1 by omega,
        show (t + (26 * l + s)) % 26 = t - (26 - s) by omega, hnone]
      simp [show 26 - s ≤ t by omega]
    · simp [ht]

/-- One byte is read off the integer at its own place. -/
theorem byte?_spec {w : List UInt32} {n i : Nat} (h : Holds w n) (hi : i < 32) :
    ∃ y, byte? w i = some y ∧ y.toNat = n / 2 ^ (8 * (31 - i)) % 2 ^ 8 := by
  have hguard : guard (i ≤ 31) = some () := if_pos (by omega)
  generalize hbit : 8 * (31 - i) = bit
  have hs := Nat.mod_lt bit (show 0 < 26 by decide)
  have hplace : 26 * (bit / 26) + bit % 26 = bit := Nat.div_add_mod bit 26
  have hbits := bits_of_limbs h (l := bit / 26) hs
  rw [hplace] at hbits
  rw [byte?, bind_eq_of_eq_some hguard]
  simp only [hbit]
  rw [bind_eq_of_eq_some (h.getElem? (by omega)), bind_eq_of_eq_some (amount?_eq (by omega))]
  by_cases hover : 18 < bit % 26
  · rw [if_pos hover, bind_eq_of_eq_some (h.getElem? (by omega)),
      bind_eq_of_eq_some (amount?_eq (by omega))]
    refine ⟨_, rfl, ?_⟩
    rw [hbits, UInt32.toNat_toUInt8, UInt32.toNat_or, UInt32.toNat_shiftRight,
      UInt32.toNat_shiftLeft, toNat_amount (by omega), toNat_amount (by omega),
      Nat.mod_eq_of_lt (show bit % 26 < 32 by omega),
      Nat.mod_eq_of_lt (show 26 - bit % 26 < 32 by omega), Nat.or_mod_two_pow,
      Nat.mod_mod_of_dvd _ (pow_dvd_pow 2 (by decide)), ← Nat.or_mod_two_pow]
  · -- the bits of the next limb begin above the byte
    have hnone : (w.getD (bit / 26 + 1) 0).toNat <<< (26 - bit % 26) % 2 ^ 8 = 0 := by
      rw [Nat.shiftLeft_eq]
      exact Nat.mod_eq_zero_of_dvd
        (Dvd.dvd.mul_left (pow_dvd_pow 2 (by omega)) _)
    rw [if_neg hover]
    refine ⟨_, rfl, ?_⟩
    rw [hbits, Nat.or_mod_two_pow, hnone, Nat.or_zero, Nat.shiftRight_eq_div_pow,
      toNat_byte_within _ _ (toNat_amount (by omega)) (by omega)]

theorem Packed.holds {a : FieldElement} (h : a.Packed) : Holds a.limbs a.toNat := by
  obtain ⟨h0, h1, h2, h3, h4, h5, h6, h7, h8⟩ := (carried_iff a).mp h.carried
  have h9 : a.l9.toNat < 0x4000000 := h.l9_lt.trans (by decide)
  exact ⟨rfl, by simp [limbs, *], rfl⟩

theorem unpack?_eq {a : FieldElement} (h : a.Canonical) : unpack? a = some a.toBytes.toList := by
  rw [Bytes.toList_eq_map_byteAt]
  refine mapM_eq_map fun i hi => ?_
  have hi := List.mem_range.mp hi
  obtain ⟨y, hy, hvalue⟩ := byte?_spec h.packed.holds hi
  rw [hy, Option.some.injEq, ← UInt8.toNat_inj, hvalue, Bytes.toNat_byteAt _ hi,
    toNatBE_toBytes h, pow_mul]
  rfl

theorem canonical_pack {b : Vector UInt8 32} (h : Bytes.toNatBE b.toList < prime) :
    (pack b).Canonical :=
  ⟨carried_pack b, (toNat_pack b).trans_lt h⟩

theorem pack_toBytes {a : FieldElement} (h : a.Canonical) : pack a.toBytes = a :=
  eq_of_toNat_eq (carried_pack _) h.carried ((toNat_pack _).trans (toNatBE_toBytes h))

theorem toBytes_pack {b : Vector UInt8 32} (h : Bytes.toNatBE b.toList < prime) :
    (pack b).toBytes = b := by
  rw [← Vector.toList_inj]
  refine Bytes.eq_of_toNatBE_eq (by rw [Vector.length_toList, Vector.length_toList]) ?_
  rw [toNatBE_toBytes (canonical_pack h), toNat_pack]

theorem ofBytes?_eq_some_iff {b : Vector UInt8 32} {a : FieldElement} :
    ofBytes? b = some a ↔ Bytes.toNatBE b.toList < prime ∧ pack b = a := by
  have hover := overflows_iff (carried_pack b)
  rw [toNat_pack] at hover
  unfold ofBytes?
  dsimp only
  split
  · next h => exact iff_of_false (fun e => nomatch e) fun e => absurd (hover.mp h) (not_le.mpr e.1)
  · next h => rw [Option.some.injEq, and_iff_right (not_le.mp (hover.not.mp h))]

theorem toNat_reduceBytes (b : Vector UInt8 32) :
    (reduceBytes b).1.toNat = Bytes.toNatBE b.toList % prime := by
  rw [← toNat_pack]
  exact toNat_normalize (magnitude_mono (magnitude_pack b) (by decide))

/-- Bytes are read as the residue of their integer, with a flag exactly from the modulus on, and as
an element exactly below it; no word wraps on the way. What is read below the modulus is written as
it was, every canonical element is read back from what is written, and a string of any length is
read as its first 32 bytes behind as many zeros as they leave room for. -/
theorem byte_codec_exact :
    (∀ b : Vector UInt8 32,
      let n := Bytes.toNatBE b.toList
      pack? b = some (pack b) ∧ reduceBytes? b = some (reduceBytes b).1 ∧
      (reduceBytes b).1.Canonical ∧ (reduceBytes b).1.toNat = n % prime ∧
      ((reduceBytes b).2 = true ↔ prime ≤ n) ∧
      ((∃ a, ofBytes? b = some a) ↔ n < prime) ∧
      ∀ a, ofBytes? b = some a → a.Canonical ∧ a.toNat = n ∧ a.toBytes = b) ∧
    (∀ a : FieldElement, a.Canonical →
      unpack? a = some a.toBytes.toList ∧ ofBytes? a.toBytes = some a) ∧
    ∀ s : Bytes, ∃ b : Vector UInt8 32, b.toList = List.replicate (32 - s.length) 0 ++ s.take 32 ∧
      Bytes.toNatBE b.toList = Bytes.toNatBE (s.take 32) ∧ reduceSlice s = reduceBytes b := by
  refine ⟨fun b => ?_, fun a ha => ?_, fun s => ?_⟩
  · intro n
    refine ⟨pack?_eq b, reduceBytes?_eq b, canonical_reduceBytes b, toNat_reduceBytes b,
      reduceBytes_overflow_iff b, ?_, fun a ha => ?_⟩
    · simp only [ofBytes?_eq_some_iff]
      exact ⟨fun ⟨_, h, _⟩ => h, fun h => ⟨_, h, rfl⟩⟩
    · obtain ⟨hn, rfl⟩ := ofBytes?_eq_some_iff.mp ha
      exact ⟨canonical_pack hn, toNat_pack b, toBytes_pack hn⟩
  · refine ⟨unpack?_eq ha, ofBytes?_eq_some_iff.mpr ⟨?_, pack_toBytes ha⟩⟩
    rw [toNatBE_toBytes ha]
    exact ha.toNat_lt
  · exact ⟨s.window 32, rfl, Bytes.toNatBE_replicate_append _ _, rfl⟩

/-- On both sides of the modulus and at the greatest integer of 32 bytes. -/
theorem byte_codec_at_modulus :
    let bytes (n : Nat) : Vector UInt8 32 := Bytes.window 32 (Bytes.ofNatBE 32 n)
    (∃ a, ofBytes? (bytes (prime - 1)) = some a ∧ a.Canonical ∧ a.toNat = prime - 1 ∧
      a.toBytes = bytes (prime - 1) ∧ ofBytes? a.toBytes = some a) ∧
    (¬∃ a, ofBytes? (bytes prime) = some a) ∧
    (reduceBytes (bytes prime)).2 = true ∧ (reduceBytes (bytes prime)).1.toNat = 0 ∧
    (reduceBytes (bytes (2 ^ 256 - 1))).2 = true ∧
    (reduceBytes (bytes (2 ^ 256 - 1))).1.toNat = 2 ^ 256 - 1 - prime := by
  intro bytes
  obtain ⟨hread, hwrite, -⟩ := byte_codec_exact
  have hvalue (n : Nat) (hn : n < 256 ^ 32) : Bytes.toNatBE (bytes n).toList = n :=
    Bytes.toNatBE_window_ofNatBE hn
  have below := hread (bytes (prime - 1))
  have least := hread (bytes prime)
  have most := hread (bytes (2 ^ 256 - 1))
  simp only [hvalue _ (show prime - 1 < 256 ^ 32 by decide)] at below
  simp only [hvalue _ (show prime < 256 ^ 32 by decide)] at least
  simp only [hvalue _ (show 2 ^ 256 - 1 < 256 ^ 32 by decide)] at most
  obtain ⟨-, -, -, -, -, hbelow, hback⟩ := below
  obtain ⟨-, -, -, vleast, oleast, hleast, -⟩ := least
  obtain ⟨-, -, -, vmost, omost, -, -⟩ := most
  obtain ⟨a, ha⟩ := hbelow.mpr (by decide)
  obtain ⟨hcanonical, htoNat, htoBytes⟩ := hback a ha
  exact ⟨⟨a, ha, hcanonical, htoNat, htoBytes, (hwrite a hcanonical).2⟩,
    fun h => absurd (hleast.mp h) (by decide), oleast.mpr le_rfl, vleast.trans (Nat.mod_self _),
    omost.mpr (by decide), vmost.trans (by decide)⟩

end FieldElement

end CurveKeys.Secp256k1
