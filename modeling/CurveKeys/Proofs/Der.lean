import CurveKeys.Proofs.Bytes
import CurveKeys.Proofs.Words
import CurveKeys.Der

/-!
The integers and pairs of integers that short DER elements spell. An integer has one encoding, a
pair has one, and the faults that are reported are exactly what keeps content from being one.
-/

namespace CurveKeys.Der
open Bytes

theorem and_sign_eq_zero_iff (x : UInt8) : x &&& 0x80 = 0 ↔ x.toNat < 128 :=
  Words.of_byte_lt (P := fun x => x &&& 0x80 = 0 ↔ x.toNat < 128) (by decide +kernel) x.toNat_lt

/-- The content spells a non-negative integer in the fewest bytes, one at least, that keep the top
bit free for the sign. -/
structure IsInteger (content : Bytes) (v : Nat) : Prop where
  nonempty : 0 < content.length
  value : toNatBE content = v
  sign : 2 * v < 256 ^ content.length
  fewest : 1 < content.length → 256 ^ (content.length - 1) ≤ 2 * v

/-- The top bit of the first byte is the top bit of the integer. -/
theorem two_mul_toNatBE_lt_iff (d : UInt8) (r : Bytes) :
    2 * toNatBE (d :: r) < 256 ^ (d :: r).length ↔ d.toNat < 128 := by
  have hr := toNatBE_lt r
  rw [toNatBE_cons, List.length_cons, pow_succ]
  constructor
  · intro h
    by_contra hd
    have hm : 256 ^ r.length * 128 ≤ 256 ^ r.length * d.toNat :=
      Nat.mul_le_mul_left _ (not_lt.mp hd)
    omega
  · intro h
    have hm : 256 ^ r.length * d.toNat ≤ 256 ^ r.length * 127 :=
      Nat.mul_le_mul_left _ (Nat.le_of_lt_succ h)
    omega

theorem isInteger_singleton (d : UInt8) : IsInteger [d] (toNatBE [d]) ↔ d.toNat < 128 := by
  have hsign := two_mul_toNatBE_lt_iff d []
  exact ⟨fun h => hsign.mp h.sign,
    fun h => ⟨Nat.one_pos, rfl, hsign.mpr h, fun hl => absurd hl (lt_irrefl 1)⟩⟩

/-- Of more than one byte, the first is not a zero in front of a byte without the top bit. -/
theorem isInteger_cons_cons (d e : UInt8) (r : Bytes) :
    IsInteger (d :: e :: r) (toNatBE (d :: e :: r)) ↔
      d.toNat < 128 ∧ ¬(d = 0 ∧ e.toNat < 128) := by
  have hsign := two_mul_toNatBE_lt_iff d (e :: r)
  have hnext := two_mul_toNatBE_lt_iff e r
  constructor
  · intro h
    have hfew := h.fewest (Nat.succ_lt_succ (Nat.succ_pos _))
    refine ⟨hsign.mp h.sign, ?_⟩
    rintro ⟨rfl, he⟩
    rw [toNatBE_zero_cons] at hfew
    exact absurd (hnext.mpr he) (not_lt.mpr hfew)
  · rintro ⟨hd, hpad⟩
    refine ⟨Nat.succ_pos _, rfl, hsign.mpr hd, fun _ => ?_⟩
    by_cases h0 : d = 0
    · subst h0
      rw [toNatBE_zero_cons]
      exact not_lt.mp fun he => hpad ⟨rfl, hnext.mp he⟩
    · exact le_trans (pow_le_toNatBE_cons h0 (e :: r)) (Nat.le_mul_of_pos_left _ two_pos)

/-- Content without a fault is an integer, and the other way round. -/
theorem integerFault?_eq_none_iff (tag : UInt8) (content : Bytes) :
    integerFault? tag content = none ↔
      tag = integerTag ∧ IsInteger content (toNatBE content) := by
  unfold integerFault?
  by_cases ht : tag = integerTag
  · rw [if_neg (not_not.mpr ht), and_iff_right ht]
    -- by the first two bytes, which are all that the checks look at
    match content with
    | [] => exact ⟨fun h => (nomatch h), fun h => absurd h.nonempty (lt_irrefl 0)⟩
    | [d] => simp [isInteger_singleton, and_sign_eq_zero_iff]
    | d :: e :: r =>
        by_cases hd : d.toNat < 128 <;> simp [isInteger_cons_cons, and_sign_eq_zero_iff, hd]
  · rw [if_pos ht]
    exact ⟨fun h => (nomatch h), fun h => absurd h.1 ht⟩

theorem isInteger_integerBytes (b : Bytes) : IsInteger (integerBytes b) (toNatBE b) := by
  rw [← toNatBE_dropWhile, integerBytes]
  cases h : b.dropWhile (· == 0) with
  | nil => exact ⟨Nat.one_pos, rfl, by decide, fun hl => absurd hl (lt_irrefl 1)⟩
  | cons d r =>
      have h0 : d ≠ 0 := by
        have hhead := List.head?_dropWhile_not (· == (0 : UInt8)) b
        rw [h] at hhead
        simpa using hhead
      have hsign := two_mul_toNatBE_lt_iff d r
      have hlow := pow_le_toNatBE_cons h0 r
      simp only [and_sign_eq_zero_iff]
      split
      · next hd =>
          refine ⟨Nat.succ_pos _, rfl, hsign.mpr hd, fun _ => ?_⟩
          exact le_trans hlow (Nat.le_mul_of_pos_left _ two_pos)
      · next hd =>
          refine ⟨Nat.succ_pos _, toNatBE_zero_cons _, ?_, fun _ => ?_⟩
          · have hz := (two_mul_toNatBE_lt_iff 0 (d :: r)).mpr (by decide)
            rwa [toNatBE_zero_cons] at hz
          · exact not_lt.mp fun hlt => hd (hsign.mp hlt)

/-- An integer below half of `256 ^ n` has at most `n` bytes. -/
theorem IsInteger.length_le {content : Bytes} {v n : Nat} (h : IsInteger content v) (hn : 0 < n)
    (hv : 2 * v < 256 ^ n) : content.length ≤ n := by
  by_contra hlt
  have hfew := h.fewest (by omega)
  have hp : 256 ^ n ≤ 256 ^ (content.length - 1) := Nat.pow_le_pow_right (by decide) (by omega)
  omega

theorem IsInteger.unique {a b : Bytes} {v : Nat} (ha : IsInteger a v) (hb : IsInteger b v) :
    a = b := by
  have hab := ha.length_le hb.nonempty hb.sign
  have hba := hb.length_le ha.nonempty ha.sign
  exact eq_of_toNatBE_eq (le_antisymm hab hba) (ha.value.trans hb.value.symm)

/-- The bytes `30 length 02 length first 02 length second`. -/
def layout (first second : Bytes) : Bytes :=
  sequenceTag :: UInt8.ofNat (4 + first.length + second.length) ::
    integerTag :: UInt8.ofNat first.length ::
      (first ++ integerTag :: UInt8.ofNat second.length :: second)

/-- The string is the encoding of a sequence of exactly two non-negative integers. -/
def IsPair (b : Bytes) (r s : Nat) : Prop :=
  ∃ first second, IsInteger first r ∧ IsInteger second s ∧
    4 + first.length + second.length < 128 ∧ b = layout first second

theorem length_layout (first second : Bytes) :
    (layout first second).length = 6 + first.length + second.length := by
  simp only [layout, List.length_cons, List.length_append]
  omega

theorem pair_eq_layout (first second : Bytes) :
    pair first second = layout (integerBytes first) (integerBytes second) := by
  have hl : (element integerTag (integerBytes first) ++
      element integerTag (integerBytes second)).length =
        4 + (integerBytes first).length + (integerBytes second).length := by
    simp only [element, List.length_cons, List.length_append]
    omega
  rw [pair, element, hl]
  rfl

theorem toNat_ofNat_length {n : Nat} (h : n < 128) : (UInt8.ofNat n).toNat = n := by
  rw [UInt8.toNat_ofNat']
  omega

theorem layout_inj {a b c d : Bytes} (hab : 4 + a.length + b.length < 128)
    (hcd : 4 + c.length + d.length < 128) (h : layout a b = layout c d) : a = c ∧ b = d := by
  simp only [layout, List.cons.injEq, true_and] at h
  obtain ⟨-, hlength, hrest⟩ := h
  have hl := congrArg UInt8.toNat hlength
  rw [toNat_ofNat_length (by omega), toNat_ofNat_length (by omega)] at hl
  obtain ⟨hac, htail⟩ := List.append_inj hrest hl
  simp only [List.cons.injEq, true_and] at htail
  exact ⟨hac, htail.2⟩

theorem IsPair.unique {a b : Bytes} {r s : Nat} (ha : IsPair a r s) (hb : IsPair b r s) :
    a = b := by
  obtain ⟨first, second, hr, hs, -, rfl⟩ := ha
  obtain ⟨first', second', hr', hs', -, rfl⟩ := hb
  rw [hr.unique hr', hs.unique hs']

theorem IsPair.values {b : Bytes} {r s r' s' : Nat} (h : IsPair b r s) (h' : IsPair b r' s') :
    r = r' ∧ s = s' := by
  obtain ⟨first, second, hr, hs, hl, rfl⟩ := h
  obtain ⟨first', second', hr', hs', hl', he⟩ := h'
  obtain ⟨rfl, rfl⟩ := layout_inj hl hl' he
  exact ⟨hr.value.symm.trans hr'.value, hs.value.symm.trans hs'.value⟩

/-- The part of a string between two positions, when it lies inside the string. -/
def slice? (b : Bytes) (start stop : Nat) : Option Bytes :=
  if start ≤ stop ∧ stop ≤ b.length then some ((b.take stop).drop start) else none

/-- The fault of an integer, given the positions of its tag and of its content. -/
def faultAt? (b : Bytes) (tagAt start length : Nat) : Option (Option IntegerFault) := do
  if (← b[tagAt]?) ≠ integerTag then return some .wrongTag
  if length = 0 then return some .noContent
  let first ← b[start]?
  if first &&& 0x80 ≠ 0 then return some .negative
  if 1 < length ∧ first = 0 then
    if (← b[start + 1]?) &&& 0x80 = 0 then return some .padded
  return none

theorem faultAt?_eq {b content : Bytes} {tag : UInt8} {tagAt start : Nat}
    (htag : b[tagAt]? = some tag) (hcontent : content <+: b.drop start) :
    faultAt? b tagAt start content.length = some (integerFault? tag content) := by
  obtain ⟨tail, hb⟩ := hcontent
  have hread (i : Nat) (hi : i < content.length) : b[start + i]? = content[i]? := by
    rw [← List.getElem?_drop, ← hb, List.getElem?_append_left hi]
  unfold faultAt? integerFault?
  by_cases ht : tag = integerTag
  · match content with
    | [] => simp [htag, ht]
    | [d] =>
        have h0 := hread 0 (by simp)
        simp only [Nat.add_zero] at h0
        by_cases hd : d &&& 0x80 = 0 <;> simp [htag, ht, h0, hd]
    | d :: e :: r =>
        have h0 := hread 0 (by simp)
        have h1 := hread 1 (by simp)
        simp only [Nat.add_zero] at h0
        by_cases hd : d &&& 0x80 = 0
        · by_cases hz : d = 0
          · by_cases he : e &&& 0x80 = 0 <;> simp [htag, ht, h0, h1, hz, he]
          · simp [htag, ht, h0, hd, hz]
        · simp [htag, ht, h0, hd]
  · simp [htag, ht]

end CurveKeys.Der
