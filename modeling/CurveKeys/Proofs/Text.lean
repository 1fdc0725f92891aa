import CurveKeys.Proofs.Words
import CurveKeys.Text.Fixed

/-!
Byte strings as text. A text spells a string when the two digits of each byte stand one after the
other, in any mixture of letter cases. Reading accepts the texts that spell a string of the right
length and nothing else; writing gives the one among them that has a single letter case.
-/

namespace CurveKeys

namespace Hex

/-- The sixteen digits in order. -/
def Case.digits : Case → List Char
  | .lower => ['0', '1', '2', '3', '4', '5', '6', '7', '8', '9', 'a', 'b', 'c', 'd', 'e', 'f']
  | .upper => ['0', '1', '2', '3', '4', '5', '6', '7', '8', '9', 'A', 'B', 'C', 'D', 'E', 'F']

/-- A letter in the given case; other characters stay as they are. -/
def Case.fold : Case → Char → Char
  | .lower => Char.toLower
  | .upper => Char.toUpper

@[inherit_doc Case.fold]
def Case.foldText : Case → String → String
  | .lower => String.toLower
  | .upper => String.toUpper

theorem Case.toList_foldText (c : Case) (text : String) :
    (c.foldText text).toList = text.toList.map c.fold := by
  cases c <;> exact String.toList_map

/-- The character is the digit of a value in one of the letter cases. -/
def IsDigit (d : Char) (v : Nat) : Prop := ∃ c : Case, c.digits[v]? = some d

instance (d : Char) (v : Nat) : Decidable (IsDigit d v) :=
  decidable_of_iff ((Case.digits .lower)[v]? = some d ∨ (Case.digits .upper)[v]? = some d) (by
    constructor
    · exact fun h => h.elim (fun h => ⟨.lower, h⟩) fun h => ⟨.upper, h⟩
    · rintro ⟨c, h⟩
      cases c
      · exact Or.inl h
      · exact Or.inr h)

theorem IsDigit.lt {d : Char} {v : Nat} (h : IsDigit d v) : v < 16 := by
  obtain ⟨c, h⟩ := h
  obtain ⟨hlt, -⟩ := List.getElem?_eq_some_iff.mp h
  cases c <;> exact hlt

/-- The digit that is written is the one of the table. -/
theorem getElem?_digits (c : Case) : ∀ v < 16, c.digits[v]? = some (digit c (UInt8.ofNat v)) := by
  cases c <;> decide

theorem isDigit_digit (c : Case) {v : Nat} (h : v < 16) : IsDigit (digit c (UInt8.ofNat v)) v :=
  ⟨c, getElem?_digits c v h⟩

/-- Folding a digit of either case gives the digit that is written. -/
theorem IsDigit.fold_eq {d : Char} {v : Nat} (h : IsDigit d v) (c : Case) :
    c.fold d = digit c (UInt8.ofNat v) := by
  have table (k : Case) : ∀ v < 16, c.fold (digit k (UInt8.ofNat v)) = digit c (UInt8.ofNat v) := by
    cases c <;> cases k <;> decide
  obtain ⟨k, hk⟩ := h
  have hlt := IsDigit.lt ⟨k, hk⟩
  rw [getElem?_digits k v hlt, Option.some.injEq] at hk
  rw [← hk, table k v hlt]

theorem value?_of_isDigit {d : Char} {v : Nat} (h : IsDigit d v) :
    value? d = some (UInt8.ofNat v) := by
  have table (k : Case) : ∀ v < 16, value? (digit k (UInt8.ofNat v)) = some (UInt8.ofNat v) := by
    cases k <;> decide
  obtain ⟨k, hk⟩ := h
  have hlt := IsDigit.lt ⟨k, hk⟩
  rw [getElem?_digits k v hlt, Option.some.injEq] at hk
  rw [← hk, table k v hlt]

/-- A character within a row of consecutive digits is one of them. -/
theorem isDigit_of_row {d : Char} (low n offset : Nat)
    (table : ∀ k < n, IsDigit (Char.ofNat (low + k)) (UInt8.ofNat (k + offset)).toNat)
    (hlow : low ≤ d.toNat) (hhigh : d.toNat < low + n) :
    IsDigit d (UInt8.ofNat (d.toNat - low + offset)).toNat := by
  have h := table (d.toNat - low) (by omega)
  rwa [Nat.add_sub_cancel' hlow, Char.ofNat_toNat] at h

theorem isDigit_of_value? {d : Char} {v : UInt8} (h : value? d = some v) : IsDigit d v.toNat := by
  have bound {c e : Char} (he : c ≤ e) : c.toNat ≤ e.toNat := Char.le_def.mp he
  unfold value? at h
  split at h
  · next hd =>
      obtain rfl := Option.some.inj h
      exact isDigit_of_row 0x30 10 0 (by decide) (bound hd.1) (Nat.lt_succ_of_le (bound hd.2))
  · split at h
    · next hd =>
        obtain rfl := Option.some.inj h
        exact isDigit_of_row 0x61 6 10 (by decide) (bound hd.1) (Nat.lt_succ_of_le (bound hd.2))
    · split at h
      · next hd =>
          obtain rfl := Option.some.inj h
          exact isDigit_of_row 0x41 6 10 (by decide) (bound hd.1) (Nat.lt_succ_of_le (bound hd.2))
      · cases h

/-- The text spells the string, two digits to a byte. -/
inductive Spells : List Char → Bytes → Prop where
  | nil : Spells [] []
  | cons {high low : Char} {x : UInt8} {text : List Char} {b : Bytes}
      (hhigh : IsDigit high (x.toNat / 16)) (hlow : IsDigit low (x.toNat % 16))
      (hrest : Spells text b) : Spells (high :: low :: text) (x :: b)

/-- Two digits joined, and the two halves of a byte. -/
theorem toNat_joined {x y : UInt8} (hx : x.toNat < 16) (hy : y.toNat < 16) :
    (x <<< 4 ||| y).toNat = 16 * x.toNat + y.toNat := by
  have table : ∀ m < 16, ∀ n < 16, (UInt8.ofNat m <<< 4 ||| UInt8.ofNat n).toNat = 16 * m + n := by
    decide
  have h := table x.toNat hx y.toNat hy
  rwa [UInt8.ofNat_toNat, UInt8.ofNat_toNat] at h

theorem joined_halves (x : UInt8) :
    UInt8.ofNat (x.toNat / 16) <<< 4 ||| UInt8.ofNat (x.toNat % 16) = x :=
  Words.of_byte_lt
    (P := fun x => UInt8.ofNat (x.toNat / 16) <<< 4 ||| UInt8.ofNat (x.toNat % 16) = x)
    (by decide +kernel) x.toNat_lt

theorem high_half (x : UInt8) : x >>> 4 = UInt8.ofNat (x.toNat / 16) :=
  Words.of_byte_lt (P := fun x => x >>> 4 = UInt8.ofNat (x.toNat / 16)) (by decide +kernel)
    x.toNat_lt

theorem low_half (x : UInt8) : x &&& 15 = UInt8.ofNat (x.toNat % 16) :=
  Words.of_byte_lt (P := fun x => x &&& 15 = UInt8.ofNat (x.toNat % 16)) (by decide +kernel)
    x.toNat_lt

theorem decodeChars_of_spells {text : List Char} {b : Bytes} (h : Spells text b) :
    decodeChars text = some b := by
  induction h with
  | nil => rfl
  | cons hhigh hlow _ ih =>
      simp [decodeChars, value?_of_isDigit hhigh, value?_of_isDigit hlow, ih, joined_halves]

theorem spells_of_decodeChars {text : List Char} {b : Bytes} (h : decodeChars text = some b) :
    Spells text b := by
  induction text using decodeChars.induct generalizing b with
  | case1 =>
      obtain rfl := Option.some.inj h
      exact .nil
  | case2 _ => cases h
  | case3 high low rest ih =>
      simp only [decodeChars, Option.bind_eq_bind, Option.bind_eq_some_iff, Option.pure_def,
        Option.some.injEq] at h
      obtain ⟨x, hx, y, hy, r, hr, rfl⟩ := h
      have hhigh := isDigit_of_value? hx
      have hlow := isDigit_of_value? hy
      have hjoined := toNat_joined hhigh.lt hlow.lt
      refine .cons ?_ ?_ (ih hr)
      · rwa [hjoined, show (16 * x.toNat + y.toNat) / 16 = x.toNat by have := hlow.lt; omega]
      · rwa [hjoined, show (16 * x.toNat + y.toNat) % 16 = y.toNat by have := hlow.lt; omega]

theorem decode_eq_some_iff {text : String} {b : Bytes} :
    decode text = some b ↔ Spells text.toList b :=
  ⟨spells_of_decodeChars, decodeChars_of_spells⟩

theorem spells_encodeChars (c : Case) (b : Bytes) : Spells (encodeChars c b) b := by
  induction b with
  | nil => exact .nil
  | cons x b ih =>
      have hx := x.toNat_lt
      rw [encodeChars, List.flatMap_cons, high_half, low_half]
      exact .cons (isDigit_digit c (by omega)) (isDigit_digit c (by omega)) ih

/-- A text that spells a string is what is written, but for the case of its letters. -/
theorem encodeChars_eq_map_fold {text : List Char} {b : Bytes} (h : Spells text b) (c : Case) :
    encodeChars c b = text.map c.fold := by
  induction h with
  | nil => rfl
  | cons hhigh hlow _ ih =>
      rw [encodeChars, List.flatMap_cons, high_half, low_half, ← hhigh.fold_eq c, ← hlow.fold_eq c]
      exact congrArg (_ :: _ :: ·) ih

theorem decode_encode (c : Case) (b : Bytes) : decode (encode c b) = some b := by
  rw [decode_eq_some_iff, encode, String.toList_ofList]
  exact spells_encodeChars c b

theorem encode_eq_foldText {text : String} {b : Bytes} (h : Spells text.toList b) (c : Case) :
    encode c b = c.foldText text := by
  rw [← String.toList_inj, c.toList_foldText, encode, String.toList_ofList,
    encodeChars_eq_map_fold h]

theorem Spells.unique {text : List Char} {b c : Bytes} (hb : Spells text b)
    (hc : Spells text c) : b = c :=
  Option.some.inj ((decodeChars_of_spells hb).symm.trans (decodeChars_of_spells hc))

/-- Two characters to a byte. -/
theorem Spells.length_eq {text : List Char} {b : Bytes} (h : Spells text b) :
    text.length = 2 * b.length := by
  induction h with
  | nil => rfl
  | cons _ _ _ ih =>
      simp only [List.length_cons, ih]
      omega

end Hex

namespace TextError
open Hex (Spells)
variable {ε α : Type} {n : Nat} {decode : Bytes → Except ε α} {text : String}

theorem read_of_spells {b : Bytes} (h : Spells text.toList b) (hn : b.length = n) :
    read n decode text = (decode b).mapError refused := by
  rw [read, Hex.decode_eq_some_iff.mpr h]
  simp only [hn, if_true]
  cases decode b <;> rfl

theorem read_of_not (h : ¬∃ b, Spells text.toList b ∧ b.length = n) :
    read n decode text = .error notHex := by
  unfold read
  split
  · rfl
  · next b hb => exact if_neg fun hn => h ⟨b, Hex.decode_eq_some_iff.mp hb, hn⟩

theorem mapError_eq_ok_iff {ε' : Type} {result : Except ε α} {cause : ε → ε'} {a : α} :
    result.mapError cause = .ok a ↔ result = .ok a := by
  cases result with
  | error e => exact iff_of_false (fun h => nomatch h) fun h => nomatch h
  | ok b => rw [Except.mapError, Except.ok.injEq, Except.ok.injEq]

/-- A value is read from the spelling of bytes that decode to it. -/
theorem read_eq_ok_iff {a : α} :
    read n decode text = .ok a ↔ ∃ b, Spells text.toList b ∧ b.length = n ∧ decode b = .ok a := by
  by_cases h : ∃ b, Spells text.toList b ∧ b.length = n
  · obtain ⟨b, hb, hn⟩ := h
    rw [read_of_spells hb hn, mapError_eq_ok_iff]
    constructor
    · exact fun ha => ⟨b, hb, hn, ha⟩
    · rintro ⟨c, hc, -, ha⟩
      rwa [hb.unique hc]
  · rw [read_of_not h]
    exact iff_of_false (fun e => nomatch e) fun ⟨b, hb, hn, _⟩ => h ⟨b, hb, hn⟩

/-- What is written is read as what its bytes decode to. -/
theorem read_encode (c : Hex.Case) {b : Bytes} (hn : b.length = n) {a : α}
    (h : decode b = .ok a) : read n decode (Hex.encode c b) = .ok a :=
  read_eq_ok_iff.mpr ⟨b, Hex.decode_eq_some_iff.mp (Hex.decode_encode c b), hn, h⟩

end TextError

end CurveKeys
