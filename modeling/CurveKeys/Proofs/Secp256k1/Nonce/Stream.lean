import CurveKeys.Proofs.Secp256k1.Nonce

/-!
The nonces of a seed are the usable blocks of the stream that RFC 6979 defines for it in section
3.2, in the order of the stream. The seed is laid out in one buffer and the nonces met are counted
in a word; neither the buffer nor the word is ever left.
-/

namespace CurveKeys.Secp256k1.Nonce
open Scalar (order)

/-- `K` and `V` after steps b to g of section 3.2, and after updates of them in step h. -/
def keyValue (mac : Mac) (seed : Bytes) : Nat → Bytes × Bytes
  | 0 =>
    let V := List.replicate 32 0x01
    let K := List.replicate 32 0x00
    let K := (mac K (V ++ [0x00] ++ seed)).toList
    let V := (mac K V).toList
    let K := (mac K (V ++ [0x01] ++ seed)).toList
    (K, (mac K V).toList)
  | j + 1 =>
    let (K, V) := keyValue mac seed j
    let V := (mac K V).toList
    let K := (mac K (V ++ [0x00])).toList
    (K, (mac K V).toList)

/-- The block `T` that step h comes to after `j` updates. -/
def stream (mac : Mac) (seed : Bytes) (j : Nat) : Vector UInt8 32 :=
  mac (keyValue mac seed j).1 (keyValue mac seed j).2

/-- Zeros on the left of a string that is too short, and the front of one that is too long. -/
def pad32 (b : Bytes) : Bytes :=
  if b.length ≤ 32 then List.replicate (32 - b.length) 0 ++ b else b.take 32

/-- A string of another length than the one it should have does not count. -/
def selected (n : Nat) (b : Bytes) : Option Bytes :=
  if b.length = n then some b else none

/-- What follows the key and the hash. -/
def optionalParts (extra version : Bytes) : Bytes :=
  match selected 32 extra, selected 16 version with
  | none, none => []
  | some extra, none => extra
  | none, some version => List.replicate 32 0x00 ++ version
  | some extra, some version => extra ++ version

/-- A part of a buffer written over with as many bytes. -/
def copy? (buffer : Bytes) (start size : Nat) (b : Bytes) : Option Bytes :=
  if start + size ≤ buffer.length ∧ b.length = size then
    some (buffer.take start ++ b ++ buffer.drop (start + size))
  else none

/-- The right end of 32 bytes of a buffer written over. -/
def copyPadded? (buffer : Bytes) (start : Nat) (b : Bytes) : Option Bytes :=
  let b := if 32 < b.length then b.take 32 else b
  copy? buffer (start + (32 - b.length)) b.length b

def front? (buffer : Bytes) (size : Nat) : Option Bytes :=
  if size ≤ buffer.length then some (buffer.take size) else none

/-- The optional parts behind the first 64 bytes of a buffer, and the front that holds all parts. -/
def options? (buffer extra version : Bytes) : Option Bytes := do
  let offset := 2 * 32
  let buffer ← if extra.length = 32 then copy? buffer offset 32 extra else some buffer
  if version.length = 16 then do
    let offset := offset + 32
    let buffer ← copy? buffer offset 16 version
    front? buffer (offset + 16)
  else if extra.length = 32 then front? buffer (offset + 32)
  else front? buffer offset

/-- The seed, in a buffer of zeros with room for all parts. -/
def seed? (key hash extra version : Bytes) : Option Bytes := do
  let buffer ← copyPadded? (List.replicate (2 * 32 + 32 + 16) 0) 0 key
  let buffer ← copyPadded? buffer 32 hash
  options? buffer extra version

/-- The nonce with index `skip`, from the seed in the buffer and by the loop with a counter. -/
def generate? (mac : Mac) (budget : Nat) (key hash extra version : Bytes) (skip : UInt32) :
    Option Scalar := do
  let seed ← seed? key hash extra version
  Generator.search? mac ofBlock? skip budget 0 (Generator.start mac seed)

theorem toList_window (b : Bytes) : (b.window 32).toList = pad32 b := by
  rw [Bytes.toList_window, pad32]
  split
  · next h => rw [List.take_of_length_le h]
  · next h => rw [Nat.sub_eq_zero_of_le (by omega), List.replicate_zero, List.nil_append]

theorem length_pad32 (b : Bytes) : (pad32 b).length = 32 := by
  rw [← toList_window, Vector.length_toList]

theorem pad32_of_length {b : Bytes} (h : b.length = 32) : pad32 b = b := by
  rw [pad32, if_pos h.le, h, Nat.sub_self, List.replicate_zero, List.nil_append]

theorem seed_eq (key hash extra version : Bytes) :
    seed key hash extra version = pad32 key ++ pad32 hash ++ optionalParts extra version := by
  rw [seed, toList_window, toList_window, optionalParts, selected, selected]
  by_cases he : extra.length = 32 <;> by_cases hv : version.length = 16 <;> simp [he, hv]

theorem copy?_append {a old b : Bytes} {start size : Nat} (c : Bytes) (ha : a.length = start)
    (hold : old.length = size) (hb : b.length = size) :
    copy? (a ++ old ++ c) start size b = some (a ++ b ++ c) := by
  subst ha hb
  rw [copy?, if_pos ⟨by simp only [List.length_append]; omega, rfl⟩, List.append_assoc a old c,
    List.take_left, ← hold, ← List.length_append, ← List.append_assoc a old c, List.drop_left]

theorem copyPadded?_append {a : Bytes} {start : Nat} (b c : Bytes) (ha : a.length = start) :
    copyPadded? (a ++ List.replicate 32 0 ++ c) start b = some (a ++ pad32 b ++ c) := by
  have hfront : (if 32 < b.length then b.take 32 else b) = b.take 32 := by
    split
    · rfl
    · next h => exact (List.take_of_length_le (not_lt.mp h)).symm
  have hlen : (b.take 32).length ≤ 32 := List.length_take_le 32 b
  have hpad : pad32 b = List.replicate (32 - (b.take 32).length) 0 ++ b.take 32 := by
    rw [← toList_window, Bytes.toList_window, List.length_take]
    congr 2
    omega
  have hsplit : List.replicate 32 (0 : UInt8) =
      List.replicate (32 - (b.take 32).length) 0 ++ List.replicate (b.take 32).length 0 := by
    rw [List.replicate_append_replicate, Nat.sub_add_cancel hlen]
  rw [copyPadded?, hfront, hpad, hsplit, ← List.append_assoc, ← List.append_assoc]
  exact copy?_append c (by rw [List.length_append, List.length_replicate, ha])
    (List.length_replicate) rfl

theorem front?_append {a : Bytes} {size : Nat} (c : Bytes) (ha : a.length = size) :
    front? (a ++ c) size = some a := by
  subst ha
  rw [front?, if_pos (by simp only [List.length_append]; omega), List.take_left]

theorem options?_eq {head : Bytes} (hhead : head.length = 2 * 32) (extra version : Bytes) :
    options? (head ++ List.replicate (32 + 16) 0) extra version =
      some (head ++ optionalParts extra version) := by
  have hversion {e : Bytes} (he : e.length = 32) (hv : version.length = 16) :
      copy? (head ++ e ++ List.replicate 16 0) (2 * 32 + 32) 16 version =
        some (head ++ (e ++ version)) := by
    have hlen : (head ++ e).length = 2 * 32 + 32 := by rw [List.length_append, hhead, he]
    have hcopy := copy?_append [] hlen (List.length_replicate (n := 16) (a := 0)) hv
    rwa [List.append_nil, List.append_nil, List.append_assoc _ e version] at hcopy
  have hall {e : Bytes} (he : e.length = 32) (hv : version.length = 16) :
      front? (head ++ (e ++ version)) (2 * 32 + 32 + 16) = some (head ++ (e ++ version)) := by
    rw [← List.append_nil (head ++ _),
      front?_append [] (by simp only [List.length_append, hhead, he, hv]), List.append_nil]
  rw [options?, optionalParts, selected, selected, ← List.replicate_append_replicate,
    ← List.append_assoc]
  by_cases he : extra.length = 32
  · simp only [if_pos he, copy?_append _ hhead List.length_replicate he, Option.bind_eq_bind,
      Option.bind_some]
    by_cases hv : version.length = 16
    · simp only [if_pos hv, hversion he hv, Option.bind_some, hall he hv]
    · simp only [if_neg hv]
      exact front?_append _ (by rw [List.length_append, hhead, he])
  · simp only [if_neg he, Option.bind_eq_bind, Option.bind_some]
    by_cases hv : version.length = 16
    · simp only [if_pos hv, hversion List.length_replicate hv, Option.bind_some,
        hall List.length_replicate hv]
    · simp only [if_neg hv, List.append_nil, List.append_assoc]
      exact front?_append _ hhead

/-- Each part lies where the one before it ends, so the front of the buffer is the seed. -/
theorem seed?_eq (key hash extra version : Bytes) :
    seed? key hash extra version = some (seed key hash extra version) := by
  have hkey : copyPadded? (List.replicate (2 * 32 + 32 + 16) 0) 0 key =
      some (pad32 key ++ List.replicate (32 + (32 + 16)) 0) :=
    copyPadded?_append (a := []) key (List.replicate 80 0) rfl
  have hhash : copyPadded? (pad32 key ++ List.replicate (32 + (32 + 16)) 0) 32 hash =
      some (pad32 key ++ pad32 hash ++ List.replicate (32 + 16) 0) := by
    rw [← copyPadded?_append hash _ (length_pad32 key), List.append_assoc,
      List.replicate_append_replicate]
  have hlen : (pad32 key ++ pad32 hash).length = 2 * 32 := by
    rw [List.length_append, length_pad32, length_pad32]
  rw [seed?, Words.bind_eq_of_eq_some hkey, Words.bind_eq_of_eq_some hhash, options?_eq hlen,
    seed_eq]

theorem keyValue_eq (mac : Mac) (seed : Bytes) (j : Nat) :
    keyValue mac seed j = (((Generator.start mac seed).after mac j).key.toList,
      ((Generator.start mac seed).after mac j).value.toList) := by
  induction j with
  | zero => simp [keyValue, Generator.after, Generator.start, Generator.absorb]
  | succ j ih => simp only [keyValue, ih, Generator.after, Generator.block, Generator.absorb]

theorem stream_eq (mac : Mac) (seed : Bytes) (j : Nat) :
    stream mac seed j = (Generator.start mac seed).blockAt mac j := by
  rw [stream, keyValue_eq, Generator.blockAt, Generator.block]

/-- `k` is what block `j` spells, and as many usable blocks come before that one as the index
says. -/
structure IsNonce (blocks : Nat → Vector UInt8 32) (skip j : Nat) (k : Scalar) : Prop where
  usable : Usable (blocks j)
  index : Nat.count (fun i => Usable (blocks i)) j = skip
  value : k.toNat = Bytes.toNatBE (blocks j).toList

theorem IsNonce.range {blocks : Nat → Vector UInt8 32} {skip j : Nat} {k : Scalar}
    (h : IsNonce blocks skip j k) : 1 ≤ k.toNat ∧ k.toNat < order := by
  rw [h.value]
  exact h.usable

/-- Every usable block is a nonce, with the index that the blocks before it leave for it. -/
theorem exists_isNonce {blocks : Nat → Vector UInt8 32} {j : Nat} (h : Usable (blocks j)) :
    ∃ k, IsNonce blocks (Nat.count (fun i => Usable (blocks i)) j) j k :=
  ⟨(Scalar.reduceBytes (blocks j)).1, h, rfl,
    (Scalar.toNat_reduceBytes _).trans (Nat.mod_eq_of_lt h.2)⟩

/-- With more usable blocks than are to be passed over there is a nonce. -/
theorem exists_isNonce_of_lt_count {blocks : Nat → Vector UInt8 32} {skip bound : Nat}
    (h : skip < Nat.count (fun i => Usable (blocks i)) bound) :
    ∃ j < bound, ∃ k, IsNonce blocks skip j k := by
  have hcard := fun hf => h.trans_le (Nat.count_le_card hf bound)
  obtain ⟨k, hk⟩ := exists_isNonce (Nat.nth_mem skip hcard)
  rw [Nat.count_nth hcard] at hk
  exact ⟨_, Nat.nth_lt_of_lt_count h, k, hk⟩

/-- Without optional parts the seed is the key and the hash. -/
theorem seed_of_key (key : Vector UInt8 32) (hash : Bytes) :
    seed key.toList hash [] [] = key.toList ++ pad32 hash := by
  have hnone : optionalParts [] [] = [] := rfl
  rw [seed_eq, pad32_of_length key.length_toList, hnone, List.append_nil]

theorem generate_eq_some_iff {mac : Mac} {budget skip : Nat} {key hash extra version : Bytes}
    {k : Scalar} : generate mac budget key hash extra version skip = some k ↔
      ∃ j < budget, IsNonce (stream mac (seed key hash extra version)) skip j k := by
  rw [generate, Generator.search_eq_some_iff]
  simp only [Generator.candidates, ← stream_eq, isSome_ofBlock?, ofBlock?_eq_some_iff]
  exact exists_congr fun j => and_congr_right fun _ =>
    ⟨fun h => ⟨h.2.1, h.1, h.2.2⟩, fun h => ⟨h.index, h.usable, h.value⟩⟩

theorem IsNonce.unique {blocks : Nat → Vector UInt8 32} {skip i j : Nat} {k l : Scalar}
    (h : IsNonce blocks skip i k) (h' : IsNonce blocks skip j l) : i = j :=
  Nat.count_injective h.usable h'.usable (h.index.trans h'.index.symm)

/-- The loop ends at the block of the nonce, no sooner and no later. -/
theorem generate_eq {mac : Mac} {skip j : Nat} {key hash extra version : Bytes} {k : Scalar}
    (h : IsNonce (stream mac (seed key hash extra version)) skip j k) (budget : Nat) :
    generate mac budget key hash extra version skip = if j < budget then some k else none := by
  split
  · next hj => exact generate_eq_some_iff.mpr ⟨j, hj, h⟩
  · next hj =>
      refine Option.eq_none_iff_forall_ne_some.mpr fun l hl => ?_
      obtain ⟨i, hi, hl⟩ := generate_eq_some_iff.mp hl
      exact hj (hl.unique h ▸ hi)

theorem generate?_eq (mac : Mac) (budget : Nat) (key hash extra version : Bytes) {skip : UInt32}
    (hskip : skip.toNat < 2 ^ 32 - 1) : generate? mac budget key hash extra version skip =
      generate mac budget key hash extra version skip.toNat := by
  rw [generate?, Words.bind_eq_of_eq_some (seed?_eq key hash extra version),
    Generator.search?_eq hskip (Nat.zero_add _), generate]

/-- The search ends with `k` once it has seen block `j`, and so does the loop with a counter. -/
def EndsAt (mac : Mac) (key hash extra version : Bytes) (skip : UInt32) (j : Nat) (k : Scalar) :
    Prop :=
  ∀ budget, generate mac budget key hash extra version skip.toNat =
      (if j < budget then some k else none) ∧
    generate? mac budget key hash extra version skip = if j < budget then some k else none

theorem IsNonce.endsAt {mac : Mac} {key hash extra version : Bytes} {skip : UInt32} {j : Nat}
    {k : Scalar} (h : IsNonce (stream mac (seed key hash extra version)) skip.toNat j k)
    (hskip : skip.toNat < 2 ^ 32 - 1) : EndsAt mac key hash extra version skip j k := fun budget =>
  ⟨generate_eq h budget,
    (generate?_eq mac budget key hash extra version hskip).trans (generate_eq h budget)⟩

/-- The usable blocks before a nonce are the nonces with smaller indices. -/
theorem IsNonce.exists_earlier {blocks : Nat → Vector UInt8 32} {skip : UInt32} {i j : Nat}
    {k : Scalar} (h : IsNonce blocks skip.toNat j k) (hi : i < j) (hu : Usable (blocks i)) :
    ∃ earlier < skip, ∃ l, IsNonce blocks earlier.toNat i l := by
  obtain ⟨l, hl⟩ := exists_isNonce hu
  have hcount := Nat.count_strict_mono (p := fun i => Usable (blocks i)) hu hi
  rw [h.index] at hcount
  generalize Nat.count (fun i => Usable (blocks i)) i = count at hcount hl
  have hnat : (UInt32.ofNat count).toNat = count :=
    UInt32.toNat_ofNat_of_lt' (hcount.trans skip.toNat_lt)
  exact ⟨.ofNat count, UInt32.lt_iff_toNat_lt.mpr (hnat.symm ▸ hcount), l, hnat.symm ▸ hl⟩

/-- If the stream of the padded and the selected parts has a usable block more than the index, the
nonce with this index is found, and all usable blocks before it are the nonces before it. Nothing
else of the inputs counts. -/
theorem generate_enumerates (mac : Mac) (key hash extra version : Bytes) {skip : UInt32}
    {bound : Nat} (hskip : skip.toNat < 2 ^ 32 - 1)
    (henough : skip.toNat + 1 ≤ Nat.count (fun i => Usable
      (stream mac (pad32 key ++ pad32 hash ++ optionalParts extra version) i)) bound) :
    let blocks := stream mac (pad32 key ++ pad32 hash ++ optionalParts extra version)
    (∃ j < bound, ∃ k, IsNonce blocks skip.toNat j k ∧ 1 ≤ k.toNat ∧ k.toNat < order ∧
      EndsAt mac key hash extra version skip j k ∧
      ∀ i < j, Usable (blocks i) → ∃ earlier < skip, ∃ l, IsNonce blocks earlier.toNat i l ∧
        EndsAt mac key hash extra version earlier i l) ∧
    ∀ key' hash' extra' version', pad32 key' = pad32 key → pad32 hash' = pad32 hash →
      optionalParts extra' version' = optionalParts extra version →
      ∀ budget, generate? mac budget key' hash' extra' version' skip =
        generate? mac budget key hash extra version skip := by
  rw [← seed_eq] at henough ⊢
  constructor
  · obtain ⟨j, hj, k, hk⟩ := exists_isNonce_of_lt_count (Nat.lt_of_succ_le henough)
    refine ⟨j, hj, k, hk, hk.range.1, hk.range.2, hk.endsAt hskip, fun i hi hu => ?_⟩
    obtain ⟨earlier, hlt, l, hl⟩ := hk.exists_earlier hi hu
    exact ⟨earlier, hlt, l, hl, hl.endsAt ((UInt32.lt_iff_toNat_lt.mp hlt).trans hskip)⟩
  · intro key' hash' extra' version' hkey hhash hoptional budget
    rw [generate?, generate?, seed?_eq, seed?_eq, seed_eq, seed_eq, hkey, hhash, hoptional]

/-- With this keyed hash the stream begins 7, 0, 9. The second block is passed over. -/
theorem generate_enumerates_past_zero :
    let mac : Mac := fun key message =>
      Bytes.window 32 (Bytes.ofNatBE 32 ((Bytes.toNatBE (key ++ message) + 1) % 23))
    let version := List.replicate 16 0x07
    let blocks := stream mac (pad32 [1] ++ pad32 [] ++ optionalParts [] version)
    (1 : UInt32).toNat < 2 ^ 32 - 1 ∧ ¬ Usable (blocks 1) ∧
      (1 : UInt32).toNat + 1 ≤ Nat.count (fun i => Usable (blocks i)) 3 ∧
      ∃ k, k.toNat = 9 ∧ IsNonce blocks 1 2 k ∧ EndsAt mac [1] [] [] version 1 2 k := by
  intro mac version blocks
  have hunusable : ¬ Usable (blocks 1) := by decide +kernel
  have hcount : (1 : UInt32).toNat + 1 ≤ Nat.count (fun i => Usable (blocks i)) 3 := by
    decide +kernel
  obtain ⟨⟨j, hj, k, hk, -, -, hends, -⟩, -⟩ :=
    generate_enumerates mac [1] [] [] version (by decide) hcount
  have h0 : j ≠ 0 := fun h => absurd hk.index (by rw [h]; decide)
  have h1 : j ≠ 1 := fun h => hunusable (h ▸ hk.usable)
  obtain rfl : j = 2 := by omega
  have hvalue : Bytes.toNatBE (blocks 2).toList = 9 := by decide +kernel
  exact ⟨by decide, hunusable, hcount, k, hk.value.trans hvalue, hk, hends⟩

end CurveKeys.Secp256k1.Nonce
