import CurveKeys.Hash.Hmac
import CurveKeys.Proofs.Bytes
import CurveKeys.Proofs.Words

/-!
SHA-256 in natural numbers. Words are integers below `2 ^ 32`: sums and shifts to the left are taken
modulo `2 ^ 32`, all else keeps an integer below it. The digests are those of the computation in
words, and so are the tags of HMAC. On closed messages the kernel evaluates this form many times
faster.
-/

namespace CurveKeys.Sha256.Numeric

def rotate (x n : Nat) : Nat := x >>> n ||| x <<< (32 - n) % 0x100000000

def early (x : Nat) : Nat := rotate x 7 ^^^ rotate x 18 ^^^ x >>> 3

def late (x : Nat) : Nat := rotate x 17 ^^^ rotate x 19 ^^^ x >>> 10

structure State where
  a : Nat
  b : Nat
  c : Nat
  d : Nat
  e : Nat
  f : Nat
  g : Nat
  h : Nat

namespace State

/-- The working words as integers. -/
def ofWords (s : Sha256.State) : State :=
  ⟨s.a.toNat, s.b.toNat, s.c.toNat, s.d.toNat, s.e.toNat, s.f.toNat, s.g.toNat, s.h.toNat⟩

def add (s t : State) : State :=
  ⟨(s.a + t.a) % 0x100000000, (s.b + t.b) % 0x100000000, (s.c + t.c) % 0x100000000,
    (s.d + t.d) % 0x100000000, (s.e + t.e) % 0x100000000, (s.f + t.f) % 0x100000000,
    (s.g + t.g) % 0x100000000, (s.h + t.h) % 0x100000000⟩

def words (s : State) : List Nat := [s.a, s.b, s.c, s.d, s.e, s.f, s.g, s.h]

end State

def round (s : State) (k w : Nat) : State :=
  let sum1 := rotate s.e 6 ^^^ rotate s.e 11 ^^^ rotate s.e 25
  let choice := s.e &&& s.f ^^^ (0xFFFFFFFF - s.e) &&& s.g
  let t1 := s.h + sum1 + choice + k + w
  let sum0 := rotate s.a 2 ^^^ rotate s.a 13 ^^^ rotate s.a 22
  let majority := s.a &&& s.b ^^^ s.a &&& s.c ^^^ s.b &&& s.c
  ⟨(t1 + (sum0 + majority)) % 0x100000000, s.a, s.b, s.c, (s.d + t1) % 0x100000000, s.e, s.f, s.g⟩

/-- The window of sixteen schedule words, one word later. -/
def advance (w : List Nat) : List Nat :=
  w.drop 1 ++
    [(w.getD 0 0 + early (w.getD 1 0) + w.getD 9 0 + late (w.getD 14 0)) % 0x100000000]

def rounds : List Nat → List Nat → State → State
  | [], _, s => s
  | k :: ks, w, s => rounds ks (advance w) (round s k (w.getD 0 0))

def compress (s : State) (block : List Nat) : State :=
  s.add (rounds (roundConstants.map UInt32.toNat) block s)

def blockWords (b : Bytes) : List Nat :=
  (List.range 16).map fun i => Bytes.toNatBE ((b.drop (4 * i)).take 4)

def blocks : Nat → State → Bytes → State
  | 0, s, _ => s
  | n + 1, s, b => blocks n (compress s (blockWords b)) (b.drop 64)

def hash (message : Bytes) : Vector UInt8 32 :=
  let padded := message ++ padding message.length
  let digest := blocks (padded.length / 64) (.ofWords .initial) padded
  Bytes.window 32 (digest.words.flatMap (Bytes.ofNatBE 4))

theorem toNat_rotate (x : UInt32) {n : UInt32} (m : Nat) (hn : n.toNat = m) (h0 : 0 < m)
    (h : m < 32) : (Sha256.rotate x n).toNat = rotate x.toNat m := by
  have hsub : (32 - n).toNat = 32 - m := by
    rw [Words.toNat_sub32 (by rw [hn]; exact h.le), hn]
    rfl
  rw [Sha256.rotate, rotate, UInt32.toNat_or, UInt32.toNat_shiftRight, UInt32.toNat_shiftLeft, hsub,
    hn, Nat.mod_eq_of_lt h, Nat.mod_eq_of_lt (show 32 - m < 32 by omega)]

theorem toNat_early (x : UInt32) : (Sha256.early x).toNat = early x.toNat := by
  rw [Sha256.early, early, UInt32.toNat_xor, UInt32.toNat_xor,
    toNat_rotate x 7 rfl (by decide) (by decide), toNat_rotate x 18 rfl (by decide) (by decide),
    UInt32.toNat_shiftRight]
  rfl

theorem toNat_late (x : UInt32) : (Sha256.late x).toNat = late x.toNat := by
  rw [Sha256.late, late, UInt32.toNat_xor, UInt32.toNat_xor,
    toNat_rotate x 17 rfl (by decide) (by decide), toNat_rotate x 19 rfl (by decide) (by decide),
    UInt32.toNat_shiftRight]
  rfl

theorem ofWords_add (s t : Sha256.State) :
    .ofWords (s.add t) = (State.ofWords s).add (.ofWords t) := by
  simp only [Sha256.State.add, State.add, State.ofWords, UInt32.toNat_add, Nat.reducePow]

theorem ofWords_round (s : Sha256.State) (k w : UInt32) :
    .ofWords (Sha256.round s k w) = round (.ofWords s) k.toNat w.toNat := by
  have hsum1 : (Sha256.rotate s.e 6 ^^^ Sha256.rotate s.e 11 ^^^ Sha256.rotate s.e 25).toNat =
      rotate s.e.toNat 6 ^^^ rotate s.e.toNat 11 ^^^ rotate s.e.toNat 25 := by
    rw [UInt32.toNat_xor, UInt32.toNat_xor, toNat_rotate s.e 6 rfl (by decide) (by decide),
      toNat_rotate s.e 11 rfl (by decide) (by decide),
      toNat_rotate s.e 25 rfl (by decide) (by decide)]
  have hsum0 : (Sha256.rotate s.a 2 ^^^ Sha256.rotate s.a 13 ^^^ Sha256.rotate s.a 22).toNat =
      rotate s.a.toNat 2 ^^^ rotate s.a.toNat 13 ^^^ rotate s.a.toNat 22 := by
    rw [UInt32.toNat_xor, UInt32.toNat_xor, toNat_rotate s.a 2 rfl (by decide) (by decide),
      toNat_rotate s.a 13 rfl (by decide) (by decide),
      toNat_rotate s.a 22 rfl (by decide) (by decide)]
  have hones : UInt32.size - 1 = 0xFFFFFFFF := rfl
  simp only [Sha256.round, round, State.ofWords, UInt32.toNat_add, hsum1, hsum0, UInt32.toNat_xor,
    UInt32.toNat_and, UInt32.toNat_not, hones, Nat.mod_add_mod, Nat.add_mod_mod, Nat.reducePow]

theorem getD_words (w : Schedule UInt32) {i : Nat} (h : i < 16) :
    (w.toList.map UInt32.toNat).getD i 0 = w[i].toNat := by
  rw [List.getD_eq_getElem _ _ (by simpa using h), List.getElem_map, Vector.getElem_toList]

theorem words_advance (w : Schedule UInt32) :
    (w.advance Sha256.early Sha256.late).toList.map UInt32.toNat =
      advance (w.toList.map UInt32.toNat) := by
  rw [Schedule.advance, Vector.toList_drop, Vector.toList_push,
    List.drop_append_of_le_length (by simp), List.map_append, List.map_drop, advance,
    getD_words w (by decide), getD_words w (by decide), getD_words w (by decide),
    getD_words w (by decide), ← toNat_early, ← toNat_late, Schedule.next]
  simp only [List.map_cons, List.map_nil, UInt32.toNat_add, Nat.mod_add_mod, Nat.reducePow]

theorem ofWords_rounds (ks : List UInt32) (w : Schedule UInt32) (s : Sha256.State) :
    .ofWords (Sha256.rounds ks w s) =
      rounds (ks.map UInt32.toNat) (w.toList.map UInt32.toNat) (.ofWords s) := by
  induction ks generalizing w s with
  | nil => rfl
  | cons k ks ih =>
      rw [Sha256.rounds, ih, words_advance, ofWords_round, List.map_cons, rounds,
        getD_words w (by decide), Schedule.oldest]

theorem ofWords_compress (s : Sha256.State) (block : Schedule UInt32) :
    .ofWords (Sha256.compress s block) =
      compress (.ofWords s) (block.toList.map UInt32.toNat) := by
  rw [Sha256.compress, ofWords_add, ofWords_rounds, compress]

/-- Each byte moves the ones before it up, the highest of four out of the word. -/
theorem toNat_word (b : Bytes) : (word b).toNat = Bytes.toNatBE b % 0x100000000 := by
  induction b using List.reverseRecOn with
  | nil => rfl
  | append_singleton b x ih =>
      have hx := Words.toNat_byte_lt x
      have hbyte : Bytes.toNatBE [x] = x.toUInt32.toNat := by
        rw [Bytes.toNatBE_cons, UInt8.toNat_toUInt32]
        simp [Bytes.toNatBE]
      have hshift : (word b <<< 8).toNat = 2 ^ 8 * ((word b).toNat % 2 ^ 24) := by
        have h8 : (8 : UInt32).toNat % 32 = 8 := rfl
        rw [UInt32.toNat_shiftLeft, h8, Nat.shiftLeft_eq]
        omega
      have hword : word (b ++ [x]) = word b <<< 8 ||| x.toUInt32 := by
        rw [word, List.foldl_append]
        rfl
      rw [hword, UInt32.toNat_or, hshift, ← Nat.two_pow_add_eq_or_of_lt hx, ih,
        Bytes.toNatBE_append, hbyte, List.length_singleton]
      omega

theorem words_blockWords (b : Bytes) :
    (Sha256.blockWords b).toList.map UInt32.toNat = blockWords b := by
  have hfour (i : Nat) : Bytes.toNatBE ((b.drop (4 * i)).take 4) % 0x100000000 =
      Bytes.toNatBE ((b.drop (4 * i)).take 4) := by
    have hlt := Bytes.toNatBE_lt ((b.drop (4 * i)).take 4)
    have hlen : ((b.drop (4 * i)).take 4).length ≤ 4 := List.length_take_le _ _
    exact Nat.mod_eq_of_lt (hlt.trans_le (Nat.pow_le_pow_right (by decide) hlen))
  rw [Sha256.blockWords, Vector.toList_ofFn, List.map_ofFn, blockWords, List.ofFn_eq_map,
    ← List.map_coe_finRange_eq_range, List.map_map]
  refine List.map_congr_left fun i _ => ?_
  rw [Function.comp_apply, Function.comp_apply, toNat_word, hfour]

theorem ofWords_blocks (n : Nat) (s : Sha256.State) (b : Bytes) :
    .ofWords (Sha256.blocks n s b) = blocks n (.ofWords s) b := by
  induction n generalizing s b with
  | zero => rfl
  | succ n ih => rw [Sha256.blocks, ih, ofWords_compress, words_blockWords, blocks]

theorem bytesOfWord_eq (w : UInt32) : bytesOfWord w = Bytes.ofNatBE 4 w.toNat := by
  have hbyte {k : UInt32} (n : Nat) (hk : k.toNat = n) (hn : n < 32) :
      (w >>> k).toUInt8 = UInt8.ofNat (w.toNat / 2 ^ n) := by
    rw [← UInt8.toNat_inj, UInt32.toNat_toUInt8, Words.toNat_shiftRight32 w n hk hn,
      UInt8.toNat_ofNat']
  rw [bytesOfWord, hbyte 24 rfl (by decide), hbyte 16 rfl (by decide), hbyte 8 rfl (by decide)]
  simp [Bytes.ofNatBE, Bytes.ofNatLE, Nat.div_div_eq_div_mul]

theorem hash_eq (message : Bytes) : Sha256.hash message = hash message := by
  have hwords (s : Sha256.State) : (State.ofWords s).words = s.words.map UInt32.toNat := rfl
  rw [Sha256.hash, hash, ← ofWords_blocks, hwords, List.flatMap_map,
    funext bytesOfWord_eq]

end CurveKeys.Sha256.Numeric

namespace CurveKeys.Hmac

/-- HMAC over a hash with blocks of 64 bytes. -/
def ofHash (hash : Bytes → Vector UInt8 32) (key message : Bytes) : Vector UInt8 32 :=
  let key := if 64 < key.length then (hash key).toList else key
  let block := key ++ List.replicate (64 - key.length) 0
  hash (block.map (· ^^^ 0x5C) ++ (hash (block.map (· ^^^ 0x36) ++ message)).toList)

theorem sha256_eq_ofHash : sha256 = ofHash Sha256.Numeric.hash := by
  rw [← funext Sha256.Numeric.hash_eq]
  rfl

end CurveKeys.Hmac
