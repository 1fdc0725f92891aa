import CurveKeys.Proofs.Hash.Sha256
import CurveKeys.Proofs.Secp256k1.Nonce.Stream
import CurveKeys.Secp256k1.Sign

/-!
How a hash enters the nonces. Section 3.2 of RFC 6979 has the integer of a hash reduced by the order
before it joins the seed. Here its bytes join as they are, which is the same for the hashes below
the order and for no other; the integer that is signed is reduced in any case.
-/

namespace CurveKeys.Secp256k1.Nonce
open Scalar (order)

/-- An integer in 32 bytes. -/
def int2octets (v : Nat) : Bytes := Bytes.ofNatBE 32 v

/-- What a hash of 32 bytes should join the seed as: its integer is reduced by the order. -/
def bits2octets (hash : Bytes) : Bytes := int2octets (Bytes.toNatBE hash % order)

/-- The nonces for a key and a hash are those of a seed, whatever the keyed hash is. -/
def SeededWith (key hash s : Bytes) : Prop :=
  ∀ mac skip j k, IsNonce (stream mac s) skip j k →
    ∀ budget, generate mac budget key hash [] [] skip = if j < budget then some k else none

def unmarked : Vector UInt8 32 := Bytes.window 32 [1]

def marked : Vector UInt8 32 := Bytes.window 32 [2]

/-- A keyed hash that tells one seed from all others: it answers `marked` to the first message made
from this seed, and from then on, since its answers become its keys. -/
def mark (s : Bytes) : Mac := fun key message =>
  if key = marked.toList ∨ message = List.replicate 32 0x01 ++ [0x00] ++ s then marked else unmarked

theorem mark_marked (s message : Bytes) : mark s marked.toList message = marked :=
  if_pos (.inl rfl)

/-- The message made from the seed is longer than a block. -/
theorem mark_unmarked (s : Bytes) {message : Bytes} (h : message.length = 32) :
    mark s unmarked.toList message = unmarked := by
  refine if_neg (not_or.mpr ⟨by decide, fun e => ?_⟩)
  rw [e] at h
  simp only [List.length_append, List.length_replicate, List.length_singleton] at h
  omega

theorem stream_mark (s : Bytes) : stream (mark s) s 0 = marked := by
  have hfirst : mark s (List.replicate 32 0x00) (List.replicate 32 0x01 ++ [0x00] ++ s) = marked :=
    if_pos (.inr rfl)
  rw [stream, keyValue]
  simp only [hfirst, mark_marked]

theorem stream_mark_of_ne {s s' : Bytes} (h : s ≠ s') : stream (mark s) s' 0 = unmarked := by
  have hfirst : mark s (List.replicate 32 0x00) (List.replicate 32 0x01 ++ [0x00] ++ s') =
      unmarked :=
    if_neg (not_or.mpr ⟨by decide, fun e => h (List.append_cancel_left e).symm⟩)
  have hsecond : mark s unmarked.toList (unmarked.toList ++ [0x01] ++ s') = unmarked := by
    refine if_neg (not_or.mpr ⟨by decide, fun e => ?_⟩)
    rw [List.append_assoc, List.append_assoc] at e
    exact absurd (List.append_inj_left e unmarked.length_toList) (by decide)
  rw [stream, keyValue]
  simp only [hfirst, hsecond, mark_unmarked s List.length_replicate,
    mark_unmarked s unmarked.length_toList]

/-- The seed is all that counts, and every bit of it does. -/
theorem seededWith_iff {key hash s : Bytes} : SeededWith key hash s ↔ seed key hash [] [] = s := by
  constructor
  · intro h
    by_contra hne
    have hmarked : Usable (stream (mark s) s 0) := by
      rw [stream_mark]
      decide
    have hunmarked : Usable (stream (mark s) (seed key hash [] []) 0) := by
      rw [stream_mark_of_ne (Ne.symm hne)]
      decide
    obtain ⟨k, hk⟩ := exists_isNonce hmarked
    obtain ⟨l, hl⟩ := exists_isNonce hunmarked
    obtain rfl : l = k :=
      Option.some.inj ((generate_eq hl 1).symm.trans (h (mark s) 0 0 k hk 1))
    have hvalue := hk.value.symm.trans hl.value
    rw [stream_mark, stream_mark_of_ne (Ne.symm hne)] at hvalue
    exact absurd hvalue (by decide)
  · rintro rfl mac skip j k hk budget
    exact generate_eq hk budget

theorem toNatBE_int2octets {v : Nat} (h : v < 2 ^ 256) : Bytes.toNatBE (int2octets v) = v := by
  rw [int2octets, Bytes.toNatBE_ofNatBE]
  exact Nat.mod_eq_of_lt (lt_of_lt_of_eq h (by norm_num))

theorem toBytes_eq_int2octets (k : Scalar) : k.toBytes.toList = int2octets k.toNat := by
  apply Bytes.eq_of_toNatBE_eq
  · rw [Vector.length_toList, int2octets, Bytes.length_ofNatBE]
  · rw [Scalar.toNatBE_toBytes, toNatBE_int2octets k.toNat_lt]

theorem bits2octets_eq_iff {hash : Bytes} (h : hash.length = 32) :
    bits2octets hash = hash ↔ Bytes.toNatBE hash < order := by
  have horder : order < 2 ^ 256 := by decide
  have hlt : Bytes.toNatBE hash % order < order := Nat.mod_lt _ (by decide)
  have hvalue : Bytes.toNatBE (bits2octets hash) = Bytes.toNatBE hash % order :=
    toNatBE_int2octets (hlt.trans horder)
  constructor
  · intro e
    rw [e] at hvalue
    omega
  · intro hlow
    apply Bytes.eq_of_toNatBE_eq
    · rw [bits2octets, int2octets, Bytes.length_ofNatBE, h]
    · rw [hvalue, Nat.mod_eq_of_lt hlow]

theorem seed_of_length (key : SecretKey) {hash : Bytes} (h : hash.length = 32) :
    seed key.toBytes.toList hash [] [] = int2octets key.scalar.toNat ++ hash := by
  rw [seed_of_key, pad32_of_length h, SecretKey.toBytes, toBytes_eq_int2octets]

/-- The integer that is signed is reduced, so congruent hashes have signatures that differ by their
nonces only. -/
theorem signRecoverable_congr (key : SecretKey) {hash hash' : Bytes} (h : hash.length = 32)
    (h' : hash'.length = 32) (hmod : Bytes.toNatBE hash' ≡ Bytes.toNatBE hash [MOD order])
    {mac : Mac} (hnonce : ∀ i, deterministic key.toBytes.toList hash' [] [] i mac =
      deterministic key.toBytes.toList hash [] [] i mac) :
    key.signRecoverable hash' mac = key.signRecoverable hash mac := by
  have hscalar : Signature.hashScalar hash' = Signature.hashScalar hash := by
    apply Scalar.eq_of_toNat_eq
    rw [Signature.hashScalar, Signature.hashScalar, Scalar.reduceSlice, Scalar.reduceSlice,
      Scalar.toNat_reduceBytes, Scalar.toNat_reduceBytes, Bytes.toList_window_of_length h,
      Bytes.toList_window_of_length h']
    exact hmod
  rw [SecretKey.signRecoverable, SecretKey.signRecoverable, funext hnonce, hscalar]

/-- The bytes of a hash are seeded unreduced. That is what section 3.2 prescribes exactly for the
hashes below the order, and no other hash has the same nonces, not even one that is congruent; a
congruent one with the same nonces would have the same signature. -/
theorem seededWith_raw_hash (key : SecretKey) {hash : Bytes} (h : hash.length = 32) :
    SeededWith key.toBytes.toList hash (int2octets key.scalar.toNat ++ hash) ∧
    (SeededWith key.toBytes.toList hash (int2octets key.scalar.toNat ++ bits2octets hash) ↔
      Bytes.toNatBE hash < order) ∧
    ∀ hash', hash'.length = 32 → Bytes.toNatBE hash' ≡ Bytes.toNatBE hash [MOD order] →
      (SeededWith key.toBytes.toList hash' (int2octets key.scalar.toNat ++ hash) ↔ hash' = hash) ∧
      ((∀ i, deterministic key.toBytes.toList hash' [] [] i =
          deterministic key.toBytes.toList hash [] [] i) →
        key.signRecoverable hash' = key.signRecoverable hash) := by
  refine ⟨seededWith_iff.mpr (seed_of_length key h), ?_, fun hash' h' hmod => ⟨?_, ?_⟩⟩
  · rw [seededWith_iff, seed_of_length key h, List.append_cancel_left_eq, eq_comm,
      bits2octets_eq_iff h]
  · rw [seededWith_iff, seed_of_length key h', List.append_cancel_left_eq]
  · exact signRecoverable_congr key h h' hmod

/-- The order itself, as a hash, is congruent to zero and should be seeded as zero. By HMAC with
SHA-256 the key 1 has different nonces for the two. -/
theorem seededWith_raw_hash_at_order :
    let key : SecretKey := ⟨Scalar.one⟩
    let hash := Bytes.ofNatBE 32 order
    let zero := List.replicate 32 0x00
    hash.length = 32 ∧ bits2octets hash = zero ∧
      ¬ SeededWith key.toBytes.toList hash (int2octets key.scalar.toNat ++ zero) ∧
      ¬ SeededWith key.toBytes.toList zero (int2octets key.scalar.toNat ++ hash) ∧
      (deterministic key.toBytes.toList hash [] [] 0).map Scalar.toNat =
        some 0x0D9B7698BB66C2FD7EDF1E91FE90D1C6247B694BD34CF1322FCF94E074A2C518 ∧
      (deterministic key.toBytes.toList zero [] [] 0).map Scalar.toNat =
        some 0x010497D369B3D525CA15EC29C104A694210BB59FF6CABFC10AFE6DF0283896DF := by
  intro key hash zero
  have hlen : hash.length = 32 := by decide
  have hzero : bits2octets hash = zero := by decide
  obtain ⟨-, hconforms, hcongruent⟩ := seededWith_raw_hash key hlen
  obtain ⟨hsame, -⟩ := hcongruent zero (by decide) (by decide)
  rw [hzero] at hconforms
  refine ⟨hlen, hzero, fun h => ?_, fun h => ?_, ?_, ?_⟩
  · exact absurd (hconforms.mp h) (by decide)
  · exact absurd (hsame.mp h) (by decide)
  · rw [deterministic, Hmac.sha256_eq_ofHash]
    decide +kernel
  · rw [deterministic, Hmac.sha256_eq_ofHash]
    decide +kernel

end CurveKeys.Secp256k1.Nonce
