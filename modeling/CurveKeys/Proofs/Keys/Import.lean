import CurveKeys.Proofs.Keys.Equality

/-!
Reading Ed25519 private keys. A string is a key exactly when it is a seed, with the encoding of the
public point that the seed derives behind it not at all, once or twice. The point is the multiple of
the base point by the clamped integer, of which arithmetic modulo the order keeps the residue only.
-/

namespace CurveKeys

namespace Edwards25519
open Curve (base encode)
open Limbs (order)

namespace Scalar

/-- The integer of a secret: bit 254 is set, the bits above it and the three lowest are not. -/
def clampedInteger (b : Bytes) : Nat := 2 ^ 254 + 8 * (Bytes.toNatLE b % 2 ^ 254 / 8)

theorem toNat_low_clamp (x : UInt8) : (x &&& 248).toNat = 8 * (x.toNat / 8) :=
  Words.of_byte_lt (P := fun x => (x &&& 248).toNat = 8 * (x.toNat / 8)) (by decide +kernel)
    x.toNat_lt

theorem toNat_high_clamp (x : UInt8) : (x &&& 127 ||| 64).toNat = 64 + x.toNat % 64 :=
  Words.of_byte_lt (P := fun x => (x &&& 127 ||| 64).toNat = 64 + x.toNat % 64)
    (by decide +kernel) x.toNat_lt

theorem toNatLE_clamp (b : Vector UInt8 32) :
    Bytes.toNatLE (clamp b).toList = clampedInteger b.toList := by
  have hlow := Bytes.toNatLE_setIfInBounds b 0 (Bytes.byteAt b 0 &&& 248) (by decide)
  have hhigh := Bytes.toNatLE_setIfInBounds (b.setIfInBounds 0 (Bytes.byteAt b 0 &&& 248)) 31
    (Bytes.byteAt b 31 &&& 127 ||| 64) (by decide)
  have hkeep : Bytes.byteAt (b.setIfInBounds 0 (Bytes.byteAt b 0 &&& 248)) 31 =
      Bytes.byteAt b 31 := by
    simp [Bytes.byteAt]
  have h0 : (Bytes.byteAt b 0).toNat = Bytes.toNatLE b.toList % 256 := by
    rw [Bytes.byteAt_eq_getD, Bytes.toNat_getD, pow_zero, Nat.div_one]
  have h31 : (Bytes.byteAt b 31).toNat = Bytes.toNatLE b.toList / 256 ^ 31 % 256 := by
    rw [Bytes.byteAt_eq_getD, Bytes.toNat_getD]
  have hlt := Bytes.toNatLE_vector_lt b
  rw [toNat_low_clamp, h0] at hlow
  rw [hkeep, toNat_high_clamp, h31] at hhigh
  rw [clamp, clampedInteger]
  omega

/-- The secret scalar of a seed is the residue of the clamped integer. -/
theorem toNat_ofClamped (b : Vector UInt8 32) :
    (ofClamped b).toNat = clampedInteger b.toList % order := by
  rw [ofClamped, toNat_ofBytes, toNatLE_clamp]

end Scalar

/-- The canonical encoding of the public point of a seed: the hash of the seed begins with the bytes
of the secret integer. -/
def publicEncoding (hash : WideHash) (seed : Vector UInt8 32) : Vector UInt8 32 :=
  encode (Scalar.clampedInteger ((hash seed.toList).toList.take 32) • base)

namespace SigningKey
variable {hash : WideHash}

theorem bytes_verifyingKey (hash : WideHash) (seed : Vector UInt8 32) :
    (ofSeedWith hash seed).verifyingKey.bytes = publicEncoding hash seed := by
  have hbytes := Point.toBytes_eq (represents_verifyingKey hash seed).point
  have hscalar : (ofSeedWith hash seed).scalar.toNat =
      Scalar.clampedInteger ((hash seed.toList).toList.take 32) % order := by
    refine (Scalar.toNat_ofClamped _).trans ?_
    rw [Bytes.toList_window, Vector.length_toList, show 32 - 64 = 0 from rfl, List.replicate_zero,
      List.nil_append]
  rw [hscalar, Curve.mod_nsmul_base] at hbytes
  exact hbytes

theorem toKeypair_ofSeedWith (hash : WideHash) (seed : Vector UInt8 32) :
    (ofSeedWith hash seed).toKeypair = seed.toList ++ (publicEncoding hash seed).toList := by
  rw [toKeypair, bytes_verifyingKey]
  rfl

/-- The strings that stand for the key of a seed. -/
@[mk_iff]
inductive IsForm (hash : WideHash) (seed : Vector UInt8 32) : Bytes → Prop where
  | seed : IsForm hash seed seed.toList
  | keypair : IsForm hash seed (seed.toList ++ (publicEncoding hash seed).toList)
  | redundant : IsForm hash seed
      (seed.toList ++ (publicEncoding hash seed).toList ++ (publicEncoding hash seed).toList)

theorem IsForm.length {seed : Vector UInt8 32} {b : Bytes} (h : IsForm hash seed b) :
    b.length = 32 ∨ b.length = 64 ∨ b.length = 96 := by
  cases h <;> simp

/-- Every form begins with its seed. -/
theorem IsForm.seed_eq {seed : Vector UInt8 32} {b : Bytes} (h : IsForm hash seed b) :
    Bytes.window 32 b = seed := by
  cases h with
  | seed => exact Bytes.window_toList seed
  | keypair => exact Bytes.window_append seed _
  | redundant => rw [List.append_assoc, Bytes.window_append]

/-- The only form of 64 bytes that begins with a seed ends with its public key. -/
theorem isForm_pair {seed other a : Vector UInt8 32}
    (h : IsForm hash other (seed.toList ++ a.toList)) : publicEncoding hash seed = a := by
  have hlength : (seed.toList ++ a.toList).length = 64 := by simp
  rcases (isForm_iff _ _ _).mp h with e | e | e
  · rw [e] at hlength
    simp at hlength
  · obtain ⟨hseed, ha⟩ := List.append_inj e (by simp)
    rw [Vector.toList_inj.mp hseed, Vector.toList_inj.mp ha]
  · rw [e] at hlength
    simp at hlength

/-- The only form of 96 bytes repeats the public key. -/
theorem isForm_triple {seed other a c : Vector UInt8 32}
    (h : IsForm hash other (seed.toList ++ a.toList ++ c.toList)) :
    publicEncoding hash seed = a ∧ a = c := by
  have hlength : (seed.toList ++ a.toList ++ c.toList).length = 96 := by simp
  rcases (isForm_iff _ _ _).mp h with e | e | e
  · rw [e] at hlength
    simp at hlength
  · rw [e] at hlength
    simp at hlength
  · obtain ⟨hpair, hc⟩ := List.append_inj e (by simp)
    obtain ⟨hseed, ha⟩ := List.append_inj hpair (by simp)
    rw [Vector.toList_inj.mp hseed, Vector.toList_inj.mp ha, Vector.toList_inj.mp hc]
    exact ⟨rfl, rfl⟩

/-- A string of 64 bytes is compared with the public key that its seed derives. -/
theorem ofKeypair_window (hash : WideHash) (seed a : Vector UInt8 32) (rest : Bytes) :
    ofKeypair (Bytes.window 64 (seed.toList ++ a.toList ++ rest)) hash =
      if publicEncoding hash seed = a then .ok (ofSeedWith hash seed)
      else .error .mismatchedPublicKey := by
  obtain ⟨pair, hpair⟩ := Bytes.exists_eq_toList (n := 64) (b := seed.toList ++ a.toList) (by simp)
  have hkey : (ofSeedWith hash seed).verifyingKey.bytes = publicEncoding hash seed :=
    bytes_verifyingKey _ _
  rw [hpair, Bytes.window_append, ofKeypair, ← hpair, Bytes.window_append,
    List.drop_left' seed.length_toList, hkey]
  simp only [beq_iff_eq, Vector.toList_inj]

/-- What reading a string comes to: the key of a form, or the reason why it is none. -/
inductive Reading (hash : WideHash) (b : Bytes) : Except Error SigningKey → Prop where
  | key {seed : Vector UInt8 32} (h : IsForm hash seed b) :
      Reading hash b (.ok (ofSeedWith hash seed))
  | mismatch (hlength : b.length = 32 ∨ b.length = 64 ∨ b.length = 96)
      (h : ∀ seed, ¬IsForm hash seed b) : Reading hash b (.error .mismatchedPublicKey)
  | length (h : ¬(b.length = 32 ∨ b.length = 64 ∨ b.length = 96)) :
      Reading hash b (.error .invalidLength)

theorem reading_seed {b : Bytes} (h : b.length = 32) : Reading hash b (ofForms b hash) := by
  obtain ⟨seed, rfl⟩ := Bytes.exists_eq_toList h
  rw [ofForms, if_pos h, ofSlice, Bytes.exactly_eq_some_iff.mpr rfl]
  exact .key .seed

theorem reading_keypair {b : Bytes} (h : b.length = 64) : Reading hash b (ofForms b hash) := by
  obtain ⟨seed, rest, rfl⟩ := Bytes.exists_eq_append (n := 32) (b := b) (by omega)
  obtain ⟨a, rfl⟩ := Bytes.exists_eq_toList (n := 32) (b := rest) (by
    rw [List.length_append, seed.length_toList] at h
    omega)
  have hkeypair := ofKeypair_window hash seed a []
  rw [List.append_nil] at hkeypair
  rw [ofForms, if_neg (by omega), if_pos h, hkeypair]
  split
  · next ha =>
      subst ha
      exact .key .keypair
  · next ha => exact .mismatch (Or.inr (Or.inl h)) fun other hform => ha (isForm_pair hform)

theorem reading_redundant {b : Bytes} (h : b.length = 96) : Reading hash b (ofForms b hash) := by
  obtain ⟨seed, rest, rfl⟩ := Bytes.exists_eq_append (n := 32) (b := b) (by omega)
  rw [List.length_append, seed.length_toList] at h
  obtain ⟨a, rest, rfl⟩ := Bytes.exists_eq_append (n := 32) (b := rest) (by omega)
  rw [List.length_append, a.length_toList] at h
  obtain ⟨c, rfl⟩ := Bytes.exists_eq_toList (n := 32) (b := rest) (by omega)
  rw [← List.append_assoc]
  have hlength : (seed.toList ++ a.toList ++ c.toList).length = 96 := by simp
  have hpublic : ((seed.toList ++ a.toList ++ c.toList).drop 32).take 32 = a.toList := by
    rw [List.append_assoc, List.drop_left' seed.length_toList, List.take_left' a.length_toList]
  have hcopy : (seed.toList ++ a.toList ++ c.toList).drop 64 = c.toList :=
    List.drop_left' (by simp)
  rw [ofForms, if_neg (by omega), if_neg (by omega), if_pos hlength, hpublic, hcopy]
  simp only [beq_iff_eq, Vector.toList_inj]
  split
  · next hac =>
      rw [ofKeypair_window]
      split
      · next ha =>
          subst hac ha
          exact .key .redundant
      · next ha =>
          exact .mismatch (Or.inr (Or.inr hlength)) fun other hform => ha (isForm_triple hform).1
  · next hac =>
      exact .mismatch (Or.inr (Or.inr hlength)) fun other hform => hac (isForm_triple hform).2

theorem reading_ofForms (hash : WideHash) (b : Bytes) : Reading hash b (ofForms b hash) := by
  by_cases h32 : b.length = 32
  · exact reading_seed h32
  · by_cases h64 : b.length = 64
    · exact reading_keypair h64
    · by_cases h96 : b.length = 96
      · exact reading_redundant h96
      · rw [ofForms, if_neg h32, if_neg h64, if_neg h96]
        exact .length (by omega)

namespace Reading
variable {b : Bytes} {result : Except Error SigningKey}

theorem eq_ok_iff (h : Reading hash b result) (key : SigningKey) :
    result = .ok key ↔ ∃ seed, IsForm hash seed b ∧ key = ofSeedWith hash seed := by
  cases h with
  | @key seed hform =>
      rw [Except.ok.injEq]
      constructor
      · rintro rfl
        exact ⟨seed, hform, rfl⟩
      · rintro ⟨other, hother, rfl⟩
        rw [← hform.seed_eq, hother.seed_eq]
  | mismatch _ hnone => exact iff_of_false (fun e => nomatch e) fun ⟨_, hform, _⟩ => hnone _ hform
  | length hlength =>
      exact iff_of_false (fun e => nomatch e) fun ⟨_, hform, _⟩ => hlength hform.length

theorem eq_mismatch_iff (h : Reading hash b result) :
    result = .error .mismatchedPublicKey ↔
      (b.length = 32 ∨ b.length = 64 ∨ b.length = 96) ∧ ∀ seed, ¬IsForm hash seed b := by
  cases h with
  | key hform => exact iff_of_false (fun e => nomatch e) fun hc => hc.2 _ hform
  | mismatch hlength hnone => exact iff_of_true rfl ⟨hlength, hnone⟩
  | length hlength => exact iff_of_false (fun e => nomatch e) fun hc => hlength hc.1

theorem eq_invalidLength_iff (h : Reading hash b result) :
    result = .error .invalidLength ↔ ¬(b.length = 32 ∨ b.length = 64 ∨ b.length = 96) := by
  cases h with
  | key hform => exact iff_of_false (fun e => nomatch e) fun hc => hc hform.length
  | mismatch hlength _ => exact iff_of_false (fun e => nomatch e) fun hc => hc hlength
  | length hlength => exact iff_of_true rfl hlength

end Reading

end SigningKey

end Edwards25519

namespace Keys.PrivateKey
open Edwards25519 (SigningKey publicEncoding)
open Edwards25519.SigningKey (IsForm)
variable {hashes : Hashes}

/-- The reasons of the curve are carried along, and so is the key. -/
theorem ofRaw_ed25519_eq (b : Bytes) (hashes : Hashes) : ofRaw .ed25519 b hashes =
    ((SigningKey.ofForms b hashes.wide).map ed25519).mapError .ed25519 := rfl

theorem ofRaw_ed25519_eq_ok_iff {b : Bytes} {key : PrivateKey} :
    ofRaw .ed25519 b hashes = .ok key ↔
      ∃ seed, IsForm hashes.wide seed b ∧ key = .ed25519 (.ofSeedWith hashes.wide seed) := by
  rw [ofRaw_ed25519_eq, tagged_eq_ok_iff]
  simp only [(SigningKey.reading_ofForms hashes.wide b).eq_ok_iff]
  constructor
  · rintro ⟨_, ⟨seed, hform, rfl⟩, rfl⟩
    exact ⟨seed, hform, rfl⟩
  · rintro ⟨seed, hform, rfl⟩
    exact ⟨_, ⟨seed, hform, rfl⟩, rfl⟩

theorem ofRaw_ed25519_eq_error_iff {b : Bytes} {cause : Edwards25519.Error} :
    ofRaw .ed25519 b hashes = .error (.ed25519 cause) ↔
      SigningKey.ofForms b hashes.wide = .error cause := by
  simp only [ofRaw_ed25519_eq, tagged_eq_error_iff, Error.ed25519.injEq, exists_eq_right]

/-- A string is read exactly when it is one of the forms of a seed, as the key of that seed, and is
otherwise refused for its length or for its public key. The three forms of a seed are one key. -/
theorem ed25519_import_exact (hashes : Hashes) :
    (∀ b : Bytes,
      (∀ key, ofRaw .ed25519 b hashes = .ok key ↔
        ∃ seed, IsForm hashes.wide seed b ∧ key = .ed25519 (.ofSeedWith hashes.wide seed)) ∧
      (ofRaw .ed25519 b hashes = .error (.ed25519 .invalidLength) ↔
        ¬(b.length = 32 ∨ b.length = 64 ∨ b.length = 96)) ∧
      (ofRaw .ed25519 b hashes = .error (.ed25519 .mismatchedPublicKey) ↔
        (b.length = 32 ∨ b.length = 64 ∨ b.length = 96) ∧
          ∀ seed, ¬IsForm hashes.wide seed b)) ∧
    (∀ seed : Vector UInt8 32,
      let a := (publicEncoding hashes.wide seed).toList
      let key := PrivateKey.ed25519 (.ofSeedWith hashes.wide seed)
      key.raw = seed.toList ++ a ∧ ofRaw .ed25519 seed.toList hashes = .ok key ∧
      ofRaw .ed25519 (seed.toList ++ a) hashes = .ok key ∧
      ofRaw .ed25519 (seed.toList ++ a ++ a) hashes = .ok key) ∧
    (Error.ed25519 .invalidLength).kind = .malformed ∧
    (Error.ed25519 .mismatchedPublicKey).kind = .invalid := by
  refine ⟨fun b => ⟨fun key => ofRaw_ed25519_eq_ok_iff, ?_, ?_⟩, fun seed => ⟨?_, ?_, ?_, ?_⟩, rfl,
    rfl⟩
  · rw [ofRaw_ed25519_eq_error_iff, (SigningKey.reading_ofForms _ b).eq_invalidLength_iff]
  · rw [ofRaw_ed25519_eq_error_iff, (SigningKey.reading_ofForms _ b).eq_mismatch_iff]
  · exact SigningKey.toKeypair_ofSeedWith hashes.wide seed
  · exact ofRaw_ed25519_eq_ok_iff.mpr ⟨seed, .seed, rfl⟩
  · exact ofRaw_ed25519_eq_ok_iff.mpr ⟨seed, .keypair, rfl⟩
  · exact ofRaw_ed25519_eq_ok_iff.mpr ⟨seed, .redundant, rfl⟩

end Keys.PrivateKey

end CurveKeys
