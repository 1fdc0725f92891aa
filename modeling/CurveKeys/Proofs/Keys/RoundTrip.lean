import CurveKeys.Proofs.Keys.Equality
import CurveKeys.Proofs.Secp256k1.Der.Writing
import CurveKeys.Proofs.Secp256k1.Signing

/-!
From raw form to raw form. A private key of one of the two curves is what its own raw form says,
whatever form it came from; so is the public key that it gives, and both copies of that key accept
what the private key signs. Nothing here depends on the hashes but whether a nonce can be found.
-/

namespace CurveKeys

namespace Secp256k1

/-- A signature of a key in range is written as it is and accepted under the key. -/
theorem SecretKey.genuine_signMessage {d : SecretKey} (hd : d.InRange) {message : Bytes}
    {hash : ShortHash} {mac : Mac} {g : Signature}
    (h : d.signMessage message hash mac = some g) :
    Signature.ofDer g.toDer.bytes = .ok g ∧ g.verifyMessage message d.publicKey hash = true := by
  obtain ⟨⟨g', id⟩, hsigned, rfl⟩ := Option.map_eq_some_iff.mp h
  have hgenuine := Signature.genuine_of_signWith
    (fun _ _ hk => Nonce.deterministic_range hk) hd.lt hd.ne_zero hsigned
  have hr := hgenuine.r_range
  have hs := hgenuine.s_range
  have hlow : g'.s.toNat < Scalar.order := lt_of_le_of_lt hs.2 (by decide)
  have hread := Signature.ofDer_toDer (g := g') ⟨Nat.one_le_iff_ne_zero.mpr hr.1, hr.2⟩
    ⟨Nat.one_le_iff_ne_zero.mpr hs.1, hlow⟩
  rw [Signature.normalize_of_low hs.2] at hread
  exact ⟨hread, hgenuine.verify rfl⟩

end Secp256k1

namespace Keys
variable {hashes : Hashes}

namespace PublicKey

theorem verify_ed25519 (key : Edwards25519.VerifyingKey) (message signature : Bytes)
    (hashes : Hashes) :
    ((∃ e, (ed25519 key).verify message signature hashes = .error e) ↔ signature.length ≠ 64) ∧
      ∀ g, Edwards25519.Signature.ofBytes signature = .ok g → g.toBytes = signature ∧
        (ed25519 key).verify message signature hashes =
          .ok (key.verifyWith hashes.wide message g) := by
  rw [verify_ed25519_eq, exists_tagged_eq_error_iff]
  refine ⟨Edwards25519.Signature.exists_error_iff signature, fun g hg => ?_⟩
  exact ⟨Edwards25519.Signature.toBytes_of_ofBytes hg, tagged_eq_ok_iff.mpr ⟨g, hg, rfl⟩⟩

theorem verify_secp256k1 (key : Secp256k1.PublicKey) (message signature : Bytes)
    (hashes : Hashes) :
    ((∃ e, (secp256k1 key).verify message signature hashes = .error e) ↔
      ∃ e, Secp256k1.Signature.ofDer signature = .error e) ∧
      ∀ g, Secp256k1.Signature.ofDer signature = .ok g →
        (secp256k1 key).verify message signature hashes =
          .ok (g.verifyMessage message key hashes.short) := by
  rw [verify_secp256k1_eq]
  exact ⟨exists_tagged_eq_error_iff, fun g hg => tagged_eq_ok_iff.mpr ⟨g, hg, rfl⟩⟩

/-- Whether a signature can be read has nothing to do with the message. -/
theorem verify_eq_error {key : PublicKey} (ht : key.keyType ≠ .ecdsa) {message signature : Bytes}
    {e : Error} (h : key.verify message signature hashes = .error e) (message' : Bytes) :
    key.verify message' signature hashes = .error e := by
  cases key with
  | rsa _ => exact h
  | ed25519 key =>
      rw [verify_ed25519_eq, tagged_eq_error_iff] at h ⊢
      exact h
  | secp256k1 key =>
      rw [verify_secp256k1_eq, tagged_eq_error_iff] at h ⊢
      exact h
  | ecdsa _ => exact absurd rfl ht

end PublicKey

namespace PrivateKey

theorem ofSigned_eq_ok_iff {t : KeyType} {signed : Option Bytes} {signature : Bytes} :
    ofSigned t signed = .ok signature ↔ signed = some signature := by
  cases signed with
  | none => exact iff_of_false (fun h => nomatch h) fun h => nomatch h
  | some b =>
      rw [ofSigned, Except.ok.injEq, Option.some.injEq]

theorem sign_secp256k1_eq_ok_iff {d : Secp256k1.SecretKey} {message signature : Bytes} :
    (secp256k1 d).sign message hashes = .ok signature ↔
      ∃ g, d.signMessage message hashes.short hashes.mac = some g ∧ g.toDer.bytes = signature := by
  rw [sign, ofSigned_eq_ok_iff, Option.map_eq_some_iff]

theorem exists_sign_secp256k1_iff {d : Secp256k1.SecretKey} (hd : d.InRange) (message : Bytes)
    (hashes : Hashes) :
    (∃ signature, (secp256k1 d).sign message hashes = .ok signature) ↔
      d.CanSign (hashes.short message).toList hashes.mac := by
  rw [← Secp256k1.SecretKey.exists_sign_iff hd.lt]
  simp only [sign_secp256k1_eq_ok_iff]
  exact ⟨fun ⟨_, g, hg, _⟩ => ⟨g, hg⟩, fun ⟨g, hg⟩ => ⟨_, g, hg, rfl⟩⟩

/-- When a key of one of the two curves has a signature to give: on Ed25519 always, on secp256k1
when a block of the nonce stream suits. The other types are not spoken of. -/
def CanSign (hashes : Hashes) (message : Bytes) : PrivateKey → Prop
  | ed25519 _ => True
  | secp256k1 d => d.CanSign (hashes.short message).toList hashes.mac
  | rsa _ | ecdsa _ => False

end PrivateKey

/-- The raw forms of a private key and of its public key are read back under the type, there is a
signature on what can be signed, and both copies of the public key accept what is signed. -/
structure Consistent (hashes : Hashes) (t : KeyType) (key : PrivateKey) : Prop where
  reread : ∃ again, (decodePrivate t key.raw hashes).outcome = .ok again ∧ (again == key) = true ∧
    again.raw = key.raw ∧ ∀ message, again.sign message hashes = key.sign message hashes
  signs (message : Bytes) :
    (∃ signature, key.sign message hashes = .ok signature) ↔ key.CanSign hashes message
  published : ∃ publicKey decoded, key.publicKey = .ok publicKey ∧
    (decodePublic t publicKey.raw).outcome = .ok decoded ∧ (decoded == publicKey) = true ∧
    ∀ message signature, key.sign message hashes = .ok signature →
      publicKey.verify message signature hashes = .ok true ∧
      decoded.verify message signature hashes = .ok true

theorem exists_signingKey_of_decoded {raw : Bytes} {key : PrivateKey}
    (h : (decodePrivate .ed25519 raw hashes).outcome = .ok key) :
    ∃ k : Edwards25519.SigningKey, k.Obtained hashes.wide ∧ key = .ed25519 k := by
  rw [outcome_decodePrivate] at h
  obtain ⟨k, hk, rfl⟩ := tagged_eq_ok_iff.mp h
  exact ⟨k, .ofForms hk, rfl⟩

theorem exists_secretKey_of_decoded {raw : Bytes} {key : PrivateKey}
    (h : (decodePrivate .secp256k1 raw hashes).outcome = .ok key) :
    ∃ d : Secp256k1.SecretKey, d.InRange ∧ key = .secp256k1 d := by
  rw [outcome_decodePrivate, PrivateKey.ofRaw] at h
  split at h
  · obtain ⟨d, hd, rfl⟩ := tagged_eq_ok_iff.mp h
    exact ⟨d, (Secp256k1.SecretKey.obtained_iff d).mp (.ofBytes hd), rfl⟩
  · cases h

theorem decodePrivate_raw_ed25519 {k : Edwards25519.SigningKey} (h : k.Obtained hashes.wide) :
    (decodePrivate .ed25519 (PrivateKey.ed25519 k).raw hashes).outcome = .ok (.ed25519 k) := by
  rw [outcome_decodePrivate]
  exact tagged_eq_ok_iff.mpr ⟨k, Edwards25519.SigningKey.ofForms_toKeypair h, rfl⟩

theorem decodePrivate_raw_secp256k1 {d : Secp256k1.SecretKey} (h : d.InRange) :
    (decodePrivate .secp256k1 (PrivateKey.secp256k1 d).raw hashes).outcome =
      .ok (.secp256k1 d) := by
  rw [outcome_decodePrivate, PrivateKey.raw, PrivateKey.ofRaw, Bytes.exactly_eq_some_iff.mpr rfl]
  exact tagged_eq_ok_iff.mpr ⟨d, Secp256k1.SecretKey.ofBytes_toBytes h, rfl⟩

/-- A key that is read back as itself. -/
theorem reread_of_decoded {t : KeyType} {key : PrivateKey}
    (h : (decodePrivate t key.raw hashes).outcome = .ok key) :
    ∃ again, (decodePrivate t key.raw hashes).outcome = .ok again ∧ (again == key) = true ∧
      again.raw = key.raw ∧ ∀ message, again.sign message hashes = key.sign message hashes :=
  ⟨key, h, PrivateKey.beq_equivalence.refl key, rfl, fun _ => rfl⟩

theorem consistent_ed25519 {k : Edwards25519.SigningKey} (h : k.Obtained hashes.wide) :
    Consistent hashes .ed25519 (.ed25519 k) := by
  refine ⟨reread_of_decoded (decodePrivate_raw_ed25519 h),
    fun message => iff_of_true ⟨_, rfl⟩ trivial, ?_⟩
  obtain ⟨seed, rfl⟩ := h.exists_seed
  have hkey := Edwards25519.SigningKey.represents_verifyingKey hashes.wide seed
  obtain ⟨decoded, hread, hbytes, hdecoded⟩ := Edwards25519.VerifyingKey.exists_ofBytes hkey
  refine ⟨_, .ed25519 decoded, rfl, ?_, (PublicKey.beq_ed25519_iff _ _).mpr hbytes, ?_⟩
  · rw [outcome_decodePublic]
    exact tagged_eq_ok_iff.mpr
      ⟨decoded, Edwards25519.VerifyingKey.ofSlice_eq_ok_iff.mpr ⟨_, rfl, hread⟩, rfl⟩
  · intro message signature hsign
    obtain rfl := Except.ok.inj hsign
    have hsignature := Edwards25519.Signature.ofBytes_toBytes
      ((Edwards25519.SigningKey.ofSeedWith hashes.wide seed).signWith hashes.wide message)
    have hverdict (key : Edwards25519.VerifyingKey) :=
      ((PublicKey.verify_ed25519 key message _ hashes).2 _ hsignature).2
    rw [hverdict, hverdict]
    exact ⟨congrArg Except.ok
        (Edwards25519.SigningKey.verifyWith_signWith hashes.wide message rfl hkey),
      congrArg Except.ok
        (Edwards25519.SigningKey.verifyWith_signWith hashes.wide message hbytes hdecoded)⟩

theorem consistent_secp256k1 {d : Secp256k1.SecretKey} (h : d.InRange) :
    Consistent hashes .secp256k1 (.secp256k1 d) := by
  have hkey := h.denotes_publicKey
  refine ⟨reread_of_decoded (decodePrivate_raw_secp256k1 h),
    fun message => PrivateKey.exists_sign_secp256k1_iff h message hashes, _, _, rfl,
    PublicKey.exists_decoded_secp256k1 (Secp256k1.PublicKey.ofBytes_toCompressed hkey),
    PublicKey.beq_equivalence.refl _, fun message signature hsign => ?_⟩
  obtain ⟨g, hg, rfl⟩ := PrivateKey.sign_secp256k1_eq_ok_iff.mp hsign
  obtain ⟨hread, hverify⟩ := Secp256k1.SecretKey.genuine_signMessage h hg
  have hverdict := (PublicKey.verify_secp256k1 d.publicKey message _ hashes).2 g hread
  rw [hverify] at hverdict
  exact ⟨hverdict, hverdict⟩

/-- Every private key that is read under one of the two types is consistent with its raw form,
whatever the hashes are. It signs whenever a block of its nonce stream will do, and verification
fails only on what is no signature. -/
theorem raw_round_trip (hashes : Hashes) :
    (∀ t : KeyType, t = .ed25519 ∨ t = .secp256k1 → ∀ (raw : Bytes) (key : PrivateKey),
      (decodePrivate t raw hashes).outcome = .ok key →
        key.keyType = t ∧ Consistent hashes t key) ∧
    ((∀ (k : Edwards25519.SigningKey) (message : Bytes),
        ∃ signature, (PrivateKey.ed25519 k).sign message hashes = .ok signature) ∧
      ∀ (d : Secp256k1.SecretKey), d.Obtained → ∀ message : Bytes,
        (∃ signature, (PrivateKey.secp256k1 d).sign message hashes = .ok signature) ↔
          d.CanSign (hashes.short message).toList hashes.mac) ∧
    (∀ (key : Edwards25519.VerifyingKey) (message signature : Bytes),
      ((∃ e, (PublicKey.ed25519 key).verify message signature hashes = .error e) ↔
        signature.length ≠ 64) ∧
      ∀ g, Edwards25519.Signature.ofBytes signature = .ok g → g.toBytes = signature ∧
        (PublicKey.ed25519 key).verify message signature hashes =
          .ok (key.verifyWith hashes.wide message g)) ∧
    (∀ (key : Secp256k1.PublicKey) (message signature : Bytes),
      ((∃ e, (PublicKey.secp256k1 key).verify message signature hashes = .error e) ↔
        ∃ e, Secp256k1.Signature.ofDer signature = .error e) ∧
      ∀ g, Secp256k1.Signature.ofDer signature = .ok g →
        (PublicKey.secp256k1 key).verify message signature hashes =
          .ok (g.verifyMessage message key hashes.short)) ∧
    ∀ key : PublicKey, key.keyType = .ed25519 ∨ key.keyType = .secp256k1 →
      ∀ (message message' signature : Bytes) (e : Error),
        key.verify message signature hashes = .error e →
          key.verify message' signature hashes = .error e := by
  refine ⟨fun t ht raw key h => ?_, ⟨fun k message => ⟨_, rfl⟩, fun d hd message => ?_⟩,
    fun key message signature => PublicKey.verify_ed25519 key message signature hashes,
    fun key message signature => PublicKey.verify_secp256k1 key message signature hashes,
    fun key ht message message' _ e h => ?_⟩
  · rcases ht with rfl | rfl
    · obtain ⟨k, hk, rfl⟩ := exists_signingKey_of_decoded h
      exact ⟨rfl, consistent_ed25519 hk⟩
    · obtain ⟨d, hd, rfl⟩ := exists_secretKey_of_decoded h
      exact ⟨rfl, consistent_secp256k1 hd⟩
  · exact PrivateKey.exists_sign_secp256k1_iff ((Secp256k1.SecretKey.obtained_iff d).mp hd) message
      hashes
  · refine PublicKey.verify_eq_error ?_ h message'
    rcases ht with ht | ht <;> rw [ht] <;> decide

/-- Bytes that spell 1 plus the order, which are read as 1 and written as 1, and a seed alone. With
a keyed hash that always gives 1 the former signs. -/
theorem round_trip_of_other_forms :
    (∃ key, (decodePrivate .secp256k1
        (Bytes.ofNatBE 32 (Secp256k1.Scalar.order + 1))).outcome = .ok key ∧
      key.raw = Bytes.ofNatBE 32 1 ∧ Consistent .standard .secp256k1 key) ∧
    (∃ key, (decodePrivate .ed25519 (List.replicate 32 0)).outcome = .ok key ∧
      key.raw.length = 64 ∧ Consistent .standard .ed25519 key) ∧
    ∃ hashes key signature publicKey, (decodePrivate .secp256k1
        (Bytes.ofNatBE 32 (Secp256k1.Scalar.order + 1)) hashes).outcome = .ok key ∧
      key.sign [] hashes = .ok signature ∧ key.publicKey = .ok publicKey ∧
      publicKey.verify [] signature hashes = .ok true := by
  have hread (hashes : Hashes) : (decodePrivate .secp256k1
      (Bytes.ofNatBE 32 (Secp256k1.Scalar.order + 1)) hashes).outcome =
      .ok (PrivateKey.secp256k1 ⟨.one⟩) := rfl
  refine ⟨⟨_, hread _, by decide, ((raw_round_trip _).1 _ (Or.inr rfl) _ _ (hread _)).2⟩, ?_, ?_⟩
  · have hseed : (decodePrivate .ed25519 (List.replicate 32 0)).outcome =
        .ok (PrivateKey.ed25519 (.ofSeed (Vector.replicate 32 0))) := rfl
    exact ⟨_, hseed, Edwards25519.SigningKey.length_toKeypair _,
      ((raw_round_trip _).1 _ (Or.inl rfl) _ _ hseed).2⟩
  · let hashes : Hashes :=
      ⟨Sha512.hash, fun _ => Vector.replicate 32 0, fun _ _ => Bytes.window 32 [1]⟩
    have hconsistent := ((raw_round_trip hashes).1 _ (Or.inr rfl) _ _ (hread hashes)).2
    obtain ⟨signature, hsign⟩ := (hconsistent.signs []).mpr Secp256k1.SecretKey.canSign_one
    obtain ⟨publicKey, decoded, hkey, -, -, hverify⟩ := hconsistent.published
    exact ⟨hashes, _, signature, publicKey, hread hashes, hsign, hkey,
      (hverify [] signature hsign).1⟩

end Keys

end CurveKeys
