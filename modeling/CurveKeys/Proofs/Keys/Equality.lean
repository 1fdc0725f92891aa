import CurveKeys.Keys.Envelope
import CurveKeys.Proofs.Edwards25519.Forms
import CurveKeys.Proofs.Secp256k1.Sec1

/-!
Equality of tagged keys, which compares raw forms only. Equal private keys are the same key. Equal
public keys verify alike: on secp256k1 they are the same key as well, and on Ed25519 the encoding
that they share decides the point, whatever coordinates it is held in.
-/

namespace CurveKeys.Keys

theorem Logged.outcome_ofDecoding {α : Type} (t : KeyType) (half : String)
    (outcome : Except Error α) : (ofDecoding t half outcome).outcome = outcome := by
  cases outcome <;> rfl

theorem outcome_decodePrivate (t : KeyType) (raw : Bytes) (hashes : Hashes) :
    (decodePrivate t raw hashes).outcome = PrivateKey.ofRaw t raw hashes :=
  Logged.outcome_ofDecoding _ _ _

theorem outcome_decodePublic (t : KeyType) (raw : Bytes) :
    (decodePublic t raw).outcome = PublicKey.ofRaw t raw :=
  Logged.outcome_ofDecoding _ _ _

/-- A result of one of the curves under its tag. -/
theorem tagged_eq_ok_iff {ε α β : Type} {result : Except ε α} {tag : α → β} {cause : ε → Error}
    {b : β} : (result.map tag).mapError cause = .ok b ↔ ∃ a, result = .ok a ∧ tag a = b := by
  cases result with
  | error e => exact iff_of_false (fun h => nomatch h) fun ⟨_, h, _⟩ => nomatch h
  | ok a =>
      constructor
      · intro h
        exact ⟨a, rfl, Except.ok.inj h⟩
      · rintro ⟨_, h, rfl⟩
        rw [← Except.ok.inj h]
        rfl

theorem tagged_eq_error_iff {ε α β : Type} {result : Except ε α} {tag : α → β} {cause : ε → Error}
    {e : Error} :
    (result.map tag).mapError cause = .error e ↔ ∃ c, result = .error c ∧ cause c = e := by
  cases result with
  | ok a => exact iff_of_false (fun h => nomatch h) fun ⟨_, h, _⟩ => nomatch h
  | error c =>
      constructor
      · intro h
        exact ⟨c, rfl, Except.error.inj h⟩
      · rintro ⟨_, h, rfl⟩
        rw [← Except.error.inj h]
        rfl

theorem exists_tagged_eq_error_iff {ε α β : Type} {result : Except ε α} {tag : α → β}
    {cause : ε → Error} :
    (∃ e, (result.map tag).mapError cause = .error e) ↔ ∃ c, result = .error c := by
  simp only [tagged_eq_error_iff]
  exact ⟨fun ⟨_, c, h, _⟩ => ⟨c, h⟩, fun ⟨c, h⟩ => ⟨_, c, h, rfl⟩⟩

namespace PrivateKey
variable {hashes : Hashes}

/-- The private keys that the operations on tagged keys produce, and keys of the curves under their
tags. -/
inductive Obtained (hashes : Hashes) : PrivateKey → Prop where
  | decoded {t : KeyType} {raw : Bytes} {key : PrivateKey}
      (h : (decodePrivate t raw hashes).outcome = .ok key) : Obtained hashes key
  | generated {t : KeyType} {tape : Bytes} {key : PrivateKey} {publicKey : PublicKey}
      (h : (generatePair t tape hashes).outcome = .ok (key, publicKey)) : Obtained hashes key
  | ofSigningKey {key : Edwards25519.SigningKey} (h : key.Obtained hashes.wide) :
      Obtained hashes (.ed25519 key)
  | ofSecretKey {key : Secp256k1.SecretKey} (h : key.Obtained) : Obtained hashes (.secp256k1 key)

theorem beq_iff (a b : PrivateKey) :
    (a == b) = true ↔ (a.keyType, a.raw) = (b.keyType, b.raw) := by
  rw [Prod.mk.injEq, ← beq_iff_eq (a := a.keyType), ← beq_iff_eq (a := a.raw), ← Bool.and_eq_true]
  rfl

theorem beq_equivalence : Equivalence (fun a b : PrivateKey => (a == b) = true) := by
  simp only [beq_iff]
  exact eq_equivalence.comap fun a : PrivateKey => (a.keyType, a.raw)

end PrivateKey

namespace PublicKey
variable {hashes : Hashes}

/-- The public keys that the operations on tagged keys produce, and keys of the curves under their
tags. -/
inductive Obtained (hashes : Hashes) : PublicKey → Prop where
  | decoded {t : KeyType} {raw : Bytes} {key : PublicKey}
      (h : (decodePublic t raw).outcome = .ok key) : Obtained hashes key
  | derived {secret : PrivateKey} {key : PublicKey} (hsecret : secret.Obtained hashes)
      (h : secret.publicKey = .ok key) : Obtained hashes key
  | generated {t : KeyType} {tape : Bytes} {secret : PrivateKey} {key : PublicKey}
      (h : (generatePair t tape hashes).outcome = .ok (secret, key)) : Obtained hashes key
  | ofVerifyingKey {key : Edwards25519.VerifyingKey} (h : key.Obtained) :
      Obtained hashes (.ed25519 key)
  | ofPublicKey {key : Secp256k1.PublicKey} (h : key.Obtained) : Obtained hashes (.secp256k1 key)

theorem beq_iff (a b : PublicKey) :
    (a == b) = true ↔ (a.keyType, a.raw) = (b.keyType, b.raw) := by
  rw [Prod.mk.injEq, ← beq_iff_eq (a := a.keyType), ← beq_iff_eq (a := a.raw), ← Bool.and_eq_true]
  rfl

theorem beq_equivalence : Equivalence (fun a b : PublicKey => (a == b) = true) := by
  simp only [beq_iff]
  exact eq_equivalence.comap fun a : PublicKey => (a.keyType, a.raw)

theorem verify_ed25519_eq (key : Edwards25519.VerifyingKey) (message signature : Bytes)
    (hashes : Hashes) :
    (ed25519 key).verify message signature hashes =
      ((Edwards25519.Signature.ofBytes signature).map
        (key.verifyWith hashes.wide message)).mapError .ed25519 := by
  rw [verify]
  cases Edwards25519.Signature.ofBytes signature <;> rfl

theorem verify_secp256k1_eq (key : Secp256k1.PublicKey) (message signature : Bytes)
    (hashes : Hashes) :
    (secp256k1 key).verify message signature hashes =
      ((Secp256k1.Signature.ofDer signature).map
        (·.verifyMessage message key hashes.short)).mapError .secp256k1 := by
  rw [verify]
  cases Secp256k1.Signature.ofDer signature <;> rfl

theorem beq_ed25519_iff (k l : Edwards25519.VerifyingKey) :
    (ed25519 k == ed25519 l) = true ↔ k.bytes = l.bytes := by
  rw [beq_iff, Prod.mk.injEq, ← Vector.toList_inj]
  exact and_iff_right rfl

theorem exists_decoded_secp256k1 {k : Secp256k1.PublicKey} {b : Bytes}
    (h : Secp256k1.PublicKey.ofBytes b = .ok k) :
    (decodePublic .secp256k1 b).outcome = .ok (secp256k1 k) := by
  rw [outcome_decodePublic]
  exact tagged_eq_ok_iff.mpr ⟨k, h, rfl⟩

end PublicKey

end CurveKeys.Keys
