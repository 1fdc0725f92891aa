import CurveKeys.Proofs.Edwards25519.Verification

/-!
Signing answers the challenge, so what it makes is what verification accepts. The response is a
residue, which the order of the base point makes as good as the integer itself.
-/

namespace CurveKeys.Edwards25519
open Curve (base encode)
open Limbs (order)

namespace Signature

theorem ofBytes_toBytes (g : Signature) : ofBytes g.toBytes = .ok g := by
  have hlen : g.toBytes.length = 64 := by
    rw [toBytes, List.length_append, g.r.length_toList, g.s.length_toList]
  rw [ofBytes, if_pos hlen, toBytes, List.drop_left' g.r.length_toList, Bytes.window_append,
    Bytes.window_toList]

theorem toBytes_of_ofBytes {b : Bytes} {g : Signature} (h : ofBytes b = .ok g) : g.toBytes = b := by
  unfold ofBytes at h
  split at h
  · next hlen =>
      obtain rfl := Except.ok.inj h
      have hdrop : (b.drop 32).length = 32 := by rw [List.length_drop, hlen]
      rw [toBytes, Bytes.toList_window, Bytes.toList_window_of_length hdrop, hlen]
      exact List.take_append_drop 32 b
  · cases h

theorem exists_error_iff (b : Bytes) : (∃ e, ofBytes b = .error e) ↔ b.length ≠ 64 := by
  unfold ofBytes
  split
  · next hlen =>
      refine iff_of_false ?_ (not_not.mpr hlen)
      rintro ⟨e, h⟩
      cases h
  · next hlen => exact iff_of_true ⟨_, rfl⟩ hlen

end Signature

namespace SigningKey

/-- The scalar that a message is committed to with. -/
def nonce (hash : WideHash) (key : SigningKey) (message : Bytes) : Scalar :=
  .ofWide (hash (key.nonceBytes.toList ++ message))

variable (hash : WideHash) (key : SigningKey) (message : Bytes)

theorem r_signWith : (key.signWith hash message).r =
    encode ((nonce hash key message).toNat • base) :=
  Point.toBytes_eq (Point.represents_mulBase (lt_trans (Scalar.toNat_ofWide_lt _) (by decide)))

theorem response_signWith : (key.signWith hash message).response =
    (challengeInteger hash (key.signWith hash message).r key.verifyingKey.bytes message *
      key.scalar.toNat + (nonce hash key message).toNat) % order := by
  rw [← toNat_challenge]
  exact Scalar.toNat_mulAdd _ _ _

/-- Any key of the point that the secret multiplies the base point to accepts. -/
theorem verifyWith_signWith {key : SigningKey} {verifier : VerifyingKey}
    (hbytes : verifier.bytes = key.verifyingKey.bytes)
    (hverifier : verifier.Represents (key.scalar.toNat • base)) :
    verifier.verifyWith hash message (key.signWith hash message) = true := by
  refine (VerifyingKey.verifyWith_eq_true_iff hverifier hash message _).mpr ⟨?_, ?_⟩
  · rw [response_signWith]
    exact Nat.mod_lt _ (by decide)
  · rw [r_signWith, VerifyingKey.expected, hbytes, response_signWith, Curve.mod_nsmul_base,
      add_nsmul, mul_nsmul', add_sub_cancel_left]

/-- Signatures verify, also under the key read back from its encoding, and when read back from
their own bytes. -/
theorem signature_verifies (hash : WideHash) (seed : Vector UInt8 32) (message : Bytes) :
    let key := ofSeedWith hash seed
    let g := key.signWith hash message
    key.verifyingKey.verifyWith hash message g = true ∧
      ∃ decoded parsed,
        VerifyingKey.ofBytes key.verifyingKey.bytes = .ok decoded ∧
        Signature.ofBytes g.toBytes = .ok parsed ∧
        decoded.verifyWith hash message g = true ∧
        key.verifyingKey.verifyWith hash message parsed = true ∧
        decoded.verifyWith hash message parsed = true := by
  intro key g
  have hkey : key.verifyingKey.Represents (key.scalar.toNat • base) :=
    represents_verifyingKey hash seed
  obtain ⟨decoded, hread, hbytes, hdecoded⟩ := VerifyingKey.exists_ofBytes hkey
  have hholds := verifyWith_signWith hash message rfl hkey
  have hdecodedHolds := verifyWith_signWith hash message hbytes hdecoded
  exact ⟨hholds, decoded, g, hread, Signature.ofBytes_toBytes g, hdecodedHolds, hholds,
    hdecodedHolds⟩

end SigningKey

end CurveKeys.Edwards25519
