import CurveKeys.Proofs.Edwards25519.Signing

/-!
The byte forms of secret keys. Each form begins with the seed, which decides the key; the longer
ones are read only with the public key of that seed, so what is written is read back.
-/

namespace CurveKeys.Edwards25519

theorem VerifyingKey.ofSlice_eq_ok_iff {b : Bytes} {key : VerifyingKey} :
    ofSlice b = .ok key ↔ ∃ v : Vector UInt8 32, v.toList = b ∧ ofBytes v = .ok key := by
  unfold ofSlice
  constructor
  · intro h
    split at h
    · next v hv => exact ⟨v, Bytes.exactly_eq_some_iff.mp hv, h⟩
    · exact nomatch h
  · rintro ⟨v, hv, h⟩
    rw [Bytes.exactly_eq_some_iff.mpr hv]
    exact h

namespace SigningKey
variable {hash : WideHash}

/-- The ways to come by a secret key. -/
inductive Obtained (hash : WideHash) : SigningKey → Prop where
  | ofSeed (seed : Vector UInt8 32) : Obtained hash (ofSeedWith hash seed)
  | ofSlice {b : Bytes} {key : SigningKey} (h : ofSlice b hash = .ok key) : Obtained hash key
  | ofKeypair {b : Vector UInt8 64} {key : SigningKey} (h : ofKeypair b hash = .ok key) :
      Obtained hash key
  | ofForms {b : Bytes} {key : SigningKey} (h : ofForms b hash = .ok key) : Obtained hash key
  | random {tape rest : Bytes} {key : SigningKey} (h : random? tape hash = some (key, rest)) :
      Obtained hash key

theorem exists_seed_of_ofSlice {b : Bytes} {key : SigningKey} (h : ofSlice b hash = .ok key) :
    ∃ seed, key = ofSeedWith hash seed := by
  unfold ofSlice at h
  split at h
  · next seed _ => exact ⟨seed, (Except.ok.inj h).symm⟩
  · exact nomatch h

theorem exists_seed_of_ofKeypair {b : Vector UInt8 64} {key : SigningKey}
    (h : ofKeypair b hash = .ok key) : ∃ seed, key = ofSeedWith hash seed := by
  unfold ofKeypair at h
  extract_lets decoded at h
  split at h
  · exact ⟨_, (Except.ok.inj h).symm⟩
  · exact nomatch h

theorem exists_seed_of_ofForms {b : Bytes} {key : SigningKey} (h : ofForms b hash = .ok key) :
    ∃ seed, key = ofSeedWith hash seed := by
  unfold ofForms at h
  split at h
  · exact exists_seed_of_ofSlice h
  · split at h
    · exact exists_seed_of_ofKeypair h
    · split at h
      · split at h
        · exact exists_seed_of_ofKeypair h
        · exact nomatch h
      · exact nomatch h

theorem Obtained.exists_seed {key : SigningKey} (h : key.Obtained hash) :
    ∃ seed, key = .ofSeedWith hash seed := by
  cases h with
  | ofSeed seed => exact ⟨seed, rfl⟩
  | ofSlice h => exact exists_seed_of_ofSlice h
  | ofKeypair h => exact exists_seed_of_ofKeypair h
  | ofForms h => exact exists_seed_of_ofForms h
  | random h =>
      obtain ⟨seed, -, e⟩ := Option.map_eq_some_iff.mp h
      exact ⟨seed, (Prod.mk.inj e).1.symm⟩

theorem length_toKeypair (key : SigningKey) : key.toKeypair.length = 64 := by
  rw [toKeypair, List.length_append, Vector.length_toList, Vector.length_toList]

/-- The written form is read back as the key. -/
theorem ofForms_toKeypair {key : SigningKey} (h : key.Obtained hash) :
    ofForms key.toKeypair hash = .ok key := by
  obtain ⟨seed, rfl⟩ := h.exists_seed
  have hlen := length_toKeypair (ofSeedWith hash seed)
  have hseed : Bytes.window 32 (ofSeedWith hash seed).toKeypair = seed :=
    Bytes.window_append seed _
  have hdrop : (ofSeedWith hash seed).toKeypair.drop 32 =
      (ofSeedWith hash seed).verifyingKey.bytes.toList := by
    rw [toKeypair, List.drop_left' (by rw [Vector.length_toList])]
  rw [ofForms, if_neg (by rw [hlen]; decide), if_pos hlen, ofKeypair,
    Bytes.toList_window_of_length hlen, hseed, hdrop, if_pos (beq_self_eq_true _)]

end SigningKey

end CurveKeys.Edwards25519
