import CurveKeys.Proofs.Secp256k1.Compact
import CurveKeys.Proofs.Secp256k1.GroupLaw
import CurveKeys.Proofs.Text

/-!
The keys of the curve, however they are obtained. Secret keys are the integers from 1 up to the
order and give different public keys, none of them infinity; every public key is a point of the
curve in normalized coordinates.
-/

namespace CurveKeys.Secp256k1

namespace SecretKey
open Curve
open Scalar (order)

/-- The secret keys that public operations produce; every scalar at hand is below the order. -/
inductive Obtained : SecretKey → Prop where
  | ofScalar {k : Scalar} {d : SecretKey} (hk : k.toNat < order) (h : ofScalar k = .ok d) :
      Obtained d
  | ofBytes {b : Vector UInt8 32} {d : SecretKey} (h : ofBytes b = .ok d) : Obtained d
  | ofSlice {b : Bytes} {d : SecretKey} (h : ofSlice b = .ok d) : Obtained d
  | random {tape rest : Bytes} {d : SecretKey} (h : random? tape = some (d, rest)) : Obtained d

/-- The scalar is an integer from 1 up to the order. -/
structure InRange (d : SecretKey) : Prop where
  lt : d.scalar.toNat < order
  ne_zero : d.scalar.toNat ≠ 0

theorem ofScalar_eq_ok_iff {k : Scalar} {d : SecretKey} :
    ofScalar k = .ok d ↔ k.toNat ≠ 0 ∧ d = ⟨k⟩ := by
  unfold ofScalar
  split
  · next h => exact iff_of_false (fun e => nomatch e) fun e => e.1 ((Scalar.isZero_iff k).mp h)
  · next h =>
      rw [Except.ok.injEq, eq_comm]
      exact (and_iff_right fun e => h ((Scalar.isZero_iff k).mpr e)).symm

theorem inRange_of_ofScalar {k : Scalar} {d : SecretKey} (hk : k.toNat < order)
    (h : ofScalar k = .ok d) : d.InRange := by
  obtain ⟨h0, rfl⟩ := ofScalar_eq_ok_iff.mp h
  exact ⟨hk, h0⟩

theorem inRange_of_random? {tape rest : Bytes} {d : SecretKey}
    (h : random? tape = some (d, rest)) : d.InRange := by
  induction tape using random?.induct with
  | case1 tape hshort =>
      rw [random?, dif_pos hshort] at h
      exact nomatch h
  | case2 tape hlong k overflow hdrawn hreject ih =>
      rw [random?, dif_neg hlong, hdrawn] at h
      simp only [if_pos hreject] at h
      exact ih h
  | case3 tape hlong k overflow hdrawn haccept =>
      have hk := Scalar.reduceSlice_lt tape
      rw [random?, dif_neg hlong, hdrawn] at h
      rw [hdrawn] at hk
      simp only [if_neg haccept] at h
      obtain ⟨rfl, -⟩ := Prod.mk.inj (Option.some.inj h)
      refine ⟨hk, fun e => haccept ?_⟩
      rw [(Scalar.isZero_iff k).mpr e, Bool.or_true]

theorem obtained_iff (d : SecretKey) : d.Obtained ↔ d.InRange := by
  constructor
  · intro h
    cases h with
    | ofScalar hk h => exact inRange_of_ofScalar hk h
    | @ofBytes b _ h => exact inRange_of_ofScalar (Scalar.reduceSlice_lt b.toList) (by
        rwa [Scalar.reduceSlice, Bytes.window_toList])
    | ofSlice h => exact inRange_of_ofScalar (Scalar.reduceSlice_lt _) h
    | random h => exact inRange_of_random? h
  · rintro ⟨hlt, h0⟩
    exact .ofScalar hlt (ofScalar_eq_ok_iff.mpr ⟨h0, rfl⟩)

/-- The bytes of a key are read back as the key. -/
theorem ofBytes_toBytes {d : SecretKey} (h : d.InRange) : ofBytes d.toBytes = .ok d := by
  rw [ofBytes, toBytes, Scalar.reduceBytes_toBytes h.lt]
  exact ofScalar_eq_ok_iff.mpr ⟨h.ne_zero, rfl⟩

theorem InRange.denotes_publicKey {d : SecretKey} (h : d.InRange) :
    d.publicKey.Denotes (d.scalar.toNat • generator) :=
  SecretKey.denotes_publicKey h.lt h.ne_zero

theorem publicKey_injective {d e : SecretKey} (hd : d.InRange) (he : e.InRange)
    (h : d.publicKey = e.publicKey) : d = e := by
  have hdQ := hd.denotes_publicKey
  have heQ := he.denotes_publicKey
  rw [h] at hdQ
  have hpoint := AffinePoint.point_eq_of_denotes hdQ.point heQ.point
  exact congrArg mk (Scalar.eq_of_toNat_eq (nsmul_generator_injOn hd.lt he.lt hpoint))

/-- The check that derivation leaves out would pass. -/
theorem ofAffine_publicKey {d : SecretKey} (h : d.InRange) :
    PublicKey.ofAffine (JacobianPoint.mulBase d.scalar).toAffine = .ok d.publicKey := by
  have hQ := h.denotes_publicKey
  have hfinite := fun e => hQ.ne_zero ((AffinePoint.isIdentity_iff hQ.point).mp e)
  change PublicKey.ofAffine d.publicKey.point = _
  rw [PublicKey.ofAffine, if_neg hfinite]

end SecretKey

namespace PublicKey
open FieldElement Curve
open Scalar (order)

/-- The public keys that runs of public operations produce. The point of a key is itself a point
that such a run produces, so that taking it out of one key and into another adds nothing. -/
inductive Obtained : PublicKey → Prop where
  | derived {d : SecretKey} (hd : d.Obtained) : Obtained d.publicKey
  | read {b : Bytes} {key : PublicKey} (h : ofBytes b = .ok key) : Obtained key
  | readText {text : String} {key : PublicKey} (h : ofText text = .ok key) : Obtained key
  | recovered {g : Signature} {hash : Bytes} {id : RecoveryId} {key : PublicKey}
      (hr : g.r.toNat < order) (hs : g.s.toNat < order) (h : g.recover hash id = .ok key) :
      Obtained key
  | recoveredCompact {compact hash : Bytes} {key : PublicKey} {compressed : Bool}
      (h : Signature.recoverCompact compact hash = .ok (key, compressed)) : Obtained key
  | ofAffine {p : AffinePoint} {key : PublicKey} (hp : Secp256k1.Obtained (.affine p))
      (h : ofAffine p = .ok key) : Obtained key

theorem ofAffine_eq_ok {p : AffinePoint} {key : PublicKey} (h : ofAffine p = .ok key) :
    p.isIdentity = false ∧ key = ⟨p⟩ := by
  unfold ofAffine at h
  split at h
  · exact nomatch h
  · next hp => exact ⟨Bool.eq_false_of_not_eq_true hp, (Except.ok.inj h).symm⟩

theorem obtained_of_ofBytes {b : Bytes} {key : PublicKey} (h : ofBytes b = .ok key) :
    Secp256k1.Obtained (.affine key.point) := by
  cases b with
  | nil => exact nomatch h
  | cons tag body =>
      rcases ofBytes_cons_eq_ok_iff.mp h with ⟨-, h⟩ | ⟨-, h⟩
      · obtain ⟨-, x, -, hp⟩ := ofCompressed_eq_ok_iff.mp h
        exact .decompress hp
      · obtain ⟨-, x, y, -, -, -, hp⟩ := ofUncompressed_eq_ok_iff.mp h
        exact .ofCoordinates hp

theorem exists_ofBytes_of_ofText {text : String} {key : PublicKey} (h : ofText text = .ok key) :
    ∃ b, ofBytes b = .ok key := by
  obtain ⟨b, -, -, hb⟩ := TextError.read_eq_ok_iff.mp h
  exact ⟨b, hb⟩

/-- The recovered point is a sum of multiples of the base point and of a decompressed point. -/
theorem obtained_of_recoverFrom {g : Signature} (hr : g.r.toNat < order)
    (hs : g.s.toNat < order) {hash : Bytes} {nonce : AffinePoint}
    (hnonce : Secp256k1.Obtained (.affine nonce)) {key : PublicKey}
    (h : g.recoverFrom hash nonce = .ok key) : Secp256k1.Obtained (.affine key.point) := by
  have hw := Scalar.denotes_invert (Scalar.denotes_of_reduced hr)
  have h1 := Scalar.denotes_negate
    (Scalar.denotes_mul (Signature.denotes_hashScalar hash) hw)
  have h2 := Scalar.denotes_mul (Scalar.denotes_of_reduced hs) hw
  unfold Signature.recoverFrom at h
  extract_lets q at h
  split at h
  · exact nomatch h
  · obtain ⟨-, rfl⟩ := ofAffine_eq_ok h
    exact .toAffine (.addVar (.mulBaseVar h1.reduced) (.mulVar (.ofAffine hnonce) h2.reduced))

theorem obtained_of_recover {g : Signature} (hr : g.r.toNat < order) (hs : g.s.toNat < order)
    {hash : Bytes} {id : RecoveryId} {key : PublicKey} (h : g.recover hash id = .ok key) :
    Secp256k1.Obtained (.affine key.point) := by
  obtain ⟨hr0, hs0⟩ := Signature.ne_zero_of_recover_eq_ok h
  rw [Signature.recover_eq hr0 hs0] at h
  obtain ⟨x, -, h⟩ := bind_eq_ok_iff.mp h
  split at h
  · exact nomatch h
  · next nonce hnonce => exact obtained_of_recoverFrom hr hs (.decompress hnonce) h

theorem exists_recover_of_recoverCompact {compact hash : Bytes} {key : PublicKey}
    {compressed : Bool} (h : Signature.recoverCompact compact hash = .ok (key, compressed)) :
    ∃ (g : Signature) (id : RecoveryId), g.r.toNat < order ∧ g.s.toNat < order ∧
      g.recover hash id = .ok key := by
  cases compact with
  | nil => cases h
  | cons header body =>
      rw [Signature.recoverCompact] at h
      split at h
      · cases h
      · split at h
        · cases h
        · obtain ⟨id, -, h⟩ := bind_eq_ok_iff.mp h
          obtain ⟨g, hg, h⟩ := bind_eq_ok_iff.mp h
          obtain ⟨recovered, hrecover, h⟩ := bind_eq_ok_iff.mp h
          obtain ⟨rfl, -⟩ := Prod.mk.inj (Except.ok.inj h)
          obtain ⟨hr, hs⟩ := Signature.lt_of_ofBytes hg
          exact ⟨g, id, hr, hs, hrecover⟩

/-- Nothing is gained by taking the point out of a key. -/
theorem Obtained.affine {key : PublicKey} (h : key.Obtained) :
    Secp256k1.Obtained (.affine key.point) := by
  cases h with
  | derived hd => exact .toAffine (.mulBase ((SecretKey.obtained_iff _).mp hd).lt)
  | read h => exact obtained_of_ofBytes h
  | readText h =>
      obtain ⟨b, hb⟩ := exists_ofBytes_of_ofText h
      exact obtained_of_ofBytes hb
  | recovered hr hs h => exact obtained_of_recover hr hs h
  | recoveredCompact h =>
      obtain ⟨g, id, hr, hs, h⟩ := exists_recover_of_recoverCompact h
      exact obtained_of_recover hr hs h
  | ofAffine hp h =>
      obtain ⟨-, rfl⟩ := ofAffine_eq_ok h
      exact hp

theorem exists_denotes_of_recover {g : Signature} (hr : g.r.toNat < order)
    (hs : g.s.toNat < order) {hash : Bytes} {id : RecoveryId} {key : PublicKey}
    (h : g.recover hash id = .ok key) : ∃ Q, key.Denotes Q := by
  obtain ⟨hr0, hs0⟩ := Signature.ne_zero_of_recover_eq_ok h
  have hout := Signature.outcome_recover hr hs hr0 hs0 hash id
  rw [h] at hout
  cases hout with
  | key _ _ hkey => exact ⟨_, hkey⟩

theorem Obtained.denotes {key : PublicKey} (h : key.Obtained) : ∃ Q, key.Denotes Q := by
  cases h with
  | derived hd => exact ⟨_, ((SecretKey.obtained_iff _).mp hd).denotes_publicKey⟩
  | read h => exact exists_denotes_of_ofBytes h
  | readText h =>
      obtain ⟨b, hb⟩ := exists_ofBytes_of_ofText h
      exact exists_denotes_of_ofBytes hb
  | recovered hr hs h => exact exists_denotes_of_recover hr hs h
  | recoveredCompact h =>
      obtain ⟨g, id, hr, hs, h⟩ := exists_recover_of_recoverCompact h
      exact exists_denotes_of_recover hr hs h
  | ofAffine hp h =>
      obtain ⟨P, hP⟩ := hp.denotes
      obtain ⟨hfinite, rfl⟩ := ofAffine_eq_ok h
      refine ⟨P, hP, fun e => ?_⟩
      rw [(AffinePoint.isIdentity_iff hP).mpr e] at hfinite
      exact Bool.noConfusion hfinite

/-- The coordinates are normalized and satisfy the curve equation. -/
structure Valid (key : PublicKey) : Prop where
  x : key.point.x.Canonical
  y : key.point.y.Canonical
  equation : key.point.y.residue ^ 2 = key.point.x.residue ^ 3 + 7
  finite : key.point.isIdentity = false

theorem valid_iff (key : PublicKey) : key.Valid ↔ ∃ Q, key.Denotes Q := by
  constructor
  · rintro ⟨hx, hy, hequation, -⟩
    exact ⟨Curve.point _ _ hequation, .finite hx hy rfl rfl,
      WeierstrassCurve.Affine.Point.some_ne_zero _⟩
  · rintro ⟨Q, hQ, hne⟩
    obtain ⟨x, y, hxy, rfl, hx, hy, rfl, rfl⟩ := AffinePoint.exists_coordinates hQ hne
    refine ⟨hx, hy, (nonsingular_iff _ _).mp hxy, Bool.eq_false_of_not_eq_true fun e => ?_⟩
    exact hne ((AffinePoint.isIdentity_iff hQ).mp e)

end PublicKey

namespace SecretKey
open Scalar (order)

/-- Different secret keys have different public keys, none of them infinity, and every public key,
derived or not, is a valid point. -/
theorem derivation_injective :
    (∀ d e : SecretKey, d.Obtained → e.Obtained → (d.publicKey = e.publicKey ↔ d = e)) ∧
    (∀ d : SecretKey, d.Obtained →
      (JacobianPoint.mulBase d.scalar).toAffine.isIdentity = false ∧
      PublicKey.ofAffine (JacobianPoint.mulBase d.scalar).toAffine = .ok d.publicKey) ∧
    ∀ key : PublicKey, key.Obtained → key.Valid ∧ Secp256k1.Obtained (.affine key.point) := by
  refine ⟨fun d e hd he => ⟨fun h => ?_, fun h => h ▸ rfl⟩, fun d hd => ?_, fun key hkey => ?_⟩
  · exact publicKey_injective ((obtained_iff d).mp hd) ((obtained_iff e).mp he) h
  · have h := ofAffine_publicKey ((obtained_iff d).mp hd)
    exact ⟨(PublicKey.ofAffine_eq_ok h).1, h⟩
  · exact ⟨(PublicKey.valid_iff key).mpr hkey.denotes, hkey.affine⟩

/-- The keys of 1 and of -1, which share the first coordinate. -/
theorem derivation_injective_one :
    Obtained ⟨.one⟩ ∧ Obtained ⟨Scalar.one.negate⟩ ∧
      publicKey ⟨.one⟩ ≠ publicKey ⟨Scalar.one.negate⟩ ∧ (publicKey ⟨.one⟩).Valid := by
  have hone : Obtained ⟨.one⟩ := .ofScalar (show Scalar.one.toNat < order by decide) rfl
  have hminus : Obtained ⟨Scalar.one.negate⟩ :=
    .ofScalar (show Scalar.one.negate.toNat < order by decide) rfl
  obtain ⟨hinjective, -, hvalid⟩ := derivation_injective
  have hne : (⟨.one⟩ : SecretKey) ≠ ⟨Scalar.one.negate⟩ := by decide
  exact ⟨hone, hminus, fun h => hne ((hinjective _ _ hone hminus).mp h),
    (hvalid _ (.derived hone)).1⟩

end SecretKey

end CurveKeys.Secp256k1
