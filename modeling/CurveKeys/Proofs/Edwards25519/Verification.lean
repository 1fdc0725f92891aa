import CurveKeys.Proofs.Edwards25519.Key

/-!
Verification is the check without the cofactor: the response is below the order, and the commitment
is the encoding of one point. The order of the base point then leaves room for one response only.
-/

namespace CurveKeys.Edwards25519
open Curve (base encode Decodes)
open Limbs (order)

/-- The challenge as an integer. -/
def challengeInteger (hash : WideHash) (r a : Vector UInt8 32) (message : Bytes) : Nat :=
  Bytes.toNatLE (hash (r.toList ++ a.toList ++ message)).toList % order

theorem toNat_challenge (hash : WideHash) (r a : Vector UInt8 32) (message : Bytes) :
    (challenge hash r a message).toNat = challengeInteger hash r a message :=
  Scalar.toNat_ofWide _

namespace Signature

/-- The integer of the response bytes. -/
def response (g : Signature) : Nat := Bytes.toNatLE g.s.toList

/-- Below the order, the first test on the top byte passes. -/
theorem topBits_eq_zero {g : Signature} (h : g.response < order) :
    (Bytes.byteAt g.s 31 &&& 0xE0 == 0) = true := by
  have hbyte : (Bytes.byteAt g.s 31).toNat < 32 := by
    have hlt : g.response < 2 ^ 253 := lt_trans h (by decide)
    rw [response] at hlt
    rw [Bytes.byteAt_eq_getD, Bytes.toNat_getD]
    omega
  exact beq_iff_eq.mpr (Words.of_byte_lt (P := fun x => x &&& 0xE0 = 0) (by decide) hbyte)

end Signature

namespace VerifyingKey

/-- The point that a commitment has to encode. -/
def expected (hash : WideHash) (key : VerifyingKey) (P : Curve.Point) (message : Bytes)
    (g : Signature) : Curve.Point :=
  g.response • base - challengeInteger hash g.r key.bytes message • P

theorem verifyWith_eq_true_iff {key : VerifyingKey} {P : Curve.Point} (hkey : key.Represents P)
    (hash : WideHash) (message : Bytes) (g : Signature) :
    key.verifyWith hash message g = true ↔
      g.response < order ∧ g.r = encode (expected hash key P message g) := by
  rw [verifyWith, Scalar.ofCanonical_eq]
  by_cases hs : g.response < order
  · have hk : (challenge hash g.r key.bytes message).toNat < order := Scalar.toNat_ofWide_lt _
    have hsum := Point.represents_doubleMulBase (Point.represents_negate hkey.point)
      (a := challenge hash g.r key.bytes message) (b := ⟨g.s⟩)
      (le_trans hk.le (by decide)) (le_trans (le_of_lt hs) (by decide))
    have hpoint : (challenge hash g.r key.bytes message).toNat • -P +
        (⟨g.s⟩ : Scalar).toNat • base = expected hash key P message g := by
      rw [toNat_challenge, expected, smul_neg, neg_add_eq_sub]
      rfl
    rw [hpoint] at hsum
    have hif : Bytes.toNatLE g.s.toList < order := hs
    rw [Signature.topBits_eq_zero hs, Bool.true_and, if_pos hif]
    dsimp only
    rw [Point.toBytes_eq hsum, beq_iff_eq, eq_comm]
    exact ⟨fun h => ⟨hs, h⟩, fun h => h.2⟩
  · have hif : ¬Bytes.toNatLE g.s.toList < order := hs
    rw [if_neg hif]
    dsimp only
    rw [Bool.and_false]
    exact ⟨fun h => (nomatch h), fun h => absurd h.1 hs⟩

/-- Two responses to one commitment are the same multiple of the base point. -/
theorem response_unique {key : VerifyingKey} {P : Curve.Point} (hkey : key.Represents P)
    {hash : WideHash} {message : Bytes} {r s t : Vector UInt8 32}
    (hs : key.verifyWith hash message ⟨r, s⟩ = true)
    (ht : key.verifyWith hash message ⟨r, t⟩ = true) : s = t := by
  obtain ⟨hslt, hsr⟩ := (verifyWith_eq_true_iff hkey hash message _).mp hs
  obtain ⟨htlt, htr⟩ := (verifyWith_eq_true_iff hkey hash message _).mp ht
  have hpoint : expected hash key P message ⟨r, s⟩ = expected hash key P message ⟨r, t⟩ :=
    Curve.encode_injective (hsr.symm.trans htr)
  have hmod := (Curve.nsmul_base_eq_iff _ _).mp (sub_left_injective hpoint)
  rw [Nat.mod_eq_of_lt hslt, Nat.mod_eq_of_lt htlt] at hmod
  exact Bytes.vector_eq_of_toNatLE_eq hmod

/-- A commitment that is not the canonical encoding of its point is refused. -/
theorem verifyWith_of_ne_encode {key : VerifyingKey} {P R : Curve.Point}
    (hkey : key.Represents P) {hash : WideHash} {message : Bytes} {g : Signature}
    (hR : Decodes g.r R) (hne : g.r ≠ encode R) : key.verifyWith hash message g = false := by
  rw [Bool.eq_false_iff]
  intro h
  obtain ⟨-, hr⟩ := (verifyWith_eq_true_iff hkey hash message g).mp h
  have hdec := Curve.decodes_encode (expected hash key P message g)
  rw [← hr] at hdec
  exact hne (hr.trans (congrArg encode (hdec.unique hR)))

/-- What verification accepts under a key, for every hash; SHA-512 is the usual one. -/
theorem accepts_exactly {key : VerifyingKey} (hkey : key.Obtained) :
    key.verify = key.verifyWith Sha512.hash ∧
    ∃ P, Decodes key.bytes P ∧ (∀ Q, Decodes key.bytes Q → Q = P) ∧
      ∀ (hash : WideHash) (message : Bytes),
        (∀ g : Signature, key.verifyWith hash message g = true ↔
          Bytes.toNatLE g.s.toList < order ∧
          g.r = encode (Bytes.toNatLE g.s.toList • base -
            (Bytes.toNatLE (hash (g.r.toList ++ key.bytes.toList ++ message)).toList % order) •
              P)) ∧
        (∀ r s t, key.verifyWith hash message ⟨r, s⟩ = true →
          key.verifyWith hash message ⟨r, t⟩ = true → s = t) ∧
        ∀ g R, Decodes g.r R → g.r ≠ encode R → key.verifyWith hash message g = false := by
  obtain ⟨P, hP⟩ := hkey.represents
  refine ⟨rfl, P, hP.bytes, fun Q hQ => hQ.unique hP.bytes, fun hash message => ?_⟩
  exact ⟨verifyWith_eq_true_iff hP hash message, fun _ _ _ => response_unique hP,
    fun _ _ => verifyWith_of_ne_encode hP⟩

/-- Under the key of the secret one, the challenge answers the commitment to the nonce zero. -/
theorem accepts_nonce_zero : ∃ key, ofBytes (encode base) = .ok key ∧
    ∀ (hash : WideHash) (message : Bytes), key.verifyWith hash message
      ⟨encode 0, (challenge hash (encode 0) (encode base) message).bytes⟩ = true := by
  obtain ⟨p, hp, -⟩ := Point.exists_ofBytes_of_decodes (Curve.decodes_encode base)
  have hread : ofBytes (encode base) = .ok ⟨encode base, p⟩ := by
    rw [ofBytes, hp]
    rfl
  obtain ⟨-, P, -, hunique, haccepts⟩ := accepts_exactly (.read hread)
  obtain rfl := hunique base (Curve.decodes_encode base)
  refine ⟨_, hread, fun hash message => ?_⟩
  have hlt : (challenge hash (encode 0) (encode base) message).toNat < order :=
    Scalar.toNat_ofWide_lt _
  have hvalue := toNat_challenge hash (encode 0) (encode base) message
  rw [Scalar.toNat] at hlt hvalue
  refine ((haccepts hash message).1 _).mpr ⟨hlt, ?_⟩
  rw [hvalue, challengeInteger, sub_self]

end VerifyingKey

end CurveKeys.Edwards25519
