import CurveKeys.Proofs.Edwards25519.Encoding
import CurveKeys.Proofs.Edwards25519.Multiple
import CurveKeys.Proofs.Edwards25519.Scalar.Residue
import CurveKeys.Edwards25519.SigningKey

/-!
A public key, read from its encoding or made from a seed, holds a representation of the point that
its encoding stands for.
-/

namespace CurveKeys.Edwards25519
open Curve (base encode Decodes)
open Limbs (order)

namespace VerifyingKey

/-- The encoding stands for the point that the coordinates represent. -/
structure Represents (key : VerifyingKey) (P : Curve.Point) : Prop where
  bytes : Decodes key.bytes P
  point : key.point.Represents P

theorem represents_ofPoint {p : Point} {P : Curve.Point} (h : p.Represents P) :
    (ofPoint p).Represents P := by
  refine ⟨?_, h⟩
  rw [ofPoint, Point.toBytes_eq h]
  exact Curve.decodes_encode P

theorem ofBytes_eq_ok {b : Vector UInt8 32} {key : VerifyingKey} (h : ofBytes b = .ok key) :
    ∃ p, Point.ofBytes b = .ok p ∧ key = ⟨b, p⟩ := by
  rw [ofBytes] at h
  cases hp : Point.ofBytes b with
  | error e =>
      rw [hp] at h
      exact nomatch h
  | ok p =>
      rw [hp] at h
      exact ⟨p, rfl, (Except.ok.inj h).symm⟩

theorem represents_of_ofBytes {b : Vector UInt8 32} {key : VerifyingKey}
    (h : ofBytes b = .ok key) : key.bytes = b ∧ ∃ P, key.Represents P := by
  obtain ⟨p, hp, rfl⟩ := ofBytes_eq_ok h
  obtain ⟨P, hrep, hdec⟩ := Point.represents_of_ofBytes hp
  exact ⟨rfl, P, hdec, hrep⟩

/-- The encoding of a key that represents a point is read back as a key of the point. -/
theorem exists_ofBytes {key : VerifyingKey} {P : Curve.Point} (h : key.Represents P) :
    ∃ decoded, ofBytes key.bytes = .ok decoded ∧ decoded.bytes = key.bytes ∧
      decoded.Represents P := by
  obtain ⟨p, hp, hrep⟩ := Point.exists_ofBytes_of_decodes h.bytes
  refine ⟨⟨key.bytes, p⟩, ?_, rfl, h.bytes, hrep⟩
  rw [ofBytes, hp]
  rfl

end VerifyingKey

namespace Scalar

theorem toNat_ofWide_lt (b : Vector UInt8 64) : (ofWide b).toNat < order := by
  rw [toNat_ofWide]
  exact Nat.mod_lt _ (by decide)

theorem toNat_ofClamped_lt (b : Vector UInt8 32) : (ofClamped b).toNat < order := by
  rw [ofClamped, toNat_ofBytes]
  exact Nat.mod_lt _ (by decide)

end Scalar

namespace SigningKey

theorem represents_verifyingKey (hash : WideHash) (seed : Vector UInt8 32) :
    (ofSeedWith hash seed).verifyingKey.Represents
      ((ofSeedWith hash seed).scalar.toNat • base) := by
  refine VerifyingKey.represents_ofPoint (Point.represents_mulBase ?_)
  exact lt_trans (Scalar.toNat_ofClamped_lt _) (by decide)

end SigningKey

/-- The ways to come by a public key. -/
inductive VerifyingKey.Obtained : VerifyingKey → Prop where
  | read {b : Vector UInt8 32} {key : VerifyingKey} (h : ofBytes b = .ok key) : Obtained key
  | derived (hash : WideHash) (seed : Vector UInt8 32) :
      Obtained (SigningKey.ofSeedWith hash seed).verifyingKey

theorem VerifyingKey.Obtained.represents {key : VerifyingKey} (h : key.Obtained) :
    ∃ P, key.Represents P := by
  cases h with
  | read h => exact (represents_of_ofBytes h).2
  | derived hash seed => exact ⟨_, SigningKey.represents_verifyingKey hash seed⟩

end CurveKeys.Edwards25519
