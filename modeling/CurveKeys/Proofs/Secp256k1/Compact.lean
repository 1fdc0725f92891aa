import CurveKeys.Proofs.Secp256k1.Component
import CurveKeys.Proofs.Secp256k1.Recovery

/-!
The encodings of a signature are read back as they were written: the fixed-width form gives the
components, and the header of the compact form gives the identifier and the form of the key.
-/

namespace CurveKeys.Secp256k1

namespace RecoveryId

/-- The header byte is in range and its bits are the identifier and the form of the key. -/
theorem header_spec (id : RecoveryId) (compressed : Bool) :
    let header := 27 + id.toByte + (if compressed then 4 else 0)
    ¬ (header < 27 ∨ 35 ≤ header) ∧ ofByte ((header - 27) &&& 3) = .ok id ∧
      decide ((header - 27) &&& 4 ≠ 0) = compressed := by
  obtain ⟨yOdd, xReduced⟩ := id
  cases yOdd <;> cases xReduced <;> cases compressed <;> decide

end RecoveryId

namespace Signature
open Scalar (order)

theorem component_lt {c : Component} {b : Bytes} {k : Scalar} (h : component c b = .ok k) :
    k.toNat < order := by
  obtain ⟨-, hrange, hk⟩ := component_eq_ok_iff.mp h
  rw [hk]
  exact hrange.2

theorem lt_of_ofBytes {b : Bytes} {g : Signature} (h : ofBytes b = .ok g) :
    g.r.toNat < order ∧ g.s.toNat < order := by
  unfold ofBytes at h
  split at h
  · obtain ⟨r, hr, h⟩ := bind_eq_ok_iff.mp h
    obtain ⟨s, hs, h⟩ := bind_eq_ok_iff.mp h
    obtain rfl := Except.ok.inj h
    exact ⟨component_lt hr, component_lt hs⟩
  · exact nomatch h

theorem length_toBytes (g : Signature) : g.toBytes.length = 64 := by
  rw [toBytes, List.length_append, Vector.length_toList, Vector.length_toList]

theorem ofBytes_toBytes {g : Signature} (hr : g.r.toNat < order) (hs : g.s.toNat < order)
    (hr0 : g.r.toNat ≠ 0) (hs0 : g.s.toNat ≠ 0) : ofBytes g.toBytes = .ok g := by
  have htake : g.toBytes.take 32 = g.r.toBytes.toList :=
    List.take_left' g.r.toBytes.length_toList
  have hdrop : g.toBytes.drop 32 = g.s.toBytes.toList :=
    List.drop_left' g.r.toBytes.length_toList
  rw [ofBytes, if_pos g.length_toBytes, htake, hdrop, component_toBytes hr hr0,
    component_toBytes hs hs0, ok_bind, ok_bind]

/-- Recovery from the compact form is recovery with the identifier of the header. -/
theorem recoverCompact_toCompact {g : Signature} (hr : g.r.toNat < order)
    (hs : g.s.toNat < order) (hr0 : g.r.toNat ≠ 0) (hs0 : g.s.toNat ≠ 0) (id : RecoveryId)
    (compressed : Bool) (hash : Bytes) :
    recoverCompact (g.toCompact id compressed) hash =
      (g.recover hash id >>= fun key => .ok (key, compressed)) := by
  obtain ⟨hrange, hid, hform⟩ := RecoveryId.header_spec id compressed
  rw [toCompact, recoverCompact, if_neg (not_not.mpr g.length_toBytes), if_neg hrange]
  extract_lets code
  rw [show RecoveryId.ofByte (code &&& 3) = .ok id from hid, ofBytes_toBytes hr hs hr0 hs0,
    ok_bind, ok_bind, show decide (code &&& 4 ≠ 0) = compressed from hform]

end Signature

end CurveKeys.Secp256k1
