import CurveKeys.Proofs.Edwards25519.GroupLaw

/-!
Reading and writing points. Bytes are read exactly where the curve has a point with their second
coordinate; writing is canonical, and it gives back the bytes that were read unless the coordinate
was not reduced or a sign was set that means nothing.
-/

namespace CurveKeys.Edwards25519
open FieldElement (prime)

namespace Curve

/-- Where the quotient is a square, one of its roots has the parity that is asked for. -/
theorem exists_decodes_iff (b : Vector UInt8 32) {y : ZMod prime}
    (hy : y = ((Bytes.toNatLE b.toList % 2 ^ 255 : Nat) : ZMod prime)) :
    (∃ P, Decodes b P) ↔ IsSquare ((y ^ 2 - 1) / (constant * y ^ 2 + 1)) := by
  constructor
  · rintro ⟨P, hP⟩
    rw [hy, ← hP.y]
    exact isSquare_quotient P
  · rintro ⟨r, hr⟩
    have hlt := Bytes.toNatLE_vector_lt b
    have hden := denominator_ne_zero y
    have hparity := Point.signedRoot_parity (FieldElement.even_evenRoot r)
      (show Bytes.toNatLE b.toList / 2 ^ 255 < 2 by omega)
    have hsq : (if Bytes.toNatLE b.toList / 2 ^ 255 = 1 then -FieldElement.evenRoot r
        else FieldElement.evenRoot r) ^ 2 = r ^ 2 := by
      split
      · rw [neg_sq, FieldElement.sq_evenRoot]
      · exact FieldElement.sq_evenRoot r
    generalize (if Bytes.toNatLE b.toList / 2 ^ 255 = 1 then -FieldElement.evenRoot r
      else FieldElement.evenRoot r) = x at hparity hsq
    have hcurve : Addition.OnCurve constant x y := by
      rw [onCurve_iff_sq, hsq, pow_two r, ← hr, mul_div_cancel₀ _ hden]
    exact ⟨⟨x, y, hcurve⟩, hy, hparity⟩

/-- The encoding of a point is the only string with a reduced coordinate and no idle sign. -/
theorem encode_eq_iff {b : Vector UInt8 32} {P : Point} (h : Decodes b P) :
    encode P = b ↔ Bytes.toNatLE b.toList % 2 ^ 255 < prime ∧
      ¬(P.x = 0 ∧ Bytes.toNatLE b.toList / 2 ^ 255 = 1) := by
  have hlt := Bytes.toNatLE_vector_lt b
  have hval := ZMod.val_lt P.y
  have hy := congrArg ZMod.val h.y
  rw [ZMod.val_natCast] at hy
  have heq : encode P = b ↔ P.y.val + 2 ^ 255 * (P.x.val % 2) = Bytes.toNatLE b.toList := by
    rw [← toNatLE_encode]
    exact ⟨fun e => by rw [e], Bytes.vector_eq_of_toNatLE_eq⟩
  have hy255 := val_lt P.y
  rw [heq]
  constructor
  · intro e
    refine ⟨by omega, ?_⟩
    rintro ⟨hx, hsign⟩
    rw [hx, ZMod.val_zero] at e
    omega
  · rintro ⟨hreduced, hsign⟩
    rw [Nat.mod_eq_of_lt hreduced] at hy
    have hx : P.x.val % 2 = Bytes.toNatLE b.toList / 2 ^ 255 := by
      rcases h.x with hx | hx
      · have hne : ¬Bytes.toNatLE b.toList / 2 ^ 255 = 1 := fun e => hsign ⟨hx, e⟩
        rw [hx, ZMod.val_zero]
        omega
      · exact hx
    omega

end Curve

namespace Point
open Curve (constant encode Decodes)

theorem exists_ofBytes_iff (b : Vector UInt8 32) :
    (∃ p, ofBytes b = .ok p) ↔ ∃ P, Decodes b P := by
  constructor
  · rintro ⟨p, hp⟩
    obtain ⟨P, -, hP⟩ := represents_of_ofBytes hp
    exact ⟨P, hP⟩
  · rintro ⟨P, hP⟩
    obtain ⟨p, hp, -⟩ := exists_ofBytes_of_decodes hP
    exact ⟨p, hp⟩

/-- Every other string is refused as not being a point. -/
theorem ofBytes_eq_error {b : Vector UInt8 32} (h : ¬∃ p, ofBytes b = .ok p) :
    ofBytes b = .error .invalidPoint := by
  rcases ofBytes_cases b with ⟨p, -, hp, -⟩ | ⟨he, -⟩
  · exact absurd ⟨p, hp⟩ h
  · exact he

theorem toBytes_eq_iff_same {p q : Point} {P Q : Curve.Point} (hp : p.Represents P)
    (hq : q.Represents Q) : p.toBytes = q.toBytes ↔ p.same q = true := by
  rw [toBytes_eq hp, toBytes_eq hq, same_iff hp hq]
  exact Curve.encode_injective.eq_iff

/-- Written coordinates are reduced, and reading them finds the point again. -/
theorem toBytes_spec {p : Point} {P : Curve.Point} (h : p.Represents P) :
    Bytes.toNatLE p.toBytes.toList % 2 ^ 255 < prime ∧
      ∃ q, ofBytes p.toBytes = .ok q ∧ q.same p = true := by
  rw [toBytes_eq h]
  refine ⟨((Curve.encode_eq_iff (Curve.decodes_encode P)).mp rfl).1, ?_⟩
  obtain ⟨q, hread, hq⟩ := exists_ofBytes_of_decodes (Curve.decodes_encode P)
  exact ⟨q, hread, (same_iff hq h).mpr rfl⟩

/-- The codec of points: what reading accepts and finds, and what writing gives. -/
theorem encoding_exact :
    (∀ b : Vector UInt8 32,
      let y : ZMod prime := (Bytes.toNatLE b.toList % 2 ^ 255 : Nat)
      let sign := Bytes.toNatLE b.toList / 2 ^ 255
      constant * y ^ 2 + 1 ≠ 0 ∧
      ((∃ p, ofBytes b = .ok p) ↔ IsSquare ((y ^ 2 - 1) / (constant * y ^ 2 + 1))) ∧
      (¬(∃ p, ofBytes b = .ok p) → ofBytes b = .error .invalidPoint) ∧
      ∀ p, ofBytes b = .ok p →
        p.Valid ∧ p.affine.2 = y ∧ (p.affine.1 = 0 ∨ p.affine.1.val % 2 = sign) ∧
        (p.toBytes = b ↔
          Bytes.toNatLE b.toList % 2 ^ 255 < prime ∧ ¬(p.affine.1 = 0 ∧ sign = 1))) ∧
    (∀ p : Point, p.Obtained → Bytes.toNatLE p.toBytes.toList % 2 ^ 255 < prime ∧
      ∃ q, ofBytes p.toBytes = .ok q ∧ q.same p = true) ∧
    ∀ p q : Point, p.Obtained → q.Obtained → (p.toBytes = q.toBytes ↔ p.same q = true) := by
  refine ⟨fun b => ?_, fun p hp => ?_, fun p q hp hq => ?_⟩
  · intro y sign
    refine ⟨Curve.denominator_ne_zero y, ?_, ofBytes_eq_error, fun p hp => ?_⟩
    · rw [exists_ofBytes_iff, Curve.exists_decodes_iff b rfl]
    · obtain ⟨P, hP, hdecodes⟩ := represents_of_ofBytes hp
      rw [toBytes_eq hP, affine_eq hP]
      exact ⟨valid_of_represents hP, hdecodes.y, hdecodes.x, Curve.encode_eq_iff hdecodes⟩
  · obtain ⟨P, hP⟩ := hp.represents
    exact toBytes_spec hP
  · obtain ⟨P, hP⟩ := hp.represents
    obtain ⟨Q, hQ⟩ := hq.represents
    exact toBytes_eq_iff_same hP hQ

/-- One, written as the modulus and one more, is read and comes out reduced. -/
theorem encoding_of_unreduced :
    ∃ p, ofBytes (Bytes.window 32 (Bytes.ofNatLE 32 (prime + 1))) = .ok p ∧ p.Obtained ∧
      p.affine.2 = 1 ∧ p.toBytes ≠ Bytes.window 32 (Bytes.ofNatLE 32 (prime + 1)) ∧
      (∃ q, ofBytes p.toBytes = .ok q ∧ q.same p = true) ∧
      (p.toBytes = identity.toBytes ↔ p.same identity = true) := by
  obtain ⟨hread, hwrite, hinjective⟩ := encoding_exact
  obtain ⟨-, hsquare, -, hpoint⟩ := hread (Bytes.window 32 (Bytes.ofNatLE 32 (prime + 1)))
  have hvalue : Bytes.toNatLE (Bytes.window 32 (Bytes.ofNatLE 32 (prime + 1))).toList = prime + 1 :=
    Bytes.toNatLE_window_ofNatLE (by decide)
  have hlow : (prime + 1) % 2 ^ 255 = prime + 1 := by decide
  have hone : ((prime + 1 : Nat) : ZMod prime) = 1 := by
    rw [Nat.cast_add, ZMod.natCast_self, zero_add, Nat.cast_one]
  simp only [hvalue, hlow, hone] at hsquare hpoint
  obtain ⟨p, hp⟩ := hsquare.mpr ⟨0, by simp⟩
  obtain ⟨-, hy, -, hcanonical⟩ := hpoint p hp
  refine ⟨p, hp, .read hp, hy, fun h => ?_, (hwrite p (.read hp)).2,
    hinjective p identity (.read hp) .identity⟩
  exact absurd (hcanonical.mp h).1 (by decide)

end Point

end CurveKeys.Edwards25519
