import CurveKeys.Proofs.Secp256k1.Der.Reading

/-!
Writing signatures in DER. What is written is the only encoding of the signature with the low second
component, so reading gives that signature back, and two signatures are written alike exactly when
they agree up to the sign of the second component.
-/

namespace CurveKeys.Secp256k1.Signature
open Scalar (order)
open Der (IsInteger IsPair layout)

theorem toNat_normalize_s {g : Signature} (hs : g.s.toNat < order) :
    g.normalize.s.toNat = if order / 2 < g.s.toNat then order - g.s.toNat else g.s.toNat := by
  have hneg := Scalar.toNat_negate hs
  have hhigh := Scalar.isHigh_iff g.s
  rw [normalize, select]
  by_cases h : order / 2 < g.s.toNat
  · rw [if_pos (hhigh.mpr h), if_pos h, hneg, if_neg (by omega)]
  · rw [if_neg (fun e => h (hhigh.mp e)), if_neg h]

theorem normalize_s_le {g : Signature} (hs : g.s.toNat < order) :
    g.normalize.s.toNat ≤ order / 2 := by
  have hn : order ≤ order / 2 + order / 2 + 1 := by decide
  rw [toNat_normalize_s hs]
  split <;> omega

theorem normalize_of_low {g : Signature} (h : g.s.toNat ≤ order / 2) : g.normalize = g := by
  have hhigh : g.s.isHigh = false :=
    Bool.eq_false_iff.mpr fun e => not_lt.mpr h ((Scalar.isHigh_iff g.s).mp e)
  rw [normalize, select, hhigh]
  rfl

/-- Signatures agree after normalization when their second components agree up to the sign. -/
theorem normalize_eq_iff {g h : Signature} (hg : g.s.toNat < order) (hh : h.s.toNat < order) :
    g.normalize = h.normalize ↔ g.r = h.r ∧ (g.s = h.s ∨ g.s = h.s.negate) := by
  have hneg := Scalar.toNat_negate hh
  have hgs := toNat_normalize_s hg
  have hhs := toNat_normalize_s hh
  have hn : order ≤ order / 2 + order / 2 + 1 := by decide
  have hn' : order / 2 + order / 2 < order := by decide
  have hsplit : g.normalize = h.normalize ↔ g.r = h.r ∧ g.normalize.s = h.normalize.s := by
    rw [normalize, normalize, mk.injEq]
  have value {a b : Scalar} : a = b ↔ a.toNat = b.toNat :=
    ⟨congrArg Scalar.toNat, Scalar.eq_of_toNat_eq⟩
  rw [hsplit, and_congr_right_iff]
  intro _
  rw [value, value, value, hgs, hhs, hneg]
  split <;> split <;> split <;> omega

/-- The contents that are written for the two components. -/
theorem toDer_bytes (g : Signature) :
    ∃ first second, IsInteger first g.r.toNat ∧ IsInteger second g.normalize.s.toNat ∧
      g.toDer.bytes = layout first second := by
  have hr := Der.isInteger_integerBytes g.normalize.r.toBytes.toList
  have hs := Der.isInteger_integerBytes g.normalize.s.toBytes.toList
  rw [Scalar.toNatBE_toBytes] at hr hs
  exact ⟨_, _, hr, hs, Der.pair_eq_layout _ _⟩

theorem isPair_toDer (g : Signature) :
    IsPair g.toDer.bytes g.r.toNat g.normalize.s.toNat := by
  obtain ⟨first, second, hr, hs, hb⟩ := toDer_bytes g
  have hw : 2 * 2 ^ 256 < 256 ^ 33 := by decide
  have hrlt := Scalar.toNat_lt g.r
  have hslt := Scalar.toNat_lt g.normalize.s
  have hl := hr.length_le (n := 33) (by decide) (by omega)
  have hl' := hs.length_le (n := 33) (by decide) (by omega)
  exact ⟨first, second, hr, hs, by omega, hb⟩

theorem inRange_normalize_s {g : Signature} (hs : InRange g.s.toNat) :
    InRange g.normalize.s.toNat := by
  have hpos := hs.1
  have hlt := hs.2
  rw [toNat_normalize_s hlt]
  split
  · exact ⟨by omega, by omega⟩
  · exact hs

theorem ofDer_toDer {g : Signature} (hr : InRange g.r.toNat) (hs : InRange g.s.toNat) :
    ofDer g.toDer.bytes = .ok g.normalize :=
  (ofDer_eq_ok_iff _ _).mpr ⟨isPair_toDer g, hr, inRange_normalize_s hs⟩

theorem length_toDer {g : Signature} (hs : InRange g.s.toNat) :
    8 ≤ g.toDer.bytes.length ∧ g.toDer.bytes.length ≤ 71 := by
  obtain ⟨first, second, hr, hs', hb⟩ := toDer_bytes g
  have hpos := hr.nonempty
  have hpos' := hs'.nonempty
  have hw : 2 * 2 ^ 256 < 256 ^ 33 := by decide
  have hhalf : 2 * (order / 2) < 256 ^ 32 := by decide
  have hrlt := Scalar.toNat_lt g.r
  have hlow := normalize_s_le hs.2
  have hl := hr.length_le (n := 33) (by decide) (by omega)
  have hl' := hs'.length_le (n := 32) (by decide) (by omega)
  rw [hb, Der.length_layout]
  omega

theorem toDer_eq_iff (g h : Signature) : g.toDer = h.toDer ↔ g.normalize = h.normalize := by
  constructor
  · intro heq
    have hh := isPair_toDer h
    rw [← heq] at hh
    obtain ⟨hr, hs⟩ := (isPair_toDer g).values hh
    exact eq_of_toNat_eq hr hs
  · intro heq
    rw [toDer, toDer, heq]

/-- A signature is written as it was read when its second component is low, and only then. -/
theorem toDer_ofDer_iff {b : Bytes} {g : Signature} (h : ofDer b = .ok g) :
    g.toDer.bytes = b ↔ g.s.toNat ≤ order / 2 := by
  obtain ⟨hpair, hr, hs⟩ := (ofDer_eq_ok_iff b g).mp h
  constructor
  · intro heq
    have hread := ofDer_toDer hr hs
    rw [heq, h] at hread
    rw [Except.ok.inj hread]
    exact normalize_s_le hs.2
  · intro hlow
    have hwritten := isPair_toDer g
    rw [normalize_of_low hlow] at hwritten
    exact hwritten.unique hpair

/-- Writing and reading are inverse up to the sign of the second component. -/
theorem toDer_canonical :
    (∀ g : Signature, InRange g.r.toNat → InRange g.s.toNat →
      ofDer g.toDer.bytes = .ok g.normalize ∧
        8 ≤ g.toDer.bytes.length ∧ g.toDer.bytes.length ≤ 71) ∧
    (∀ (b : Bytes) (g : Signature), ofDer b = .ok g →
      (g.toDer.bytes = b ↔ g.s.toNat ≤ order / 2)) ∧
    (∀ g h : Signature, g.toDer.bytes = h.toDer.bytes ↔ g.normalize = h.normalize) ∧
    ∀ g h : Signature, g.s.toNat < order → h.s.toNat < order →
      (g.normalize = h.normalize ↔ g.r = h.r ∧ (g.s = h.s ∨ g.s = h.s.negate)) := by
  refine ⟨fun g hr hs => ⟨ofDer_toDer hr hs, length_toDer hs⟩, fun b g h => toDer_ofDer_iff h,
    fun g h => ?_, fun g h hg hh => normalize_eq_iff hg hh⟩
  rw [← toDer_eq_iff]
  exact ⟨congrArg DerSignature.mk, congrArg DerSignature.bytes⟩

/-- The components 1 and -1 are written with a second component of 1. -/
theorem toDer_one_minus_one :
    let g : Signature := ⟨Scalar.one, Scalar.one.negate⟩
    InRange g.r.toNat ∧ InRange g.s.toNat ∧ g.normalize = ⟨Scalar.one, Scalar.one⟩ ∧
      ofDer g.toDer.bytes = .ok ⟨Scalar.one, Scalar.one⟩ ∧
      g.toDer.bytes = [0x30, 6, 2, 1, 1, 2, 1, 1] := by
  intro g
  have hr : InRange g.r.toNat := by decide
  have hs : InRange g.s.toNat := by decide
  have hn : g.normalize = ⟨Scalar.one, Scalar.one⟩ := by decide
  have hread := (toDer_canonical.1 g hr hs).1
  rw [hn] at hread
  exact ⟨hr, hs, hn, hread, by decide⟩

end CurveKeys.Secp256k1.Signature
