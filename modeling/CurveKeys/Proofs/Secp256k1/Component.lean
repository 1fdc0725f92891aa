import CurveKeys.Proofs.Secp256k1.Scalar.Sum
import CurveKeys.Secp256k1.Signature

/-!
The components of signatures in bytes. A component is the big-endian integer of at most 32 bytes, at
least 1 and below the order; everything else is refused with the reason.
-/

namespace CurveKeys.Secp256k1.Signature
open Scalar (order)

/-- A component of a signature that can hold. -/
def InRange (v : Nat) : Prop := 1 ≤ v ∧ v < order

instance (v : Nat) : Decidable (InRange v) := inferInstanceAs (Decidable (_ ∧ _))

theorem toNatBE_window {b : Bytes} (h : b.length ≤ 32) :
    Bytes.toNatBE (Bytes.window 32 b).toList = Bytes.toNatBE b := by
  rw [Bytes.toList_window, List.take_of_length_le h, Bytes.toNatBE_replicate_append]

/-- What bytes stand for as a component: their integer if it is in range, or the reason why not. -/
theorem component_spec (c : Component) (b : Bytes) :
    let v := Bytes.toNatBE b
    (32 < b.length ∨ order ≤ v → component c b = .error (.overflowsOrder c)) ∧
      (b.length ≤ 32 → v = 0 → component c b = .error (.zeroComponent c)) ∧
      (b.length ≤ 32 → InRange v → ∃ k : Scalar, k.toNat = v ∧ component c b = .ok k) := by
  intro v
  unfold component Scalar.reduceSlice
  have hover := Scalar.reduceBytes_overflow_iff (Bytes.window 32 b)
  have hval := Scalar.toNat_reduceBytes (Bytes.window 32 b)
  generalize Scalar.reduceBytes (Bytes.window 32 b) = reduced at hover hval ⊢
  obtain ⟨k, overflow⟩ := reduced
  dsimp only at hover hval ⊢
  rcases Nat.lt_or_ge 32 b.length with hlong | hshort
  · exact ⟨fun _ => if_pos (by simp [hlong]), fun h => absurd h (by omega),
      fun h => absurd h (by omega)⟩
  · rw [toNatBE_window hshort] at hover hval
    -- a value below the order is read without loss
    have hread (h : v < order) : ¬ (32 < b.length || overflow) = true ∧ k.toNat = v := by
      refine ⟨?_, by rw [hval, Nat.mod_eq_of_lt h]⟩
      simp only [Bool.or_eq_true, decide_eq_true_eq, hover, not_or, not_lt, not_le]
      exact ⟨hshort, h⟩
    refine ⟨fun h => if_pos ?_, fun _ h => ?_, fun _ h => ?_⟩
    · rw [Bool.or_eq_true, decide_eq_true_eq, hover]
      exact h
    · obtain ⟨hfits, hk⟩ := hread (by rw [h]; decide)
      exact (if_neg hfits).trans (if_pos ((Scalar.isZero_iff k).mpr (hk.trans h)))
    · obtain ⟨hfits, hk⟩ := hread h.2
      have hne : ¬ k.isZero = true := fun e => by
        have h0 := (Scalar.isZero_iff k).mp e
        have h1 := h.1
        omega
      exact ⟨k, hk, (if_neg hfits).trans (if_neg hne)⟩

theorem component_eq_ok_iff {c : Component} {b : Bytes} {k : Scalar} :
    component c b = .ok k ↔
      b.length ≤ 32 ∧ InRange (Bytes.toNatBE b) ∧ k.toNat = Bytes.toNatBE b := by
  obtain ⟨hover, hzero, hread⟩ := component_spec c b
  constructor
  · intro h
    have hfits : ¬(32 < b.length ∨ order ≤ Bytes.toNatBE b) := fun e =>
      nomatch (hover e).symm.trans h
    have hshort : b.length ≤ 32 := by omega
    have hne : Bytes.toNatBE b ≠ 0 := fun e => nomatch (hzero hshort e).symm.trans h
    have hrange : InRange (Bytes.toNatBE b) := ⟨by omega, by omega⟩
    obtain ⟨l, hl, hok⟩ := hread hshort hrange
    obtain rfl := Except.ok.inj (hok.symm.trans h)
    exact ⟨hshort, hrange, hl⟩
  · rintro ⟨hshort, hrange, hk⟩
    obtain ⟨l, hl, hok⟩ := hread hshort hrange
    rw [Scalar.eq_of_toNat_eq (hk.trans hl.symm), hok]

theorem component_toBytes {k : Scalar} (hk : k.toNat < order) (h0 : k.toNat ≠ 0) (c : Component) :
    component c k.toBytes.toList = .ok k := by
  have hvalue := Scalar.toNatBE_toBytes k
  refine component_eq_ok_iff.mpr ⟨le_of_eq k.toBytes.length_toList, ?_, hvalue.symm⟩
  rw [hvalue]
  exact ⟨Nat.one_le_iff_ne_zero.mpr h0, hk⟩

end CurveKeys.Secp256k1.Signature
