import CurveKeys.Proofs.Hash.Generator
import CurveKeys.Proofs.Secp256k1.Scalar.Sum
import CurveKeys.Secp256k1.Nonce

/-!
Every nonce is one of the scalars that may be used: it is below the order and not zero, because the
search for it returns nothing but candidates.
-/

namespace CurveKeys.Secp256k1.Nonce
open Scalar (order)

/-- A block that spells an integer from one to below the order. -/
def Usable (block : Vector UInt8 32) : Prop :=
  1 ≤ Bytes.toNatBE block.toList ∧ Bytes.toNatBE block.toList < order

instance : DecidablePred Usable := fun block =>
  inferInstanceAs (Decidable (1 ≤ Bytes.toNatBE block.toList ∧ Bytes.toNatBE block.toList < order))

theorem ofBlock?_eq (block : Vector UInt8 32) :
    ofBlock? block = if Usable block then some (Scalar.reduceBytes block).1 else none := by
  have hv := Scalar.toNat_reduceBytes block
  have hover := Scalar.reduceBytes_overflow_iff block
  have hzero := Scalar.isZero_iff (Scalar.reduceBytes block).1
  unfold ofBlock?
  generalize Scalar.reduceBytes block = reduced at hv hover hzero ⊢
  obtain ⟨v, overflow⟩ := reduced
  cases overflow with
  | true => exact (if_neg fun h => absurd (hover.mp rfl) (not_le.mpr h.2)).symm
  | false =>
      have hlow : Bytes.toNatBE block.toList < order :=
        not_le.mp fun e => Bool.false_ne_true (hover.mpr e)
      rw [Nat.mod_eq_of_lt hlow] at hv
      simp only [Bool.false_or, hzero, hv]
      by_cases h0 : Bytes.toNatBE block.toList = 0
      · rw [if_pos h0, if_neg fun h => absurd h.1 (by omega)]
      · rw [if_neg h0, if_pos ⟨Nat.one_le_iff_ne_zero.mpr h0, hlow⟩]

/-- A usable block is read without reduction. -/
theorem ofBlock?_eq_some_iff {block : Vector UInt8 32} {k : Scalar} :
    ofBlock? block = some k ↔ Usable block ∧ k.toNat = Bytes.toNatBE block.toList := by
  rw [ofBlock?_eq]
  split
  · next h =>
      have hv : (Scalar.reduceBytes block).1.toNat = Bytes.toNatBE block.toList :=
        (Scalar.toNat_reduceBytes block).trans (Nat.mod_eq_of_lt h.2)
      rw [Option.some.injEq]
      exact ⟨fun e => ⟨h, e ▸ hv⟩, fun e => Scalar.eq_of_toNat_eq (hv.trans e.2.symm)⟩
  · next h => exact iff_of_false (fun e => nomatch e) fun e => h e.1

theorem isSome_ofBlock? (block : Vector UInt8 32) : (ofBlock? block).isSome ↔ Usable block := by
  rw [ofBlock?_eq]
  split
  · next h => exact iff_of_true rfl h
  · next h => exact iff_of_false Bool.false_ne_true h

theorem deterministic_range {key hash extra version : Bytes} {skip : Nat} {mac : Mac} {k : Scalar}
    (h : deterministic key hash extra version skip mac = some k) :
    k.toNat ≠ 0 ∧ k.toNat < order := by
  obtain ⟨block, hblock⟩ := Generator.exists_of_search h
  obtain ⟨⟨hpos, hlt⟩, hk⟩ := ofBlock?_eq_some_iff.mp hblock
  rw [hk]
  exact ⟨Nat.one_le_iff_ne_zero.mp hpos, hlt⟩

theorem exists_deterministic_of_le {key hash extra version : Bytes} {skip skip' : Nat} {mac : Mac}
    {k : Scalar} (h : deterministic key hash extra version skip mac = some k)
    (hle : skip' ≤ skip) : ∃ k', deterministic key hash extra version skip' mac = some k' :=
  Generator.exists_search_of_le h hle

end CurveKeys.Secp256k1.Nonce
