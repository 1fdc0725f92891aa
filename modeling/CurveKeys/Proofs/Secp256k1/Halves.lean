import CurveKeys.Proofs.Secp256k1.Digits
import CurveKeys.Proofs.Secp256k1.Split

/-!
The halves of a scalar as both methods of multiplication use them. Each half or its negative is
short, the half is made low before it is recoded, and what is recoded then has at most 16 bytes.
-/

namespace CurveKeys.Secp256k1.Scalar

/-- What both recodings need of a half. -/
structure Short (h : Scalar) : Prop where
  reduced : h.toNat < order
  near_zero : h.toNat < 2 ^ 128 ∨ order - h.toNat < 2 ^ 128
  low : (select h h.negate h.isHigh).toNat < 2 ^ 128
  high_bytes : h.absolute.1.toBytes.toList.take 16 = List.replicate 16 0
  few_bytes : (h.absolute.1.toBytes.toList.dropWhile (· == 0)).length ≤ 16

theorem short_of_denotes {h : Scalar} {m : ℤ} (hd : h.Denotes m) (hm : |m| < 2 ^ 128) :
    h.Short := by
  have hb := natAbs_lt_of_short hm
  have hv := toNat_of_short hd hm
  have habs : h.absolute.1.toNat < 2 ^ 128 := by rwa [(absolute_spec hd hm).1]
  refine ⟨hd.reduced, ?_, habs, ?_, ?_⟩
  · split at hv
    · exact Or.inr (by omega)
    · exact Or.inl (by omega)
  · have hz := Bytes.eq_replicate_of_toNatBE_eq_zero (toNatBE_high_bytes habs)
    rwa [List.length_take, h.absolute.1.toBytes.length_toList] at hz
  · apply Bytes.length_dropWhile_le
    rw [toNatBE_toBytes]
    exact lt_of_lt_of_eq habs (by norm_num)

/-- The halves make up the scalar along a primitive cube root of one, and both are short. -/
theorem split_short {k : Scalar} (hk : k.toNat < order) :
    lambda ^ 2 + lambda + 1 = 0 ∧
      (k.split.1.toNat + k.split.2.toNat * lambda : ZMod order) = k.toNat ∧
      k.split.1.Short ∧ k.split.2.Short := by
  have h1 := denotes_half1 hk
  have h2 := denotes_half2 hk
  refine ⟨by decide +kernel, ?_, short_of_denotes h1 (abs_half1_lt hk),
    short_of_denotes h2 (abs_half2_lt hk)⟩
  rw [h1.residue, h2.residue]
  exact half1_add_half2 k

/-- Half of the order lies at the border of a cell: its first half takes all of the 128 bits and
its second one is negative. -/
theorem split_short_of_half_order :
    let k : Scalar := ⟨halfOrderLimbs, rfl⟩
    k.toNat < order ∧ 2 ^ 127 < k.split.1.toNat ∧ k.split.2.isHigh = true ∧
      (k.split.1.toNat + k.split.2.toNat * lambda : ZMod order) = k.toNat ∧
      k.split.1.Short ∧ k.split.2.Short := by
  have hk : Scalar.toNat ⟨halfOrderLimbs, rfl⟩ < order := by decide
  exact ⟨hk, by decide +kernel, by decide +kernel, (split_short hk).2⟩

end CurveKeys.Secp256k1.Scalar
