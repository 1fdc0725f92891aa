import CurveKeys.Proofs.Secp256k1.Scalar.Product

/-!
The scalar operations as integer operations modulo the order, and the bounds under which the
product's reduction stays inside its limbs.
-/

namespace CurveKeys.Secp256k1.Scalar

theorem toNat_eq_emod {a : Scalar} {z : ℤ} (h : a.Denotes (z : ZMod order)) :
    (a.toNat : ℤ) = z % order := by
  rw [toNat_eq_val h, ZMod.val_intCast]

/-- The four operations return the least representative of the exact integer result, and so does
reading a string, with the flag that the order was reached. A product fits sixteen limbs, each of
its three folds fits the limbs it is written to, and the last one leaves less than twice the
order. -/
theorem arithmetic_exact {a b : Scalar} (ha : a.toNat < order) (hb : b.toNat < order)
    (bytes : Vector UInt8 32) :
    ((a.add b).toNat : ℤ) = (a.toNat + b.toNat) % order ∧
      ((a.sub b).toNat : ℤ) = (a.toNat - b.toNat) % order ∧
      (a.negate.toNat : ℤ) = -a.toNat % order ∧
      ((a.mul b).toNat : ℤ) = a.toNat * b.toNat % order ∧
      (reduceBytes bytes).1.toNat = Bytes.toNatBE bytes.toList % order ∧
      ((reduceBytes bytes).2 = true ↔ order ≤ Bytes.toNatBE bytes.toList) ∧
      Limbs.toNat (mulWide a.limbs b.limbs) = a.toNat * b.toNat ∧
      (Accumulator.mulColumns 16 [] a.limbs b.limbs).2 = .zero ∧
      ReductionFits (mulWide a.limbs b.limbs) := by
  have da := denotes_of_reduced ha
  have db := denotes_of_reduced hb
  obtain ⟨hwide, hrest⟩ := mulWide_fit a.length_limbs b.length_limbs
  refine ⟨?_, ?_, ?_, ?_, toNat_reduceBytes bytes, reduceBytes_overflow_iff bytes, hwide, hrest,
    reductionFits (length_mulWide a.limbs b.limbs)⟩
  · exact toNat_eq_emod (by push_cast; exact denotes_add da db)
  · exact toNat_eq_emod (by push_cast; exact denotes_sub da db)
  · exact toNat_eq_emod (by push_cast; exact denotes_negate da)
  · exact toNat_eq_emod (by push_cast; exact denotes_mul da db)

/-- The bounds on the highest limbs are attained close to the order: those of the first and third
fold by one square, and that of the second fold by another. -/
theorem arithmetic_exact_of_top_limbs :
    let a : Scalar := ⟨[0xD0364141, 0x3FD25E8C, 0xAF48A03A, 0xBAAEDCE6, 0xFFFFFFFE, 0xFFFFFFFF,
      0xFFFFFFFF, 0xFFFFFFFF], rfl⟩
    let b : Scalar := ⟨[0xD0364141, 0xBFD25E8C, 0xAF48A039, 0xBAAEDCE6, 0xFFFFFFFE, 0xFFFFFFFF,
      0xFFFFFFFF, 0xFFFFFFFF], rfl⟩
    let ones : Vector UInt8 32 := .replicate 32 0xFF
    let k := mulWide a.limbs a.limbs
    let l := mulWide b.limbs b.limbs
    a.toNat < order ∧ b.toNat < order ∧
      ((a.mul a).toNat : ℤ) = a.toNat * a.toNat % order ∧
      ((b.mul b).toNat : ℤ) = b.toNat * b.toNat % order ∧
      (reduceBytes ones).1.toNat = Bytes.toNatBE ones.toList % order ∧
      ReductionFits k ∧ ReductionFits l ∧
      (fold 13 k).1.getD 12 0 = 1 ∧ (fold 9 (fold 9 (fold 13 k).1).1).1.getD 8 0 = 1 ∧
      (fold 9 (fold 13 l).1).1.getD 8 0 = 2 := by
  intro a b ones k l
  have ha : a.toNat < order := by decide
  have hb : b.toNat < order := by decide
  obtain ⟨-, -, -, hmul, hread, -, -, -, hfits⟩ := arithmetic_exact ha ha ones
  obtain ⟨-, -, -, hmul', -, -, -, -, hfits'⟩ := arithmetic_exact hb hb ones
  exact ⟨ha, hb, hmul, hmul', hread, hfits, hfits', by decide +kernel, by decide +kernel,
    by decide +kernel⟩

end CurveKeys.Secp256k1.Scalar
