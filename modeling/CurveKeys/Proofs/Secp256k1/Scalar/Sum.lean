import CurveKeys.Proofs.Bytes
import CurveKeys.Proofs.Primality
import CurveKeys.Proofs.Secp256k1.Limbs
import CurveKeys.Secp256k1.Scalar.Basic

/-!
Scalars as integers below the group order: sums, negatives, comparisons and the byte form. A scalar
denotes a residue when it is reduced and in its class, and is then the least representative.
-/

namespace CurveKeys.Secp256k1.Scalar
open Words

theorem toNat_lt (a : Scalar) : a.toNat < 2 ^ 256 := by
  have h := Limbs.toNat_lt a.limbs
  rw [a.length_limbs] at h
  exact lt_of_lt_of_eq h (by norm_num)

theorem eq_of_toNat_eq {a b : Scalar} (h : a.toNat = b.toNat) : a = b := by
  cases a
  cases b
  rw [mk.injEq]
  exact Limbs.eq_of_toNat_eq (by simp only [*]) h

theorem toNat_zero : zero.toNat = 0 := rfl

theorem toNat_one : one.toNat = 1 := rfl

theorem toNat_ofLimbs (l : List UInt32) : (ofLimbs l).toNat = Limbs.toNat l % 2 ^ 256 := by
  have hp : 0x100000000 ^ 8 = 2 ^ 256 := by norm_num
  rw [toNat, ofLimbs, Limbs.toNat_take _ 8 (by simp), Limbs.toNat_append,
    Limbs.toNat_replicate_zero, mul_zero, add_zero, hp]

theorem toNat_ofLimbs_of_lt {l : List UInt32} (h : Limbs.toNat l < 2 ^ 256) :
    (ofLimbs l).toNat = Limbs.toNat l := by
  rw [toNat_ofLimbs, Nat.mod_eq_of_lt h]

theorem toNat_limbs_lt {l : List UInt32} (h : l.length = 8) : Limbs.toNat l < 2 ^ 256 := by
  have hl := Limbs.toNat_lt l
  rw [h] at hl
  exact lt_of_lt_of_eq hl (by norm_num)

theorem isZero_iff (a : Scalar) : a.isZero = true ↔ a.toNat = 0 := by
  rw [isZero, beq_iff_eq]
  constructor
  · rintro rfl
    rfl
  · intro h
    exact eq_of_toNat_eq (h.trans toNat_zero.symm)

theorem isZero_eq_false_iff (a : Scalar) : a.isZero = false ↔ a.toNat ≠ 0 := by
  rw [← Bool.not_eq_true, isZero_iff]

theorem isHigh_iff (a : Scalar) : a.isHigh = true ↔ order / 2 < a.toNat := by
  rw [isHigh, Limbs.compare_gt_iff a.length_limbs, toNat_halfOrderLimbs]
  rfl

/-- One subtraction of the order reduces a value below its double. -/
theorem toNat_ofOverflow {l : List UInt32} (carry : Bool) (hl : l.length = 8)
    (h : Limbs.toNat l + 2 ^ 256 * carry.toNat < 2 * order) :
    (ofOverflow l carry).toNat = (Limbs.toNat l + 2 ^ 256 * carry.toNat) % order := by
  have hlt := toNat_limbs_lt hl
  have hc := Limbs.compare_ne_lt_iff (a := l) (b := orderLimbs) hl
  rw [toNat_orderLimbs] at hc
  have hsub := Limbs.subBorrow_spec (a := l) (b := orderLimbs) (c := 0) hl (by decide)
  have hslt := toNat_limbs_lt (l := (Limbs.subBorrow 0 l orderLimbs).1) (by
    rw [Limbs.length_subBorrow, hl]
    rfl)
  rw [toNat_orderLimbs, hl, UInt64.toNat_zero, add_zero] at hsub
  have hn : order < 2 ^ 256 := by decide
  rw [ofOverflow]
  split
  · next hover =>
      rw [Bool.or_eq_true, hc] at hover
      have hge : order ≤ Limbs.toNat l + 2 ^ 256 * carry.toNat := by
        rcases hover with rfl | hover
        · rw [Bool.toNat_true]
          omega
        · omega
      rw [toNat_ofLimbs_of_lt hslt, Nat.mod_eq_sub_mod hge, Nat.mod_eq_of_lt (by omega)]
      cases carry with
      | false =>
          rw [Bool.toNat_false] at h hge ⊢
          omega
      | true =>
          rw [Bool.toNat_true] at h hge ⊢
          omega
  · next hover =>
      rw [Bool.or_eq_true, hc, not_or] at hover
      obtain ⟨hcarry, hlow⟩ := hover
      rw [Bool.not_eq_true] at hcarry
      subst hcarry
      rw [toNat_ofLimbs_of_lt hlt, Bool.toNat_false, mul_zero, add_zero,
        Nat.mod_eq_of_lt (not_le.mp hlow)]

/-- The sum of two scalars before the correction: eight limbs and the carry out of them. -/
theorem sum_spec (a b : Scalar) : (Limbs.addCarry 0 a.limbs b.limbs).1.length = 8 ∧
    Limbs.toNat (Limbs.addCarry 0 a.limbs b.limbs).1 +
      2 ^ 256 * (Limbs.addCarry 0 a.limbs b.limbs).2.toNat = a.toNat + b.toNat ∧
    (Limbs.addCarry 0 a.limbs b.limbs).2.toNat ≤ 1 := by
  have hl : a.limbs.length = b.limbs.length := by rw [a.length_limbs, b.length_limbs]
  obtain ⟨hsum, hcarry⟩ := Limbs.addCarry_spec (c := 0) hl (by decide)
  have hp : 0x100000000 ^ 8 = 2 ^ 256 := by norm_num
  rw [a.length_limbs, UInt64.toNat_zero, add_zero, hp] at hsum
  refine ⟨?_, hsum, hcarry⟩
  rw [Limbs.length_addCarry, a.length_limbs, b.length_limbs]
  rfl

theorem toNat_add {a b : Scalar} (ha : a.toNat < order) (hb : b.toNat < order) :
    (a.add b).toNat = (a.toNat + b.toNat) % order := by
  obtain ⟨hlen, hsum, hcarry⟩ := sum_spec a b
  have hflag : ((Limbs.addCarry 0 a.limbs b.limbs).2 != 0).toNat =
      (Limbs.addCarry 0 a.limbs b.limbs).2.toNat := by
    generalize (Limbs.addCarry 0 a.limbs b.limbs).2 = c at hcarry
    by_cases h0 : c = 0
    · rw [h0]
      rfl
    · have hne : c.toNat ≠ 0 := fun h => h0 (UInt64.toNat_inj.mp h)
      rw [bne_iff_ne.mpr h0, Bool.toNat_true]
      omega
  rw [← hflag] at hsum
  rw [← hsum]
  exact toNat_ofOverflow _ hlen (by omega)

theorem toNat_negate {a : Scalar} (ha : a.toNat < order) :
    a.negate.toNat = if a.toNat = 0 then 0 else order - a.toNat := by
  rw [negate]
  by_cases h0 : a.toNat = 0
  · rw [if_pos ((isZero_iff a).mpr h0), if_pos h0, toNat_zero]
  · have hsub := Limbs.subBorrow_spec (a := orderLimbs) (b := a.limbs) (c := 0)
      (by rw [a.length_limbs]; rfl) (by decide)
    have hslt := toNat_limbs_lt (l := (Limbs.subBorrow 0 orderLimbs a.limbs).1) (by
      rw [Limbs.length_subBorrow, a.length_limbs]
      rfl)
    have hn : order < 2 ^ 256 := by decide
    rw [toNat_orderLimbs, UInt64.toNat_zero, add_zero, show orderLimbs.length = 8 from rfl] at hsub
    rw [if_neg (fun h => h0 ((isZero_iff a).mp h)), if_neg h0, toNat_ofLimbs_of_lt hslt]
    change _ + a.toNat = _ at hsub
    omega

/-- The scalar is the reduced representative of a residue. -/
structure Denotes (a : Scalar) (v : ZMod order) : Prop where
  reduced : a.toNat < order
  residue : (a.toNat : ZMod order) = v

theorem denotes_of_reduced {a : Scalar} (h : a.toNat < order) : a.Denotes (a.toNat : ZMod order) :=
  ⟨h, rfl⟩

theorem toNat_eq_val {a : Scalar} {v : ZMod order} (h : a.Denotes v) : a.toNat = v.val := by
  rw [← h.residue, ZMod.val_natCast_of_lt h.reduced]

theorem denotes_of_toNat_eq_mod {a : Scalar} {m : Nat} (h : a.toNat = m % order) :
    a.Denotes (m : ZMod order) := by
  refine ⟨?_, ?_⟩
  · rw [h]
    exact Nat.mod_lt m (by decide)
  · rw [h, ZMod.natCast_mod]

theorem denotes_zero : zero.Denotes 0 :=
  ⟨by decide, by rw [toNat_zero, Nat.cast_zero]⟩

theorem denotes_one : one.Denotes 1 :=
  ⟨by decide, by rw [toNat_one, Nat.cast_one]⟩

theorem denotes_add {a b : Scalar} {v w : ZMod order} (ha : a.Denotes v) (hb : b.Denotes w) :
    (a.add b).Denotes (v + w) := by
  have h := denotes_of_toNat_eq_mod (toNat_add ha.reduced hb.reduced)
  rw [Nat.cast_add, ha.residue, hb.residue] at h
  exact h

theorem denotes_negate {a : Scalar} {v : ZMod order} (ha : a.Denotes v) :
    a.negate.Denotes (-v) := by
  have hlt := ha.reduced
  have h := toNat_negate hlt
  split at h
  · next h0 =>
      have hv : v = 0 := by rw [← ha.residue, h0, Nat.cast_zero]
      rw [hv, neg_zero]
      exact ⟨by rw [h]; decide, by rw [h, Nat.cast_zero]⟩
  · refine ⟨by omega, ?_⟩
    rw [h, Nat.cast_sub hlt.le, ZMod.natCast_self, zero_sub, ha.residue]

theorem denotes_sub {a b : Scalar} {v w : ZMod order} (ha : a.Denotes v) (hb : b.Denotes w) :
    (a.sub b).Denotes (v - w) := by
  rw [sub_eq_add_neg]
  exact denotes_add ha (denotes_negate hb)

theorem isZero_iff_residue {a : Scalar} {v : ZMod order} (ha : a.Denotes v) :
    a.isZero = true ↔ v = 0 := by
  rw [isZero_iff, toNat_eq_val ha, ZMod.val_eq_zero]

theorem eq_of_denotes {a b : Scalar} {v : ZMod order} (ha : a.Denotes v) (hb : b.Denotes v) :
    a = b :=
  eq_of_toNat_eq ((toNat_eq_val ha).trans (toNat_eq_val hb).symm)

theorem toNat_limbOfBytes (b3 b2 b1 b0 : UInt8) :
    (limbOfBytes b3 b2 b1 b0).toNat =
      b0.toNat + 2 ^ 8 * (b1.toNat + 2 ^ 8 * (b2.toNat + 2 ^ 8 * b3.toNat)) := by
  have h := toNat_join_three (i := 8) (j := 16) (k := 24) 8 rfl rfl rfl (by decide)
    (toNat_byte_lt b0) (toNat_byte_lt b1) (toNat_byte_lt b2) (toNat_byte_lt b3)
  simp only [UInt8.toNat_toUInt32] at h
  have reverse (w x y z : UInt32) : w ||| x ||| y ||| z = z ||| y ||| x ||| w := by ac_rfl
  rw [limbOfBytes, reverse, h]

theorem toNat_limbsOfBytes (b : Vector UInt8 32) :
    Limbs.toNat (limbsOfBytes b) = Bytes.toNatBE b.toList := by
  rw [Bytes.toNatBE_thirtyTwo]
  simp only [limbsOfBytes, List.map, Limbs.toNat, toNat_limbOfBytes, Nat.reduceAdd]
  ring

theorem length_limbsOfBytes (b : Vector UInt8 32) : (limbsOfBytes b).length = 8 := by
  simp [limbsOfBytes]

theorem toNat_reduceBytes (b : Vector UInt8 32) :
    (reduceBytes b).1.toNat = Bytes.toNatBE b.toList % order := by
  have hlt := toNat_limbs_lt (length_limbsOfBytes b)
  have hn : 2 ^ 256 < 2 * order := by decide
  have h := toNat_ofOverflow false (length_limbsOfBytes b) (by
    rw [Bool.toNat_false]
    omega)
  rw [toNat_limbsOfBytes, Bool.toNat_false, mul_zero, add_zero] at h
  exact h

theorem reduceSlice_lt (b : Bytes) : (reduceSlice b).1.toNat < order := by
  rw [reduceSlice, toNat_reduceBytes]
  exact Nat.mod_lt _ (by decide)

theorem reduceBytes_overflow_iff (b : Vector UInt8 32) :
    (reduceBytes b).2 = true ↔ order ≤ Bytes.toNatBE b.toList := by
  rw [← toNat_limbsOfBytes, ← toNat_orderLimbs]
  exact Limbs.compare_ne_lt_iff (length_limbsOfBytes b)

theorem toNatBE_bytesOfLimb (x : UInt32) : Bytes.toNatBE (bytesOfLimb x) = x.toNat := by
  have hx := x.toNat_lt
  rw [← Bytes.toNatLE_reverse]
  simp only [bytesOfLimb, List.reverse, List.reverseAux, Bytes.toNatLE,
    toNat_byte_within (i := 8) x 8 rfl, toNat_byte_within (i := 16) x 16 rfl,
    toNat_byte_within (i := 24) x 24 rfl, UInt32.toNat_toUInt8]
  omega

theorem length_bytesOfLimbs (l : List UInt32) :
    (l.reverse.flatMap bytesOfLimb).length = 4 * l.length := by
  induction l with
  | nil => rfl
  | cons x l ih =>
      rw [List.reverse_cons, List.flatMap_append, List.length_append, ih, List.length_cons]
      rfl

theorem toNatBE_bytesOfLimbs (l : List UInt32) :
    Bytes.toNatBE (l.reverse.flatMap bytesOfLimb) = Limbs.toNat l := by
  induction l with
  | nil => rfl
  | cons x l ih =>
      rw [List.reverse_cons, List.flatMap_append, Bytes.toNatBE_append, ih, List.flatMap_singleton,
        toNatBE_bytesOfLimb, Limbs.toNat, show (bytesOfLimb x).length = 4 from rfl]
      ring

theorem toNatBE_toBytes (a : Scalar) : Bytes.toNatBE a.toBytes.toList = a.toNat := by
  have hl : (a.limbs.reverse.flatMap bytesOfLimb).length = 32 := by
    rw [length_bytesOfLimbs, a.length_limbs]
  rw [toBytes, Bytes.toList_window_of_length hl, toNatBE_bytesOfLimbs, toNat]

theorem reduceBytes_toBytes {a : Scalar} (ha : a.toNat < order) :
    reduceBytes a.toBytes = (a, false) := by
  have hover := reduceBytes_overflow_iff a.toBytes
  rw [toNatBE_toBytes] at hover
  refine Prod.ext (eq_of_toNat_eq ?_) (Bool.eq_false_iff.mpr fun h => ?_)
  · rw [toNat_reduceBytes, toNatBE_toBytes, Nat.mod_eq_of_lt ha]
  · exact absurd (hover.mp h) (not_le.mpr ha)

end CurveKeys.Secp256k1.Scalar
