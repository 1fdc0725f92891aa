import CurveKeys.Proofs.Edwards25519.Point

/-!
The byte form of points: the second coordinate with the parity of the first one in the top bit.
Different points have different encodings, every representation of a point is written as its
encoding, and reading finds the point wherever there is one.
-/

namespace CurveKeys.Edwards25519
open FieldElement (prime)

namespace Curve
open FieldElement (odd_neg)
open Addition

/-- The encoding of a point, made from the least residues of its coordinates. -/
def encode (P : Point) : Vector UInt8 32 :=
  Bytes.window 32 (Bytes.ofNatLE 32 (P.y.val + 2 ^ 255 * (P.x.val % 2)))

theorem val_lt (v : ZMod prime) : v.val < 2 ^ 255 :=
  lt_trans (ZMod.val_lt v) (by decide)

theorem toNatLE_encode (P : Point) :
    Bytes.toNatLE (encode P).toList = P.y.val + 2 ^ 255 * (P.x.val % 2) := by
  have hy := val_lt P.y
  exact Bytes.toNatLE_window_ofNatLE (by omega)

theorem denominator_ne_zero (y : ZMod prime) : constant * y ^ 2 + 1 ≠ 0 := by
  intro h
  have hy : y ≠ 0 := by
    rintro rfl
    exact one_ne_zero (show (1 : ZMod prime) = 0 by linear_combination h)
  refine not_isSquare_constant ⟨FieldElement.rootMinusOne / y, ?_⟩
  rw [div_mul_div_comm, eq_div_iff (mul_ne_zero hy hy)]
  linear_combination h - FieldElement.sq_rootMinusOne

/-- The second coordinate decides the square of the first one. -/
theorem onCurve_iff_sq {x y : ZMod prime} :
    OnCurve constant x y ↔ (constant * y ^ 2 + 1) * x ^ 2 = y ^ 2 - 1 := by
  rw [OnCurve]
  constructor <;> intro h <;> linear_combination -h

theorem isSquare_quotient (P : Point) :
    IsSquare ((P.y ^ 2 - 1) / (constant * P.y ^ 2 + 1)) := by
  refine ⟨P.x, ?_⟩
  rw [div_eq_iff (denominator_ne_zero P.y), ← onCurve_iff_sq.mp P.onCurve]
  ring

theorem x_eq_or_eq_neg {P Q : Point} (h : P.y = Q.y) : P.x = Q.x ∨ P.x = -Q.x := by
  apply sq_eq_sq_iff_eq_or_eq_neg.mp
  apply mul_left_cancel₀ (denominator_ne_zero P.y)
  rw [onCurve_iff_sq.mp P.onCurve, h, onCurve_iff_sq.mp Q.onCurve]

/-- A point is decided by its second coordinate and the parity of the first. -/
theorem eq_of_parity {P Q : Point} (hy : P.y = Q.y) (hx : P.x.val % 2 = Q.x.val % 2) : P = Q := by
  rcases x_eq_or_eq_neg hy with h | h
  · exact Point.ext h hy
  · by_cases hq : Q.x = 0
    · exact Point.ext (by rw [h, hq, neg_zero]) hy
    · have hodd := odd_neg hq
      rw [← h] at hodd
      omega

theorem encode_injective : Function.Injective encode := by
  intro P Q h
  have hn := congrArg (fun b => Bytes.toNatLE b.toList) h
  simp only [toNatLE_encode] at hn
  have hP := val_lt P.y
  have hQ := val_lt Q.y
  exact eq_of_parity (ZMod.val_injective prime (by omega)) (by omega)

/-- The point that bytes stand for. The second coordinate need not be reduced, and the top bit has
no meaning where the first coordinate is zero. -/
structure Decodes (b : Vector UInt8 32) (P : Point) : Prop where
  y : P.y = ((Bytes.toNatLE b.toList % 2 ^ 255 : Nat) : ZMod prime)
  x : P.x = 0 ∨ P.x.val % 2 = Bytes.toNatLE b.toList / 2 ^ 255

theorem Decodes.unique {b : Vector UInt8 32} {P Q : Point} (hP : Decodes b P)
    (hQ : Decodes b Q) : P = Q := by
  have hy : P.y = Q.y := hP.y.trans hQ.y.symm
  have hzero {P Q : Point} (hy : P.y = Q.y) (h : P.x = 0) : P = Q := by
    have hx : Q.x = 0 := by
      rcases x_eq_or_eq_neg hy with e | e
      · rw [← e, h]
      · rw [h] at e
        exact neg_eq_zero.mp e.symm
    exact Point.ext (h.trans hx.symm) hy
  rcases hP.x with h | h
  · exact hzero hy h
  · rcases hQ.x with h' | h'
    · exact (hzero hy.symm h').symm
    · exact eq_of_parity hy (h.trans h'.symm)

theorem decodes_encode (P : Point) : Decodes (encode P) P := by
  have hy := val_lt P.y
  have hlow : (P.y.val + 2 ^ 255 * (P.x.val % 2)) % 2 ^ 255 = P.y.val := by omega
  refine ⟨?_, Or.inr ?_⟩
  · rw [toNatLE_encode, hlow, ZMod.natCast_zmod_val]
  · rw [toNatLE_encode]
    omega

end Curve

namespace Point
open FieldElement Curve

theorem toNat_orSign (x : UInt8) (odd : Bool) (h : x.toNat < 128) :
    (x ||| (if odd then 0x80 else 0)).toNat = x.toNat + 128 * odd.toNat := by
  cases odd with
  | false => simp
  | true =>
      have hor := Nat.two_pow_add_eq_or_of_lt (i := 7) h 1
      rw [if_pos rfl, UInt8.toNat_or, Nat.or_comm]
      exact hor.symm.trans (by rw [Bool.toNat_true]; omega)

/-- Every representation of a point is written as its encoding. -/
theorem toBytes_eq {p : Point} {P : Curve.Point} (h : p.Represents P) : p.toBytes = encode P := by
  obtain ⟨z, hz, hx, hy, hden, -⟩ := h
  have hcancel : z * z⁻¹ = 1 := mul_inv_cancel₀ hz
  have hinv := denotes_invert hden
  have hx' := denotes_congr (denotes_mul hx hinv) (show P.x * z * z⁻¹ = P.x by
    linear_combination P.x * hcancel)
  have hy' := denotes_congr (denotes_mul hy hinv) (show P.y * z * z⁻¹ = P.y by
    linear_combination P.y * hcancel)
  have hbytes := toNatLE_toBytes hy'.residue
  have hlast : (Bytes.byteAt (p.y.mul p.z.invert).toBytes 31).toNat < 128 := by
    have hlt := val_lt P.y
    rw [Bytes.byteAt_eq_getD, Bytes.toNat_getD, hbytes]
    omega
  have hset := Bytes.toNatLE_setIfInBounds (p.y.mul p.z.invert).toBytes 31
    (Bytes.byteAt (p.y.mul p.z.invert).toBytes 31 |||
      (if (p.x.mul p.z.invert).isNegative then 0x80 else 0)) (by decide)
  rw [toNat_orSign _ _ hlast, isNegative_eq hx'.residue, hbytes] at hset
  apply Bytes.vector_eq_of_toNatLE_eq
  rw [toNatLE_encode, toBytes, isNegative_eq hx'.residue]
  have hparity : (decide (P.x.val % 2 = 1)).toNat = P.x.val % 2 := by
    rcases Nat.mod_two_eq_zero_or_one P.x.val with e | e <;> rw [e] <;> rfl
  rw [hparity] at hset
  omega

theorem topBit_eq (b : Vector UInt8 32) :
    (Bytes.byteAt b 31 >>> 7 == 1) = decide (Bytes.toNatLE b.toList / 2 ^ 255 = 1) := by
  have hlt := Bytes.toNatLE_vector_lt b
  have h : (Bytes.byteAt b 31 >>> 7).toNat = Bytes.toNatLE b.toList / 2 ^ 255 := by
    have hshift : (Bytes.byteAt b 31 >>> 7).toNat = (Bytes.byteAt b 31).toNat / 2 ^ 7 := by
      rw [UInt8.toNat_shiftRight]
      exact Nat.shiftRight_eq_div_pow _ 7
    rw [hshift, Bytes.byteAt_eq_getD, Bytes.toNat_getD]
    omega
  rw [Bool.eq_iff_iff, beq_iff_eq, decide_eq_true_iff, ← h, ← UInt8.toNat_inj]
  rfl

/-- The root with the sign of the top bit. -/
theorem signedRoot_parity {r : ZMod prime} (heven : r.val % 2 = 0) {n : Nat} (hn : n < 2) :
    (if n = 1 then -r else r) = 0 ∨ (if n = 1 then -r else r).val % 2 = n := by
  by_cases hr : r = 0
  · exact Or.inl (by rw [hr, neg_zero, ite_self])
  · have hodd := odd_neg hr
    split <;> exact Or.inr (by omega)

/-- Reading finds the point that the bytes stand for, and fails only where there is none. -/
theorem ofBytes_cases (b : Vector UInt8 32) :
    (∃ p P, ofBytes b = .ok p ∧ p.Represents P ∧ Decodes b P) ∨
      (ofBytes b = .error .invalidPoint ∧ ∀ P, ¬Decodes b P) := by
  have hlt := Bytes.toNatLE_vector_lt b
  have hy := denotes_ofBytes b
  generalize hv : ((Bytes.toNatLE b.toList % 2 ^ 255 : Nat) : ZMod prime) = y at hy
  have hy2 := denotes_square hy
  obtain ⟨r, hr, hroot⟩ := denotes_sqrtRatio (denotes_sub hy2 denotes_one)
    (denotes_congr (denotes_add (denotes_mul hy2 denotes_d) denotes_one)
      (show y ^ 2 * constant + 1 = constant * y ^ 2 + 1 by ring))
  have hden := denominator_ne_zero y
  simp only [ofBytes]
  generalize sqrtRatio _ _ = s at hr hroot ⊢
  obtain ⟨root, square⟩ := s
  cases square with
  | false =>
      refine Or.inr ⟨rfl, fun P hP => ?_⟩
      have hs := isSquare_quotient P
      rw [hP.y, hv] at hs
      exact Bool.false_ne_true (hroot.square_iff.mpr (Or.inr ⟨hden, hs⟩))
  | true =>
      have hx := denotes_negateIf hr (Bytes.byteAt b 31 >>> 7 == 1)
      have hparity := signedRoot_parity hroot.even
        (show Bytes.toNatLE b.toList / 2 ^ 255 < 2 by omega)
      have hsq : (if Bytes.toNatLE b.toList / 2 ^ 255 = 1 then -r else r) ^ 2 = r ^ 2 := by
        split
        · exact neg_sq r
        · rfl
      simp only [topBit_eq b, decide_eq_true_eq] at hx
      generalize (if Bytes.toNatLE b.toList / 2 ^ 255 = 1 then -r else r) = x at hx hparity hsq
      have hcurve : Addition.OnCurve constant x y := by
        rw [onCurve_iff_sq, hsq]
        exact hroot.root hden
      refine Or.inl ⟨_, ⟨x, y, hcurve⟩, rfl, ?_, hv.symm, hparity⟩
      rw [topBit_eq b]
      exact .scaled 1 one_ne_zero (denotes_congr hx (mul_one x).symm)
        (denotes_congr hy (mul_one y).symm) denotes_one
        (denotes_congr (denotes_mul hx hy) (mul_one (x * y)).symm)

theorem represents_of_ofBytes {b : Vector UInt8 32} {p : Point} (h : ofBytes b = .ok p) :
    ∃ P, p.Represents P ∧ Decodes b P := by
  rcases ofBytes_cases b with ⟨q, P, hq, hP⟩ | ⟨he, -⟩
  · obtain rfl := Except.ok.inj (hq.symm.trans h)
    exact ⟨P, hP⟩
  · exact nomatch h.symm.trans he

theorem exists_ofBytes_of_decodes {b : Vector UInt8 32} {P : Curve.Point} (h : Decodes b P) :
    ∃ p, ofBytes b = .ok p ∧ p.Represents P := by
  rcases ofBytes_cases b with ⟨p, Q, hp, hQ, hdec⟩ | ⟨-, hnone⟩
  · exact ⟨p, hp, hdec.unique h ▸ hQ⟩
  · exact absurd h (hnone P)

end Point

end CurveKeys.Edwards25519
