import CurveKeys.Proofs.Bytes
import CurveKeys.Proofs.Edwards25519.Field.Canonical

/-!
The byte form of field elements. Reading drops the top bit and takes the residue; writing spells the
residue below the modulus, so that equality, the test for zero and the sign read the residue.
-/

namespace CurveKeys.Edwards25519.FieldElement
open Words

/-- The word is a part of the integer that the bytes spell. -/
theorem toNat_word (b : Vector UInt8 32) (i : Nat) :
    (word b i).toNat = Bytes.toNatLE b.toList / 256 ^ i % 256 ^ 8 := by
  let x (k : Nat) : UInt8 := Bytes.byteAt b (i + k)
  have h0 : (x 0).toUInt64.toNat < 2 ^ 8 := (x 0).toNat_lt
  obtain ⟨e1, h1⟩ := toNat_or_byte (x 1) (k := 8) 8 rfl h0
  obtain ⟨e2, h2⟩ := toNat_or_byte (x 2) (k := 16) 16 rfl h1
  obtain ⟨e3, h3⟩ := toNat_or_byte (x 3) (k := 24) 24 rfl h2
  obtain ⟨e4, h4⟩ := toNat_or_byte (x 4) (k := 32) 32 rfl h3
  obtain ⟨e5, h5⟩ := toNat_or_byte (x 5) (k := 40) 40 rfl h4
  obtain ⟨e6, h6⟩ := toNat_or_byte (x 6) (k := 48) 48 rfl h5
  obtain ⟨e7, -⟩ := toNat_or_byte (x 7) (k := 56) 56 rfl h6
  rw [← Bytes.toNatLE_drop, ← Bytes.toNatLE_take]
  simp only [Bytes.toNatLE_slice_succ, List.take_zero, Bytes.toNatLE, ← Bytes.byteAt_eq_getD]
  refine e7.trans ?_
  rw [e6, e5, e4, e3, e2, e1]
  simp only [x, UInt8.toNat_toUInt64, add_zero, Nat.add_assoc i, Nat.reduceAdd]
  ring

/-- The 51 bits from bit `s` of a word on. -/
theorem toNat_low_word (b : Vector UInt8 32) (i : Nat) {k : UInt64} (s : Nat) (hk : k.toNat = s)
    (hs : s ≤ 13 := by decide) :
    (low (word b i >>> k)).toNat =
      Bytes.toNatLE b.toList / 2 ^ (8 * i + s) % 0x8000000000000 := by
  have hsplit : 256 ^ 8 = 2 ^ s * 2 ^ (64 - s) := by
    rw [← pow_add, show s + (64 - s) = 64 by omega]
    rfl
  rw [toNat_low, toNat_shiftRight64 _ s hk (by omega), toNat_word, hsplit,
    Nat.mod_mul_right_div_self, Nat.div_div_eq_div_mul, show (256 : Nat) = 2 ^ 8 from rfl,
    ← pow_mul, ← pow_add]
  exact Nat.mod_mod_of_dvd _ (pow_dvd_pow 2 (show 51 ≤ 64 - s by omega))

theorem toNat_low_word_zero (b : Vector UInt8 32) :
    (low (word b 0)).toNat = Bytes.toNatLE b.toList % 0x8000000000000 := by
  have h := toNat_low_word b 0 (k := 0) 0 rfl
  rwa [UInt64.shiftRight_zero, pow_zero, Nat.div_one] at h

theorem toNat_ofBytes (b : Vector UInt8 32) :
    (ofBytes b).toNat = Bytes.toNatLE b.toList % 2 ^ 255 := by
  have hsplit : 2 ^ 255 = 0x8000000000000 * (0x8000000000000 * (0x8000000000000 *
      (0x8000000000000 * 0x8000000000000))) := by decide
  rw [hsplit, Nat.mod_mul, Nat.mod_mul, Nat.mod_mul, Nat.mod_mul, Nat.div_div_eq_div_mul,
    Nat.div_div_eq_div_mul, Nat.div_div_eq_div_mul, toNat_eq]
  simp only [ofBytes]
  rw [toNat_low_word_zero, toNat_low_word b 6 3 rfl, toNat_low_word b 12 6 rfl,
    toNat_low_word b 19 1 rfl, toNat_low_word b 24 12 rfl]
  rfl

theorem denotes_ofBytes (b : Vector UInt8 32) :
    (ofBytes b).Denotes (Bytes.toNatLE b.toList % 2 ^ 255 : Nat) := by
  have h (x : UInt64) : (low x).toNat < 0x8000000040000 := by
    rw [toNat_low]
    omega
  exact ⟨⟨h _, h _, h _, h _, h _⟩, congrArg Nat.cast (toNat_ofBytes b)⟩

/-- The byte that takes its lower bits from the top of one limb and the others from the next. -/
theorem toNat_byte_across {x y i j : UInt64} (n : Nat) (hi : i.toNat = 51 - n) (hj : j.toNat = n)
    (hn : n ≤ 8) (hx : x.toNat < 0x8000000000000) :
    (x >>> i ||| y <<< j).toUInt8.toNat =
      x.toNat / 2 ^ (51 - n) + 2 ^ n * (y.toNat % 2 ^ (8 - n)) := by
  have hlow : x.toNat / 2 ^ (51 - n) < 2 ^ n := by
    rw [Nat.div_lt_iff_lt_mul (by positivity), ← pow_add, show n + (51 - n) = 51 by omega]
    exact hx
  have hlow' : x.toNat / 2 ^ (51 - n) < 2 ^ 8 :=
    lt_of_lt_of_le hlow (Nat.pow_le_pow_right (by decide) hn)
  have hhigh : (y <<< j).toNat % 2 ^ 8 = 2 ^ n * (y.toNat % 2 ^ (8 - n)) := by
    rw [UInt64.toNat_shiftLeft, hj, Nat.mod_eq_of_lt (show n < 64 by omega), Nat.shiftLeft_eq,
      Nat.mod_mod_of_dvd _ (pow_dvd_pow 2 (by decide)), ← Nat.mul_mod_mul_left, ← pow_add,
      show n + (8 - n) = 8 by omega, mul_comm]
  rw [UInt64.toNat_toUInt8, UInt64.toNat_or, Nat.or_mod_two_pow, hhigh,
    toNat_shiftRight64 x (51 - n) hi (by omega), Nat.mod_eq_of_lt hlow', Nat.or_comm,
    ← Nat.two_pow_add_eq_or_of_lt hlow, add_comm]

theorem toNatLE_toBytes_eq (a : FieldElement) :
    Bytes.toNatLE a.toBytes.toList = a.reduce.toNat := by
  obtain ⟨h0, h1, h2, h3, h4, -⟩ := canonical_reduce a
  have s0 (x : Nat) : x % 2 ^ 8 + 2 ^ 8 * (x / 2 ^ 8 % 2 ^ 8) + 2 ^ 16 * (x / 2 ^ 16 % 2 ^ 8) +
      2 ^ 24 * (x / 2 ^ 24 % 2 ^ 8) + 2 ^ 32 * (x / 2 ^ 32 % 2 ^ 8) +
      2 ^ 40 * (x / 2 ^ 40 % 2 ^ 8) + 2 ^ 48 * (x / 2 ^ 48) = x := by omega
  have s1 (x : Nat) : x % 2 ^ 5 + 2 ^ 5 * (x / 2 ^ 5 % 2 ^ 8) + 2 ^ 13 * (x / 2 ^ 13 % 2 ^ 8) +
      2 ^ 21 * (x / 2 ^ 21 % 2 ^ 8) + 2 ^ 29 * (x / 2 ^ 29 % 2 ^ 8) +
      2 ^ 37 * (x / 2 ^ 37 % 2 ^ 8) + 2 ^ 45 * (x / 2 ^ 45) = x := by omega
  have s2 (x : Nat) : x % 2 ^ 2 + 2 ^ 2 * (x / 2 ^ 2 % 2 ^ 8) + 2 ^ 10 * (x / 2 ^ 10 % 2 ^ 8) +
      2 ^ 18 * (x / 2 ^ 18 % 2 ^ 8) + 2 ^ 26 * (x / 2 ^ 26 % 2 ^ 8) +
      2 ^ 34 * (x / 2 ^ 34 % 2 ^ 8) + 2 ^ 42 * (x / 2 ^ 42 % 2 ^ 8) +
      2 ^ 50 * (x / 2 ^ 50) = x := by omega
  have s3 (x : Nat) : x % 2 ^ 7 + 2 ^ 7 * (x / 2 ^ 7 % 2 ^ 8) + 2 ^ 15 * (x / 2 ^ 15 % 2 ^ 8) +
      2 ^ 23 * (x / 2 ^ 23 % 2 ^ 8) + 2 ^ 31 * (x / 2 ^ 31 % 2 ^ 8) +
      2 ^ 39 * (x / 2 ^ 39 % 2 ^ 8) + 2 ^ 47 * (x / 2 ^ 47) = x := by omega
  have s4 (x : Nat) (hx : x < 2 ^ 51) : x % 2 ^ 4 + 2 ^ 4 * (x / 2 ^ 4 % 2 ^ 8) +
      2 ^ 12 * (x / 2 ^ 12 % 2 ^ 8) + 2 ^ 20 * (x / 2 ^ 20 % 2 ^ 8) +
      2 ^ 28 * (x / 2 ^ 28 % 2 ^ 8) + 2 ^ 36 * (x / 2 ^ 36 % 2 ^ 8) +
      2 ^ 44 * (x / 2 ^ 44 % 2 ^ 8) = x := by omega
  simp only [toBytes, Vector.toList_mk, Bytes.toNatLE]
  generalize a.reduce = t at *
  -- the four bytes on two limbs first, since the general rules would open them as well
  simp only [toNat_byte_across (i := 48) (j := 3) 3 rfl rfl (by decide) h0,
    toNat_byte_across (i := 45) (j := 6) 6 rfl rfl (by decide) h1,
    toNat_byte_across (i := 50) (j := 1) 1 rfl rfl (by decide) h2,
    toNat_byte_across (i := 47) (j := 4) 4 rfl rfl (by decide) h3]
  simp only [UInt64.toNat_toUInt8, UInt64.toNat_shiftRight, UInt64.reduceToNat, Nat.reduceMod,
    Nat.shiftRight_eq_div_pow, Nat.reduceSub]
  rw [toNat_eq]
  linarith [s0 t.l0.toNat, s1 t.l1.toNat, s2 t.l2.toNat, s3 t.l3.toNat, s4 t.l4.toNat h4]

/-- The bytes spell the residue below the modulus. -/
theorem toNatLE_toBytes {a : FieldElement} {v : ZMod prime} (ha : a.residue = v) :
    Bytes.toNatLE a.toBytes.toList = v.val := by
  rw [toNatLE_toBytes_eq, toNat_reduce_eq_val ha]

theorem toBytes_eq_iff {a b : FieldElement} : a.toBytes = b.toBytes ↔ a.residue = b.residue := by
  constructor
  · intro h
    apply ZMod.val_injective prime
    rw [← toNatLE_toBytes rfl, h, toNatLE_toBytes rfl]
  · intro h
    rw [← Vector.toList_inj]
    apply Bytes.eq_of_toNatLE_eq (by rw [Vector.length_toList, Vector.length_toList])
    rw [toNatLE_toBytes h, toNatLE_toBytes rfl]

theorem beq_iff {a b : FieldElement} {v w : ZMod prime} (ha : a.residue = v)
    (hb : b.residue = w) : (a == b) = true ↔ v = w := by
  change a.same b = true ↔ _
  rw [same, beq_iff_eq, toBytes_eq_iff, ha, hb]

theorem isZero_iff {a : FieldElement} {v : ZMod prime} (ha : a.residue = v) :
    a.isZero = true ↔ v = 0 :=
  beq_iff ha denotes_zero.residue

theorem isNegative_eq {a : FieldElement} {v : ZMod prime} (ha : a.residue = v) :
    a.isNegative = decide (v.val % 2 = 1) := by
  have hlow : (Bytes.byteAt a.toBytes 0 &&& 1).toNat = v.val % 2 := by
    have hand := Nat.and_two_pow_sub_one_eq_mod (Bytes.byteAt a.toBytes 0).toNat 1
    rw [UInt8.toNat_and]
    refine hand.trans ?_
    rw [Bytes.byteAt_eq_getD, Bytes.toNat_getD, toNatLE_toBytes ha, pow_zero, Nat.div_one,
      Nat.mod_mod_of_dvd _ (by decide)]
  rw [isNegative, Bool.eq_iff_iff, beq_iff_eq, decide_eq_true_iff, ← hlow, ← UInt8.toNat_inj]
  rfl

theorem val_neg {v : ZMod prime} (hv : v ≠ 0) : (-v).val + v.val = prime := by
  have hlt := ZMod.val_lt v
  have : NeZero v := ⟨hv⟩
  rw [ZMod.val_neg_of_ne_zero v]
  omega

/-- Of a residue and its negative, both not zero, one is odd. -/
theorem odd_neg {v : ZMod prime} (hv : v ≠ 0) : (-v).val % 2 = 1 ↔ v.val % 2 = 0 := by
  have h := val_neg hv
  have hp : prime % 2 = 1 := by decide
  omega

/-- The even one of a residue and its negative. -/
def evenRoot (v : ZMod prime) : ZMod prime := if v.val % 2 = 1 then -v else v

theorem evenRoot_eq_or (v : ZMod prime) : evenRoot v = v ∨ evenRoot v = -v := by
  rw [evenRoot]
  split
  · exact Or.inr rfl
  · exact Or.inl rfl

theorem sq_evenRoot (v : ZMod prime) : evenRoot v ^ 2 = v ^ 2 := by
  rcases evenRoot_eq_or v with h | h
  · rw [h]
  · rw [h, neg_sq]

theorem even_evenRoot (v : ZMod prime) : (evenRoot v).val % 2 = 0 := by
  by_cases hv : v = 0
  · subst hv
    rfl
  · rw [evenRoot]
    split
    · next h =>
        have := odd_neg hv
        omega
    · next h => omega

theorem denotes_abs {a : FieldElement} {v : ZMod prime} (ha : a.Denotes v) :
    a.abs.Denotes (evenRoot v) := by
  refine denotes_congr (denotes_negateIf ha a.isNegative) ?_
  rw [evenRoot, isNegative_eq ha.residue]
  exact if_congr decide_eq_true_iff rfl rfl

end CurveKeys.Edwards25519.FieldElement
