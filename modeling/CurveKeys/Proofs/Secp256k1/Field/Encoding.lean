import CurveKeys.Proofs.Bytes
import CurveKeys.Proofs.Secp256k1.Field.Canonical
import CurveKeys.Secp256k1.Field.Bytes

/-!
The byte forms of field elements. Packing keeps the integer that the bytes spell, and the bytes of
canonical limbs spell the integer of the limbs.
-/

namespace CurveKeys.Secp256k1.FieldElement
open Words

/-- A limb that begins at a byte. -/
theorem toNat_limb_from_byte (x y z w : UInt8) :
    (x.toUInt32 ||| y.toUInt32 <<< 8 ||| z.toUInt32 <<< 16 ||| (w.toUInt32 &&& 3) <<< 24).toNat =
      x.toNat + 2 ^ 8 * (y.toNat + 2 ^ 8 * (z.toNat + 2 ^ 8 * (w.toNat % 2 ^ 2))) := by
  have hw := toNat_byte_mask w (m := 3) 2 rfl
  rw [toNat_join_three 8 rfl rfl rfl (by decide) (toNat_byte_lt x) (toNat_byte_lt y)
    (toNat_byte_lt z) (by rw [hw]; omega), hw]
  simp only [UInt8.toNat_toUInt32]

theorem toNat_shifted_byte (x : UInt8) {s : UInt32} (n : Nat) (hn : n ≤ 8)
    (hs : s.toNat = 8 - n) :
    (x.toUInt32 >>> s).toNat = x.toNat / 2 ^ (8 - n) ∧ x.toNat / 2 ^ (8 - n) < 2 ^ n := by
  refine ⟨toNat_byte_shift x (8 - n) hs (by omega), ?_⟩
  rw [Nat.div_lt_iff_lt_mul (by positivity), ← pow_add, show n + (8 - n) = 8 by omega]
  exact x.toNat_lt

/-- A limb that begins with the upper `n` bits of a byte. -/
theorem toNat_limb_within_byte (x y z : UInt8) {w s i j k : UInt32} (n : Nat) (hn : n ≤ 8)
    (hs : s.toNat = 8 - n) (hi : i.toNat = n) (hj : j.toNat = n + 8) (hk : k.toNat = n + 16)
    (hw : w.toNat < 2 ^ 8) :
    (x.toUInt32 >>> s ||| y.toUInt32 <<< i ||| z.toUInt32 <<< j ||| w <<< k).toNat =
      x.toNat / 2 ^ (8 - n) + 2 ^ n * (y.toNat + 2 ^ 8 * (z.toNat + 2 ^ 8 * w.toNat)) := by
  obtain ⟨hx, hlt⟩ := toNat_shifted_byte x n hn hs
  rw [toNat_join_three n hi hj hk hn (by rw [hx]; exact hlt) (toNat_byte_lt y)
    (toNat_byte_lt z) hw, hx]
  simp only [UInt8.toNat_toUInt32]

/-- The same with the lower bits of the last byte only. -/
theorem toNat_limb_within_bytes (x y z w : UInt8) {m s i j k : UInt32} (n : Nat) (hn : n ≤ 8)
    (hn2 : 2 ≤ n) (hs : s.toNat = 8 - n) (hi : i.toNat = n) (hj : j.toNat = n + 8)
    (hk : k.toNat = n + 16) (hm : m.toNat = 2 ^ (10 - n) - 1) :
    (x.toUInt32 >>> s ||| y.toUInt32 <<< i ||| z.toUInt32 <<< j |||
      (w.toUInt32 &&& m) <<< k).toNat =
      x.toNat / 2 ^ (8 - n) +
        2 ^ n * (y.toNat + 2 ^ 8 * (z.toNat + 2 ^ 8 * (w.toNat % 2 ^ (10 - n)))) := by
  have hw := toNat_byte_mask w (10 - n) hm
  have hlt : w.toNat % 2 ^ (10 - n) < 2 ^ 8 :=
    lt_of_lt_of_le (Nat.mod_lt _ (by positivity)) (Nat.pow_le_pow_right (by decide) (by omega))
  rw [toNat_limb_within_byte x y z n hn hs hi hj hk (by rw [hw]; exact hlt), hw]

/-- The limbs of 32 bytes. -/
theorem toNat_limbs_pack (b : Vector UInt8 32) :
    let y (i : Nat) : Nat := (Bytes.byteAt b i).toNat
    let a := pack b
    a.l0.toNat = y 31 + 2 ^ 8 * (y 30 + 2 ^ 8 * (y 29 + 2 ^ 8 * (y 28 % 2 ^ 2))) ∧
    a.l1.toNat = y 28 / 2 ^ 2 + 2 ^ 6 * (y 27 + 2 ^ 8 * (y 26 + 2 ^ 8 * (y 25 % 2 ^ 4))) ∧
    a.l2.toNat = y 25 / 2 ^ 4 + 2 ^ 4 * (y 24 + 2 ^ 8 * (y 23 + 2 ^ 8 * (y 22 % 2 ^ 6))) ∧
    a.l3.toNat = y 22 / 2 ^ 6 + 2 ^ 2 * (y 21 + 2 ^ 8 * (y 20 + 2 ^ 8 * y 19)) ∧
    a.l4.toNat = y 18 + 2 ^ 8 * (y 17 + 2 ^ 8 * (y 16 + 2 ^ 8 * (y 15 % 2 ^ 2))) ∧
    a.l5.toNat = y 15 / 2 ^ 2 + 2 ^ 6 * (y 14 + 2 ^ 8 * (y 13 + 2 ^ 8 * (y 12 % 2 ^ 4))) ∧
    a.l6.toNat = y 12 / 2 ^ 4 + 2 ^ 4 * (y 11 + 2 ^ 8 * (y 10 + 2 ^ 8 * (y 9 % 2 ^ 6))) ∧
    a.l7.toNat = y 9 / 2 ^ 6 + 2 ^ 2 * (y 8 + 2 ^ 8 * (y 7 + 2 ^ 8 * y 6)) ∧
    a.l8.toNat = y 5 + 2 ^ 8 * (y 4 + 2 ^ 8 * (y 3 + 2 ^ 8 * (y 2 % 2 ^ 2))) ∧
    a.l9.toNat = y 2 / 2 ^ 2 + 2 ^ 6 * (y 1 + 2 ^ 8 * y 0) := by
  intro y a
  refine ⟨toNat_limb_from_byte _ _ _ _,
    toNat_limb_within_bytes _ _ _ _ 6 (by decide) (by decide) rfl rfl rfl rfl rfl,
    toNat_limb_within_bytes _ _ _ _ 4 (by decide) (by decide) rfl rfl rfl rfl rfl,
    toNat_limb_within_byte _ _ _ 2 (by decide) rfl rfl rfl rfl (toNat_byte_lt _),
    toNat_limb_from_byte _ _ _ _,
    toNat_limb_within_bytes _ _ _ _ 6 (by decide) (by decide) rfl rfl rfl rfl rfl,
    toNat_limb_within_bytes _ _ _ _ 4 (by decide) (by decide) rfl rfl rfl rfl rfl,
    toNat_limb_within_byte _ _ _ 2 (by decide) rfl rfl rfl rfl (toNat_byte_lt _),
    toNat_limb_from_byte _ _ _ _, ?_⟩
  obtain ⟨hx, hlt⟩ := toNat_shifted_byte (Bytes.byteAt b 2) (s := 2) 6 (by decide) rfl
  have h := toNat_join_two (i := 6) (j := 14) 6 rfl rfl (by decide) (by rw [hx]; exact hlt)
    (toNat_byte_lt (Bytes.byteAt b 1)) (toNat_byte_lt (Bytes.byteAt b 0))
  rw [hx, UInt8.toNat_toUInt32, UInt8.toNat_toUInt32] at h
  exact h

theorem toNat_pack (b : Vector UInt8 32) : (pack b).toNat = Bytes.toNatBE b.toList := by
  obtain ⟨h0, h1, h2, h3, h4, h5, h6, h7, h8, h9⟩ := toNat_limbs_pack b
  have q2 := Nat.div_add_mod (Bytes.byteAt b 2).toNat (2 ^ 2)
  have q9 := Nat.div_add_mod (Bytes.byteAt b 9).toNat (2 ^ 6)
  have q12 := Nat.div_add_mod (Bytes.byteAt b 12).toNat (2 ^ 4)
  have q15 := Nat.div_add_mod (Bytes.byteAt b 15).toNat (2 ^ 2)
  have q22 := Nat.div_add_mod (Bytes.byteAt b 22).toNat (2 ^ 6)
  have q25 := Nat.div_add_mod (Bytes.byteAt b 25).toNat (2 ^ 4)
  have q28 := Nat.div_add_mod (Bytes.byteAt b 28).toNat (2 ^ 2)
  rw [toNat_eq, Bytes.toNatBE_thirtyTwo, h0, h1, h2, h3, h4, h5, h6, h7, h8, h9]
  linarith

theorem carried_pack (b : Vector UInt8 32) : (pack b).Carried := by
  obtain ⟨h0, h1, h2, h3, h4, h5, h6, h7, h8, -⟩ := toNat_limbs_pack b
  have hy (i : Nat) : (Bytes.byteAt b i).toNat < 2 ^ 8 := (Bytes.byteAt b i).toNat_lt
  have limb {x y z w n : Nat} (hn : n ≤ 8) (hx : x < 2 ^ n) (hy : y < 2 ^ 8) (hz : z < 2 ^ 8)
      (hw : w < 2 ^ (10 - n)) : x + 2 ^ n * (y + 2 ^ 8 * (z + 2 ^ 8 * w)) < 0x4000000 := by
    interval_cases n <;> simp only [Nat.reduceSub, Nat.reducePow] at hx hw ⊢ <;> omega
  rw [carried_iff, h0, h1, h2, h3, h4, h5, h6, h7, h8]
  have low (i m : Nat) : (Bytes.byteAt b i).toNat % 2 ^ m < 2 ^ m := Nat.mod_lt _ (by positivity)
  have high (i n : Nat) (hn : n ≤ 8) : (Bytes.byteAt b i).toNat / 2 ^ (8 - n) < 2 ^ n := by
    rw [Nat.div_lt_iff_lt_mul (by positivity), ← pow_add, show n + (8 - n) = 8 by omega]
    exact hy i
  exact ⟨limb (n := 8) (by decide) (hy _) (hy _) (hy _) (low _ 2),
    limb (by decide) (high _ 6 (by decide)) (hy _) (hy _) (low _ 4),
    limb (by decide) (high _ 4 (by decide)) (hy _) (hy _) (low _ 6),
    limb (by decide) (high _ 2 (by decide)) (hy _) (hy _) (hy _),
    limb (n := 8) (by decide) (hy _) (hy _) (hy _) (low _ 2),
    limb (by decide) (high _ 6 (by decide)) (hy _) (hy _) (low _ 4),
    limb (by decide) (high _ 4 (by decide)) (hy _) (hy _) (low _ 6),
    limb (by decide) (high _ 2 (by decide)) (hy _) (hy _) (hy _),
    limb (n := 8) (by decide) (hy _) (hy _) (hy _) (low _ 2)⟩

theorem toNat_pack_lt (b : Vector UInt8 32) : (pack b).toNat < 2 ^ 256 := by
  rw [toNat_pack]
  have h := Bytes.toNatBE_lt b.toList
  rw [b.length_toList] at h
  exact lt_of_lt_of_eq h (by norm_num)

theorem magnitude_pack (b : Vector UInt8 32) : (pack b).Magnitude 1 :=
  magnitude_one (carried_pack b) (lt_trans (toNat_pack_lt b) (by norm_num))

theorem denotes_pack (b : Vector UInt8 32) :
    (pack b).Denotes 1 (Bytes.toNatBE b.toList : ZMod prime) :=
  ⟨magnitude_pack b, congrArg Nat.cast (toNat_pack b)⟩

theorem canonical_reduceBytes (b : Vector UInt8 32) : (reduceBytes b).1.Canonical :=
  canonical_normalize (denotes_pack b) (by decide)

theorem denotes_reduceBytes (b : Vector UInt8 32) :
    (reduceBytes b).1.Denotes 1 (Bytes.toNatBE b.toList : ZMod prime) :=
  denotes_normalize (denotes_pack b)

theorem reduceBytes_overflow_iff (b : Vector UInt8 32) :
    (reduceBytes b).2 = true ↔ prime ≤ Bytes.toNatBE b.toList := by
  rw [← toNat_pack]
  exact overflows_iff (carried_pack b)

/-- The byte that takes its lower bits from the top of one limb and the others from the next. -/
theorem toNat_byte_across {x y i j : UInt32} (n : Nat) (hi : i.toNat = 26 - n) (hj : j.toNat = n)
    (hn : n ≤ 8) (hx : x.toNat < 0x4000000) :
    (x >>> i ||| y <<< j).toUInt8.toNat =
      x.toNat / 2 ^ (26 - n) + 2 ^ n * (y.toNat % 2 ^ (8 - n)) := by
  have hlow : x.toNat / 2 ^ (26 - n) < 2 ^ n := by
    rw [Nat.div_lt_iff_lt_mul (by positivity), ← pow_add, show n + (26 - n) = 26 by omega]
    exact hx
  have hlow' : x.toNat / 2 ^ (26 - n) < 2 ^ 8 :=
    lt_of_lt_of_le hlow (Nat.pow_le_pow_right (by decide) hn)
  have hhigh : (y <<< j).toNat % 2 ^ 8 = 2 ^ n * (y.toNat % 2 ^ (8 - n)) := by
    rw [UInt32.toNat_shiftLeft, hj, Nat.mod_eq_of_lt (show n < 32 by omega), Nat.shiftLeft_eq,
      Nat.mod_mod_of_dvd _ (pow_dvd_pow 2 (by decide)), ← Nat.mul_mod_mul_left, ← pow_add,
      show n + (8 - n) = 8 by omega, mul_comm]
  rw [UInt32.toNat_toUInt8, UInt32.toNat_or, Nat.or_mod_two_pow, hhigh,
    toNat_shiftRight32 x (26 - n) hi (by omega), Nat.mod_eq_of_lt hlow', Nat.or_comm,
    ← Nat.two_pow_add_eq_or_of_lt hlow, add_comm]

/-- A limb is the sum of its lowest bits, the two bytes that follow them and the bits above. -/
theorem add_parts (x n : Nat) :
    x % 2 ^ n + 2 ^ n * (x / 2 ^ n % 2 ^ 8) + 2 ^ (n + 8) * (x / 2 ^ (n + 8) % 2 ^ 8) +
      2 ^ (n + 16) * (x / 2 ^ (n + 16)) = x := by
  have low := Nat.mod_add_div x (2 ^ n)
  have first := Nat.mod_add_div (x / 2 ^ n) (2 ^ 8)
  have second := Nat.mod_add_div (x / 2 ^ (n + 8)) (2 ^ 8)
  rw [Nat.div_div_eq_div_mul, ← pow_add] at first second
  rw [← first, ← second, mul_add, ← mul_assoc, ← pow_add, mul_add, ← mul_assoc, ← pow_add] at low
  linarith only [low]

theorem toNatBE_toBytes {a : FieldElement} (h : a.Canonical) :
    Bytes.toNatBE a.toBytes.toList = a.toNat := by
  obtain ⟨h0, h1, h2, h3, h4, h5, h6, h7, h8⟩ := (carried_iff a).mp h.carried
  have h9 : a.l9.toNat < 0x400000 := l9_le_of_toNat_lt (lt_trans h.toNat_lt (by decide))
  -- two limbs end with a whole byte, and the last limb has no part above its bytes
  have h3' : a.l3.toNat / 2 ^ 18 % 2 ^ 8 = a.l3.toNat / 2 ^ 18 := Nat.mod_eq_of_lt (by omega)
  have h7' : a.l7.toNat / 2 ^ 18 % 2 ^ 8 = a.l7.toNat / 2 ^ 18 := Nat.mod_eq_of_lt (by omega)
  have h9' : a.l9.toNat / 2 ^ 22 = 0 := Nat.div_eq_of_lt (by omega)
  rw [← Bytes.toNatLE_reverse]
  simp only [toBytes, Vector.toList_mk, List.reverse, List.reverseAux, Bytes.toNatLE]
  simp only [toNat_byte_within (i := 2) _ 2 rfl, toNat_byte_within (i := 4) _ 4 rfl,
    toNat_byte_within (i := 6) _ 6 rfl, toNat_byte_within (i := 8) _ 8 rfl,
    toNat_byte_within (i := 10) _ 10 rfl, toNat_byte_within (i := 12) _ 12 rfl,
    toNat_byte_within (i := 14) _ 14 rfl, toNat_byte_within (i := 16) _ 16 rfl,
    toNat_byte_within (i := 18) _ 18 rfl,
    toNat_byte_across (i := 24) (j := 2) 2 rfl rfl (by decide) h0,
    toNat_byte_across (i := 22) (j := 4) 4 rfl rfl (by decide) h1,
    toNat_byte_across (i := 20) (j := 6) 6 rfl rfl (by decide) h2,
    toNat_byte_across (i := 24) (j := 2) 2 rfl rfl (by decide) h4,
    toNat_byte_across (i := 22) (j := 4) 4 rfl rfl (by decide) h5,
    toNat_byte_across (i := 20) (j := 6) 6 rfl rfl (by decide) h6,
    toNat_byte_across (i := 24) (j := 2) 2 rfl rfl (by decide) h8, UInt32.toNat_toUInt8]
  have aligned (x : Nat) := add_parts x 8
  have from6 (x : Nat) := add_parts x 6
  have from4 (x : Nat) := add_parts x 4
  have from2 (x : Nat) := add_parts x 2
  simp only [Nat.reduceAdd] at aligned from6 from4 from2
  rw [toNat_eq, h3', h7']
  linarith [aligned a.l0.toNat, from6 a.l1.toNat, from4 a.l2.toNat, from2 a.l3.toNat,
    aligned a.l4.toNat, from6 a.l5.toNat, from4 a.l6.toNat, from2 a.l7.toNat, aligned a.l8.toNat,
    from6 a.l9.toNat, h9']

end CurveKeys.Secp256k1.FieldElement
