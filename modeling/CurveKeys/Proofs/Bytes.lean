import Mathlib
import CurveKeys.Bytes

/-!
Integers spelled by byte strings. Zeros on the left change nothing, a window of a string spells its
first bytes, and equally long strings that spell the same integer are equal. A part of a
little-endian string spells a quotient or a remainder of its integer.
-/

namespace CurveKeys.Bytes

theorem foldl_toNatBE (b : Bytes) (n : Nat) :
    b.foldl (fun n x => 256 * n + x.toNat) n = 256 ^ b.length * n + toNatBE b := by
  induction b generalizing n with
  | nil => simp [toNatBE]
  | cons x b ih =>
      have h0 : toNatBE (x :: b) = 256 ^ b.length * (256 * 0 + x.toNat) + toNatBE b :=
        ih (256 * 0 + x.toNat)
      rw [List.foldl_cons, ih, h0, List.length_cons, pow_succ]
      ring

theorem toNatBE_append (a b : Bytes) :
    toNatBE (a ++ b) = 256 ^ b.length * toNatBE a + toNatBE b := by
  rw [toNatBE, List.foldl_append, foldl_toNatBE]
  rfl

theorem toNatBE_concat (b : Bytes) (x : UInt8) :
    toNatBE (b ++ [x]) = 256 * toNatBE b + x.toNat := by
  rw [toNatBE, List.foldl_append]
  rfl

theorem toNatBE_cons (x : UInt8) (b : Bytes) :
    toNatBE (x :: b) = 256 ^ b.length * x.toNat + toNatBE b := by
  rw [toNatBE, List.foldl_cons, foldl_toNatBE]
  simp

theorem toNatBE_lt (b : Bytes) : toNatBE b < 256 ^ b.length := by
  induction b with
  | nil => simp [toNatBE]
  | cons x b ih =>
      have hx := x.toNat_lt
      have hm : 256 ^ b.length * x.toNat ≤ 256 ^ b.length * 255 :=
        Nat.mul_le_mul_left _ (by omega)
      rw [toNatBE_cons, List.length_cons, pow_succ]
      omega

theorem toNatBE_replicate_append (n : Nat) (b : Bytes) :
    toNatBE (List.replicate n 0 ++ b) = toNatBE b := by
  induction n with
  | zero => rfl
  | succ n ih =>
      rw [List.replicate_succ, List.cons_append, toNatBE_cons, ih]
      simp

theorem toNatBE_zero_cons (b : Bytes) : toNatBE (0 :: b) = toNatBE b := by
  rw [toNatBE_cons]
  simp

theorem pow_le_toNatBE_cons {x : UInt8} (hx : x ≠ 0) (b : Bytes) :
    256 ^ b.length ≤ toNatBE (x :: b) := by
  have hpos : 0 < x.toNat := Nat.pos_of_ne_zero fun h => hx (UInt8.toNat_inj.mp h)
  rw [toNatBE_cons]
  exact le_trans (Nat.le_mul_of_pos_right _ hpos) (Nat.le_add_right _ _)

theorem toNatBE_dropWhile (b : Bytes) : toNatBE (b.dropWhile (· == 0)) = toNatBE b := by
  induction b with
  | nil => rfl
  | cons x b ih =>
      rw [List.dropWhile_cons]
      split
      · next h => rw [ih, beq_iff_eq.mp h, toNatBE_zero_cons]
      · rfl

/-- Without its zeros on the left an integer below `256 ^ n` has at most `n` bytes. -/
theorem length_dropWhile_le {b : Bytes} {n : Nat} (h : toNatBE b < 256 ^ n) :
    (b.dropWhile (· == 0)).length ≤ n := by
  induction b with
  | nil => exact Nat.zero_le n
  | cons x b ih =>
      rw [List.dropWhile_cons]
      split
      · next hx =>
          rw [beq_iff_eq.mp hx, toNatBE_zero_cons] at h
          exact ih h
      · next hx =>
          have hlow := pow_le_toNatBE_cons (beq_iff_eq.not.mp hx) b
          exact (Nat.pow_lt_pow_iff_right (by decide)).mp (hlow.trans_lt h)

theorem toNatBE_take_add_drop (n : Nat) (b : Bytes) :
    256 ^ (b.length - n) * toNatBE (b.take n) + toNatBE (b.drop n) = toNatBE b := by
  conv_rhs => rw [← List.take_append_drop n b, toNatBE_append, List.length_drop]

/-- A byte of a big-endian string, with what stands on either side of it. -/
theorem toNatBE_middle (a : Bytes) (x : UInt8) (b : Bytes) :
    toNatBE (a ++ x :: b) = 256 ^ b.length * (256 * toNatBE a + x.toNat) + toNatBE b := by
  rw [toNatBE_append, toNatBE_cons, List.length_cons, pow_succ]
  ring

/-- The bytes to the left of an integer that the others have room for spell nothing. -/
theorem toNatBE_take_eq_zero {b : Bytes} {n : Nat} (h : toNatBE b < 256 ^ (b.length - n)) :
    toNatBE (b.take n) = 0 := by
  rw [← toNatBE_take_add_drop n b] at h
  exact Nat.lt_one_iff.mp (Nat.lt_of_mul_lt_mul_left (a := 256 ^ (b.length - n)) (by omega))

theorem toNatLE_append (a b : Bytes) :
    toNatLE (a ++ b) = toNatLE a + 256 ^ a.length * toNatLE b := by
  induction a with
  | nil => simp [toNatLE]
  | cons x a ih =>
      rw [List.cons_append, toNatLE, toNatLE, ih, List.length_cons, pow_succ']
      ring

theorem toNatLE_lt (b : Bytes) : toNatLE b < 256 ^ b.length := by
  induction b with
  | nil => exact Nat.one_pos
  | cons x b ih =>
      have hx := x.toNat_lt
      rw [toNatLE, List.length_cons, pow_succ']
      omega

theorem toNatLE_take_add_drop (n : Nat) (b : Bytes) (h : n ≤ b.length) :
    toNatLE (b.take n) + 256 ^ n * toNatLE (b.drop n) = toNatLE b := by
  conv_rhs => rw [← List.take_append_drop n b, toNatLE_append, List.length_take_of_le h]

theorem toNatLE_take (n : Nat) (b : Bytes) : toNatLE (b.take n) = toNatLE b % 256 ^ n := by
  rcases Nat.le_total n b.length with h | h
  · have hlt := toNatLE_lt (b.take n)
    rw [List.length_take_of_le h] at hlt
    rw [← toNatLE_take_add_drop n b h, Nat.add_mul_mod_self_left, Nat.mod_eq_of_lt hlt]
  · rw [List.take_of_length_le h]
    exact (Nat.mod_eq_of_lt
      (lt_of_lt_of_le (toNatLE_lt b) (Nat.pow_le_pow_right (by decide) h))).symm

theorem toNatLE_drop (n : Nat) (b : Bytes) : toNatLE (b.drop n) = toNatLE b / 256 ^ n := by
  rcases Nat.le_total n b.length with h | h
  · have hlt := toNatLE_lt (b.take n)
    rw [List.length_take_of_le h] at hlt
    rw [← toNatLE_take_add_drop n b h, Nat.add_mul_div_left _ _ (by positivity),
      Nat.div_eq_of_lt hlt, zero_add]
  · rw [List.drop_of_length_le h]
    exact (Nat.div_eq_of_lt
      (lt_of_lt_of_le (toNatLE_lt b) (Nat.pow_le_pow_right (by decide) h))).symm

/-- The integer of `n + 1` bytes from position `i` on; past the end a byte counts as zero. -/
theorem toNatLE_slice_succ (b : Bytes) (i n : Nat) :
    toNatLE ((b.drop i).take (n + 1)) =
      (b.getD i 0).toNat + 256 * toNatLE ((b.drop (i + 1)).take n) := by
  rcases Nat.lt_or_ge i b.length with h | h
  · rw [List.drop_eq_getElem_cons h, List.take_succ_cons, toNatLE, List.getD_eq_getElem b 0 h]
  · rw [List.drop_of_length_le h, List.drop_of_length_le (by omega), List.getD_eq_default b 0 h,
      List.take_nil, List.take_nil]
    rfl

theorem toNat_getD (b : Bytes) (i : Nat) : (b.getD i 0).toNat = toNatLE b / 256 ^ i % 256 := by
  have h := toNatLE_slice_succ b i 0
  rw [toNatLE_take, toNatLE_drop, List.take_zero] at h
  exact h.symm

theorem byteAt_eq_getD {n : Nat} (b : Vector UInt8 n) (i : Nat) :
    byteAt b i = b.toList.getD i 0 := by
  rw [byteAt, List.getD_eq_getElem?_getD, Vector.getElem?_toList]

theorem toNatLE_reverse (b : Bytes) : toNatLE b.reverse = toNatBE b := by
  induction b using List.reverseRecOn with
  | nil => rfl
  | append_singleton b x ih =>
      rw [List.reverse_concat, toNatLE, ih, toNatBE_concat, Nat.add_comm]

theorem toNatLE_ofNatLE (n v : Nat) : toNatLE (ofNatLE n v) = v % 256 ^ n := by
  induction n generalizing v with
  | zero => rw [ofNatLE, toNatLE, pow_zero, Nat.mod_one]
  | succ n ih =>
      rw [ofNatLE, toNatLE, ih, UInt8.toNat_ofNat', pow_succ' 256 n, Nat.mod_mul]

/-- Another byte at a position changes the integer by the difference there. -/
theorem toNatLE_set (b : Bytes) (i : Nat) (v : UInt8) (h : i < b.length) :
    toNatLE (b.set i v) + 256 ^ i * (b.getD i 0).toNat = toNatLE b + 256 ^ i * v.toNat := by
  induction b generalizing i with
  | nil => exact absurd h (Nat.not_lt_zero i)
  | cons x b ih =>
      cases i with
      | zero =>
          rw [List.set_cons_zero, toNatLE, toNatLE, List.getD_cons_zero]
          omega
      | succ i =>
          have hi := ih i (Nat.lt_of_succ_lt_succ h)
          rw [List.set_cons_succ, toNatLE, toNatLE, List.getD_cons_succ, pow_succ']
          linarith

theorem toNatBE_ofNatBE (n v : Nat) : toNatBE (ofNatBE n v) = v % 256 ^ n := by
  rw [← toNatLE_reverse, ofNatBE, List.reverse_reverse, toNatLE_ofNatLE]

theorem length_ofNatBE (n v : Nat) : (ofNatBE n v).length = n := by
  rw [ofNatBE, List.length_reverse, length_ofNatLE]

theorem toList_window (n : Nat) (b : Bytes) :
    (window n b).toList = List.replicate (n - b.length) 0 ++ b.take n := rfl

/-- A string of the right length is its own window. -/
theorem toList_window_of_length {n : Nat} {b : Bytes} (h : b.length = n) :
    (window n b).toList = b := by
  rw [toList_window, h, Nat.sub_self, List.take_of_length_le (le_of_eq h)]
  rfl

theorem window_toList {n : Nat} (b : Vector UInt8 n) : window n b.toList = b := by
  rw [← Vector.toList_inj, toList_window_of_length b.length_toList]

/-- The window of a string that goes on is what it begins with. -/
theorem window_append {n : Nat} (v : Vector UInt8 n) (rest : Bytes) :
    window n (v.toList ++ rest) = v := by
  rw [← Vector.toList_inj, toList_window, List.take_left' v.length_toList, List.length_append,
    v.length_toList, Nat.sub_eq_zero_of_le (Nat.le_add_right n _)]
  rfl

theorem exists_eq_toList {n : Nat} {b : Bytes} (h : b.length = n) :
    ∃ v : Vector UInt8 n, b = v.toList :=
  ⟨⟨b.toArray, by simpa using h⟩, rfl⟩

/-- A string splits after its first `n` bytes. -/
theorem exists_eq_append {n : Nat} {b : Bytes} (h : n ≤ b.length) :
    ∃ (v : Vector UInt8 n) (rest : Bytes), b = v.toList ++ rest :=
  ⟨⟨(b.take n).toArray, by simpa using h⟩, b.drop n, (List.take_append_drop n b).symm⟩

theorem exactly_eq_some_iff {n : Nat} {b : Bytes} {v : Vector UInt8 n} :
    exactly n b = some v ↔ v.toList = b := by
  unfold exactly
  split
  · next h =>
      rw [Option.some.injEq, ← Vector.toList_inj, Vector.toList_mk]
      exact eq_comm
  · next h =>
      refine iff_of_false (fun e => nomatch e) ?_
      rintro rfl
      exact h v.length_toList

theorem toList_eq_map_byteAt {n : Nat} (b : Vector UInt8 n) :
    b.toList = (List.range n).map (byteAt b) := by
  apply List.ext_getElem
  · simp
  · intro i hi _
    have hn : i < n := by simpa using hi
    simp [byteAt_eq_getElem b i hn]

theorem toNatLE_setIfInBounds {n : Nat} (b : Vector UInt8 n) (i : Nat) (v : UInt8) (h : i < n) :
    toNatLE (b.setIfInBounds i v).toList + 256 ^ i * (byteAt b i).toNat =
      toNatLE b.toList + 256 ^ i * v.toNat := by
  have hset := toNatLE_set b.toList i v (by rwa [b.length_toList])
  rw [byteAt_eq_getD, Vector.toList_setIfInBounds]
  exact hset

/-- The little-endian bytes of an integer spell it when it fits. -/
theorem toNatLE_window_ofNatLE {n v : Nat} (h : v < 256 ^ n) :
    toNatLE (window n (ofNatLE n v)).toList = v := by
  rw [toList_window_of_length (length_ofNatLE n v), toNatLE_ofNatLE, Nat.mod_eq_of_lt h]

/-- The big-endian bytes of an integer spell it when it fits. -/
theorem toNatBE_window_ofNatBE {n v : Nat} (h : v < 256 ^ n) :
    toNatBE (window n (ofNatBE n v)).toList = v := by
  rw [toList_window_of_length (length_ofNatBE n v), toNatBE_ofNatBE, Nat.mod_eq_of_lt h]

theorem toNatLE_vector_lt {n : Nat} (b : Vector UInt8 n) : toNatLE b.toList < 256 ^ n := by
  have h := toNatLE_lt b.toList
  rwa [b.length_toList] at h

theorem toNatBE_thirtyTwo (b : Vector UInt8 32) :
    let y (i : Nat) : Nat := (byteAt b i).toNat
    toNatBE b.toList = y 31 + 256 * (y 30 + 256 * (y 29 + 256 * (y 28 + 256 * (y 27 +
      256 * (y 26 + 256 * (y 25 + 256 * (y 24 + 256 * (y 23 + 256 * (y 22 + 256 * (y 21 +
      256 * (y 20 + 256 * (y 19 + 256 * (y 18 + 256 * (y 17 + 256 * (y 16 + 256 * (y 15 +
      256 * (y 14 + 256 * (y 13 + 256 * (y 12 + 256 * (y 11 + 256 * (y 10 + 256 * (y 9 +
      256 * (y 8 + 256 * (y 7 + 256 * (y 6 + 256 * (y 5 + 256 * (y 4 + 256 * (y 3 +
      256 * (y 2 + 256 * (y 1 + 256 * y 0)))))))))))))))))))))))))))))) := by
  intro y
  rw [← toNatLE_reverse, toList_eq_map_byteAt]
  simp only [List.range, List.range.loop, List.map, List.reverse, List.reverseAux, toNatLE]
  rfl

theorem eq_of_toNatBE_eq {a b : Bytes} (hl : a.length = b.length)
    (h : toNatBE a = toNatBE b) : a = b := by
  induction a generalizing b with
  | nil => exact (List.length_eq_zero_iff.mp hl.symm).symm
  | cons x a ih =>
      obtain ⟨y, b, rfl⟩ := List.exists_cons_of_length_eq_add_one hl.symm
      have hl' : a.length = b.length := by simpa using hl
      rw [toNatBE_cons, toNatBE_cons, ← hl'] at h
      have ha := toNatBE_lt a
      have hb := toNatBE_lt b
      rw [← hl'] at hb
      have hxy : x.toNat = y.toNat := by
        rcases lt_trichotomy x.toNat y.toNat with hlt | heq | hgt
        · nlinarith
        · exact heq
        · nlinarith
      rw [UInt8.toNat_inj.mp hxy, ih hl' (by rw [hxy] at h; omega)]

/-- A byte of a big-endian string is a digit of its integer. -/
theorem toNat_byteAt {n : Nat} (b : Vector UInt8 n) {i : Nat} (hi : i < n) :
    (byteAt b i).toNat = toNatBE b.toList / 256 ^ (n - 1 - i) % 256 := by
  have hlen := b.length_toList
  have hreverse : b.toList.reverse.getD (n - 1 - i) 0 = b.toList.getD i 0 := by
    rw [List.getD_eq_getElem?_getD, List.getElem?_reverse (by omega), hlen,
      show n - 1 - (n - 1 - i) = i by omega, List.getD_eq_getElem?_getD]
  rw [byteAt_eq_getD, ← hreverse, toNat_getD, toNatLE_reverse]

theorem eq_replicate_of_toNatBE_eq_zero {b : Bytes} (h : toNatBE b = 0) :
    b = List.replicate b.length 0 := by
  apply eq_of_toNatBE_eq (by rw [List.length_replicate])
  rw [h, ← List.append_nil (List.replicate b.length 0), toNatBE_replicate_append]
  rfl

theorem eq_of_toNatLE_eq {a b : Bytes} (hl : a.length = b.length)
    (h : toNatLE a = toNatLE b) : a = b := by
  rw [← List.reverse_inj]
  apply eq_of_toNatBE_eq (by rw [List.length_reverse, List.length_reverse, hl])
  rw [← toNatLE_reverse, ← toNatLE_reverse, List.reverse_reverse, List.reverse_reverse, h]

theorem vector_eq_of_toNatLE_eq {n : Nat} {a b : Vector UInt8 n}
    (h : toNatLE a.toList = toNatLE b.toList) : a = b := by
  rw [← Vector.toList_inj]
  exact eq_of_toNatLE_eq (by rw [a.length_toList, b.length_toList]) h

end CurveKeys.Bytes
