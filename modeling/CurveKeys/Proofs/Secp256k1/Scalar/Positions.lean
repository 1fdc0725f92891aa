import CurveKeys.Proofs.CheckedWords
import CurveKeys.Proofs.Secp256k1.Scalar.Quotient

/-!
The rounded shift of a product by positions: every limb is read by its index, and a read outside the
limbs, a shift by a whole word or a sum that needs a reduction leaves no result. On scalars there
always is one, and it is the rounded quotient.
-/

namespace CurveKeys.Secp256k1

namespace Accumulator

/-- Adds the product of limb `i` of the one factor and limb `k - i` of the other. -/
def term? (a b : List UInt32) (k : Nat) (acc : Accumulator) (i : Nat) : Option Accumulator := do
  guard (i ≤ k)
  let x ← a[i]?
  let y ← b[k - i]?
  return acc.mulAdd x y

/-- Adds the products of weight `k` of two numbers of eight limbs. -/
def column? (a b : List UInt32) (k : Nat) (acc : Accumulator) : Option Accumulator :=
  (List.range' (k - 7) (min k 7 + 1 - (k - 7))).foldlM (term? a b k) acc

/-- The columns of a product from column `k` on. The last limb takes what is carried into it, and
nothing may be left above it. -/
def productFrom? (a b : List UInt32) : Nat → Nat → Accumulator → Option (List UInt32)
  | 0, _, acc => do
    guard (acc.shift = zero)
    return [acc.low]
  | n + 1, k, acc => do
    let sum ← column? a b k acc
    let rest ← productFrom? a b n (k + 1) sum.shift
    return sum.low :: rest

theorem add_zero_term (acc : Accumulator) : acc.add 0 = acc := by
  cases acc
  simp [add, wrapped]

theorem dot_nil_right (acc : Accumulator) (xs : List UInt32) : acc.dot xs [] = acc := by
  cases xs <;> rfl

theorem reverse_take_succ {b : List UInt32} {j : Nat} (hj : j < b.length) :
    (b.take (j + 1)).reverse = b[j] :: (b.take j).reverse := by
  rw [List.take_succ_eq_append_getElem hj, List.reverse_append]
  rfl

/-- The limbs read by rising and by falling index are the one list from `i` on and the other one
reversed up to `k - i`. -/
theorem foldlM_term? {a b : List UInt32} {k n i : Nat} (hn : i + n = min a.length (k + 1))
    (hb : k < i + b.length) (acc : Accumulator) :
    (List.range' i n).foldlM (term? a b k) acc =
      some (acc.dot (a.drop i) (b.take (k + 1 - i)).reverse) := by
  induction n generalizing i acc with
  | zero =>
      have hend : acc.dot (a.drop i) (b.take (k + 1 - i)).reverse = acc := by
        rcases le_total a.length (k + 1) with h | h
        · rw [List.drop_eq_nil_of_le (by omega)]
          rfl
        · rw [show k + 1 - i = 0 by omega, List.take_zero, List.reverse_nil, dot_nil_right]
      rw [hend]
      rfl
  | succ n ih =>
      have hi : i < a.length := by omega
      have hj : k - i < b.length := by omega
      have hreverse : (b.take (k + 1 - i)).reverse =
          b[k - i] :: (b.take (k + 1 - (i + 1))).reverse := by
        rw [show k + 1 - i = k - i + 1 by omega, reverse_take_succ hj, Nat.add_sub_add_right]
      have hterm : term? a b k acc i = some (acc.mulAdd a[i] b[k - i]) := by
        rw [term?, List.getElem?_eq_getElem hi, List.getElem?_eq_getElem hj]
        simp [show i ≤ k by omega]
      rw [List.range'_succ, List.foldlM_cons, Words.bind_eq_of_eq_some hterm,
        ih (by omega) (by omega), List.drop_eq_getElem_cons hi, hreverse, dot]

theorem column?_eq {a b : List UInt32} (ha : a.length = 8) (hb : b.length = 8) {k : Nat}
    (hk : k < 15) (acc : Accumulator) :
    column? a b k acc = some (acc.dot (a.drop (k - 7)) (b.take (k + 1)).reverse) := by
  refine (foldlM_term? (by omega) (by omega) acc).trans ?_
  rcases le_total k 7 with h7 | h7
  · rw [Nat.sub_eq_zero_of_le h7, Nat.sub_zero]
  · rw [List.take_of_length_le (by omega), List.take_of_length_le (by omega)]

/-- Column `k` is a dot product with the limbs up to `k`, whether there is one left to pass or
not. -/
theorem columns_succ (n : Nat) (acc : Accumulator) (a : List UInt32) {b : List UInt32}
    (hb : b.length = 8) (k : Nat) :
    columns (n + 1) acc [] (a.drop (k - 8)) (b.take k).reverse (b.drop k) =
      let sum := acc.dot (a.drop (k - 7)) (b.take (k + 1)).reverse
      let rest := columns n sum.shift [] (a.drop (k + 1 - 8)) (b.take (k + 1)).reverse
        (b.drop (k + 1))
      (sum.low :: rest.1, rest.2) := by
  have hzero : (([] : List UInt32).headD 0).toUInt64 = 0 := rfl
  rcases lt_or_ge k 8 with h8 | h8
  · have hj : k < b.length := by omega
    rw [List.drop_eq_getElem_cons hj, columns, hzero, add_zero_term, reverse_take_succ hj,
      show k - 8 = 0 by omega, show k - 7 = 0 by omega, show k + 1 - 8 = 0 by omega]
    rfl
  · have hk : b.drop k = [] := List.drop_eq_nil_of_le (by omega)
    have hk1 : b.drop (k + 1) = [] := List.drop_eq_nil_of_le (by omega)
    rw [hk, hk1, List.take_of_length_le (by omega), List.take_of_length_le (by omega), columns,
      hzero, add_zero_term, List.tail_drop, show k - 8 + 1 = k - 7 by omega,
      show k + 1 - 8 = k - 7 by omega]
    rfl

/-- The limbs read by position are those of the columns that pass one limb after the other. -/
theorem productFrom?_eq {a b : List UInt32} (ha : a.length = 8) (hb : b.length = 8) {n k : Nat}
    (hk : k + n = 15) (acc : Accumulator)
    (hrest : (columns (n + 1) acc [] (a.drop (k - 8)) (b.take k).reverse (b.drop k)).2 = zero) :
    productFrom? a b n k acc =
      some (columns (n + 1) acc [] (a.drop (k - 8)) (b.take k).reverse (b.drop k)).1 := by
  induction n generalizing k acc with
  | zero =>
      have hsum : acc.dot (a.drop (k - 7)) (b.take (k + 1)).reverse = acc := by
        rw [List.drop_eq_nil_of_le (by omega)]
        rfl
      rw [columns_succ 0 acc a hb k, hsum] at hrest ⊢
      rw [productFrom?]
      simp only [columns] at hrest ⊢
      simp [hrest]
  | succ n ih =>
      rw [columns_succ (n + 1) acc a hb k] at hrest ⊢
      have hcolumn := column?_eq ha hb (show k < 15 by omega) acc
      have hnext := ih (k := k + 1) (by omega) _ hrest
      rw [productFrom?, Words.bind_eq_of_eq_some hcolumn, Words.bind_eq_of_eq_some hnext]
      rfl

end Accumulator

namespace Scalar

/-- The product of two numbers of eight limbs: fifteen columns and the limb carried out of them. -/
def mulWide? (a b : List UInt32) : Option (List UInt32) :=
  Accumulator.productFrom? a b 15 0 .zero

/-- The amount of a shift by fewer bits than a word has. -/
def amount? (k : Nat) : Option UInt32 :=
  if k < 32 then some (UInt32.ofNat k) else none

/-- Limb `i` of a product moved down by `limbs` limbs and `low` bits; zero above the product. -/
def shiftedLimb? (product : List UInt32) (limbs low i : Nat) : Option UInt32 :=
  if limbs + i < 16 then do
    let x ← product[limbs + i]?
    let down ← amount? low
    if low ≠ 0 ∧ limbs + i + 1 < 16 then
      let y ← product[limbs + i + 1]?
      let up ← amount? (32 - low)
      return x >>> down ||| y <<< up
    else
      return x >>> down
  else
    return 0

/-- The highest bit that a shift of the product drops. -/
def roundBit? (product : List UInt32) (shift : Nat) : Option Bool := do
  let x ← product[(shift - 1) / 32]?
  let down ← amount? ((shift - 1) % 32)
  return x >>> down &&& 1 = 1

/-- The sum of two scalars if that is already below the order. -/
def addUnreduced? (a b : Scalar) : Option Scalar :=
  let (sum, carry) := Limbs.addCarry 0 a.limbs b.limbs
  if carry = 0 ∧ Limbs.compare sum orderLimbs = .lt then some (ofLimbs sum) else none

/-- The rounded shift of a product with every index, every shift amount and the rounding sum
checked. -/
def mulShift? (a b : Scalar) (shift : Nat) : Option Scalar := do
  guard (256 ≤ shift)
  let product ← mulWide? a.limbs b.limbs
  let limbs ← (List.range 8).mapM (shiftedLimb? product (shift / 32) (shift % 32))
  let round ← roundBit? product shift
  let quotient := ofLimbs limbs
  let up ← quotient.addUnreduced? one
  return if round then up else quotient

theorem mulWide?_eq {a b : List UInt32} (ha : a.length = 8) (hb : b.length = 8) :
    mulWide? a b = some (mulWide a b) :=
  Accumulator.productFrom?_eq ha hb rfl .zero (mulWide_fit ha hb).2

theorem amount?_eq {k : Nat} (h : k < 32) : amount? k = some (UInt32.ofNat k) :=
  if_pos h

theorem getElem?_of_lt {l : List UInt32} {i : Nat} (h : i < l.length) :
    l[i]? = some (l.getD i 0) := by
  rw [List.getElem?_eq_getElem h, List.getD_eq_getElem _ _ h]

theorem shiftedLimb?_eq {product : List UInt32} (hlen : product.length = 16) (limbs : Nat)
    {low : Nat} (hlow : low < 32) (i : Nat) : shiftedLimb? product limbs low i =
      some ((Limbs.shiftRight (UInt32.ofNat low) (product.drop limbs)).getD i 0) := by
  have hread (j : Nat) : (product.drop limbs).getD j 0 = product.getD (limbs + j) 0 := by
    rw [List.getD_eq_getElem?_getD, List.getElem?_drop, List.getD_eq_getElem?_getD]
  have habove {j : Nat} (h : 16 ≤ j) : product.getD j 0 = 0 :=
    List.getD_eq_default _ _ (by omega)
  rw [Limbs.getD_shiftRight, hread, hread, ← Nat.add_assoc, shiftedLimb?]
  by_cases hi : limbs + i < 16
  · have hv := getElem?_of_lt (l := product) (i := limbs + i) (by omega)
    rw [if_pos hi, Words.bind_eq_of_eq_some hv, Words.bind_eq_of_eq_some (amount?_eq hlow)]
    by_cases h0 : low = 0
    · subst h0
      simp
    · have hk : UInt32.ofNat low ≠ 0 := by
        intro h
        have hz := congrArg UInt32.toNat h
        rw [UInt32.toNat_ofNat', UInt32.toNat_zero] at hz
        omega
      rw [if_neg hk]
      by_cases hnext : limbs + i + 1 < 16
      · have hw := getElem?_of_lt (l := product) (i := limbs + i + 1) (by omega)
        have hup : amount? (32 - low) = some (32 - UInt32.ofNat low) := by
          rw [amount?_eq (by omega), UInt32.ofNat_sub (by omega)]
          rfl
        rw [if_pos ⟨h0, hnext⟩, Words.bind_eq_of_eq_some hw, Words.bind_eq_of_eq_some hup]
        rfl
      · have hzero : product.getD (limbs + i + 1) 0 = 0 := habove (by omega)
        rw [if_neg (fun h => hnext h.2), hzero, UInt32.zero_shiftLeft, UInt32.or_zero]
        rfl
  · rw [if_neg hi, habove (by omega), habove (by omega)]
    simp

theorem roundBit?_eq {product : List UInt32} (hlen : product.length = 16) {shift : Nat}
    (hlow : 0 < shift) (hhigh : shift ≤ 512) :
    roundBit? product shift = some (Limbs.bit product (shift - 1)) := by
  have hread := getElem?_of_lt (l := product) (i := (shift - 1) / 32) (by omega)
  have hdown := amount?_eq (Nat.mod_lt (shift - 1) (by decide))
  rw [roundBit?, Words.bind_eq_of_eq_some hread, Words.bind_eq_of_eq_some hdown]
  rfl

theorem addUnreduced?_eq {a b : Scalar} (h : a.toNat + b.toNat < order) :
    addUnreduced? a b = some (a.add b) := by
  obtain ⟨hlen, hsum, -⟩ := sum_spec a b
  have hn : order < 2 ^ 256 := by decide
  have hcarry : (Limbs.addCarry 0 a.limbs b.limbs).2 = 0 := by
    refine UInt64.toNat_inj.mp ?_
    rw [UInt64.toNat_zero]
    omega
  have hcompare : Limbs.compare (Limbs.addCarry 0 a.limbs b.limbs).1 orderLimbs = .lt := by
    have hge := Limbs.compare_ne_lt_iff (b := orderLimbs) hlen
    rw [toNat_orderLimbs] at hge
    by_contra hne
    have := hge.mp (bne_iff_ne.mpr hne)
    omega
  simp [addUnreduced?, add, ofOverflow, hcarry, hcompare]

theorem ofLimbs_limbs (a : Scalar) : ofLimbs a.limbs = a :=
  eq_of_toNat_eq (toNat_ofLimbs_of_lt a.toNat_lt)

theorem limbs_ofLimbs (l : List UInt32) :
    (ofLimbs l).limbs = (List.range 8).map fun i => l.getD i 0 := by
  refine List.ext_getElem (by simp [ofLimbs]) fun i h1 h2 => ?_
  rw [List.getElem_map, List.getElem_range]
  simp only [ofLimbs, List.getElem_take, List.getElem_append, List.getElem_replicate]
  split
  · next h => rw [List.getD_eq_getElem _ _ h]
  · next h => rw [List.getD_eq_default _ _ (by omega)]

/-- The eight limbs of the quotient, read one by one. -/
theorem mapM_shiftedLimb? (a b : Scalar) (shift : Nat) :
    (List.range 8).mapM (shiftedLimb? (mulWide a.limbs b.limbs) (shift / 32) (shift % 32)) =
      some (a.shifted b shift).limbs := by
  have hlimb := funext (shiftedLimb?_eq (length_mulWide a.limbs b.limbs) (shift / 32)
    (Nat.mod_lt shift (by decide)))
  rw [hlimb, shifted, limbs_ofLimbs]
  exact List.mapM_pure

theorem mulShift?_eq {a b : Scalar} {shift : Nat} (ha : a.toNat < order) (hb : b.toNat < order)
    (hlow : 256 ≤ shift) (hhigh : shift ≤ 512) :
    a.mulShift? b shift = some (a.mulShift b shift) := by
  have hup : (a.shifted b shift).toNat + one.toNat < order := by
    rw [toNat_shifted ha hb hlow hhigh]
    exact quotient_succ_lt ha hb hlow
  have hguard : guard (256 ≤ shift) = some () := if_pos hlow
  rw [mulShift?, Words.bind_eq_of_eq_some hguard,
    Words.bind_eq_of_eq_some (mulWide?_eq a.length_limbs b.length_limbs),
    Words.bind_eq_of_eq_some (mapM_shiftedLimb? a b shift),
    Words.bind_eq_of_eq_some (roundBit?_eq (length_mulWide _ _) (by omega) hhigh), ofLimbs_limbs,
    Words.bind_eq_of_eq_some (addUnreduced?_eq hup)]
  rfl

/-- Every shift from 256 to 512 bits divides the integer product and rounds to nearest. The quotient
is below the order before any reduction, and no limb is read or shifted out of range. -/
theorem mulShift_exact {a b : Scalar} (shift : Nat) (ha : a.toNat < order) (hb : b.toNat < order)
    (hlow : 256 ≤ shift) (hhigh : shift ≤ 512) :
    a.mulShift? b shift = some (a.mulShift b shift) ∧
      (a.mulShift b shift).toNat = (a.toNat * b.toNat + 2 ^ (shift - 1)) / 2 ^ shift ∧
      (a.toNat * b.toNat + 2 ^ (shift - 1)) / 2 ^ shift < order :=
  ⟨mulShift?_eq ha hb hlow hhigh, toNat_mulShift shift ha hb hlow hhigh, rounded_lt ha hb hlow⟩

/-- The largest product at both ends: 256 bits leave the order less its complement, and 512 bits
leave nothing but the rounding. -/
theorem mulShift_exact_of_minus_one :
    one.negate.toNat < order ∧
      one.negate.mulShift? one.negate 256 = some (one.negate.mulShift one.negate 256) ∧
      (one.negate.mulShift one.negate 256).toNat = order - (2 ^ 256 - order) ∧
      one.negate.mulShift? one.negate 512 = some (one.negate.mulShift one.negate 512) ∧
      (one.negate.mulShift one.negate 512).toNat = 1 := by
  have h : one.negate.toNat < order := by decide
  obtain ⟨low, vlow, -⟩ := mulShift_exact 256 h h (by decide) (by decide)
  obtain ⟨high, -, -⟩ := mulShift_exact 512 h h (by decide) (by decide)
  exact ⟨h, low, by rw [vlow]; decide, high, by decide +kernel⟩

example : one.mulShift? one 513 = none := by decide +kernel

end Scalar

end CurveKeys.Secp256k1
