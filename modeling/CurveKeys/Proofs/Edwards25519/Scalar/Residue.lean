import CurveKeys.Proofs.Edwards25519.Scalar.Reduction
import CurveKeys.Edwards25519.Scalar.Basic

/-!
Scalars as residues. Every operation leaves the least residue of the integer it stands for, and an
encoding is accepted exactly when its integer is below the order.
-/

namespace CurveKeys.Edwards25519

namespace Limbs

/-- Intervals for the columns of a product, added to given ones. -/
def addProduct? : Box → Box → Box → Option Box
  | X :: Xs, B, S =>
    match addScaled? X B S with
    | some (L :: R) => (addProduct? Xs B R).map (L :: ·)
    | _ => none
  | [], _, S => some S

theorem addProduct_sound {A B S R : Box} {a b s : List Int64} (ha : Within A a) (hb : Within B b)
    (hs : Within S s) (h : addProduct? A B S = some R) :
    Within R (addProduct a b s) ∧ toInt (addProduct a b s) = toInt s + toInt a * toInt b := by
  induction ha generalizing S s R with
  | nil =>
      obtain rfl := Option.some.inj h
      exact ⟨hs, by rw [addProduct, toInt, zero_mul, add_zero]⟩
  | @cons X x Xs xs hx _ ih =>
      rw [addProduct?] at h
      split at h
      · next L R' hadd =>
          obtain ⟨T, hT, rfl⟩ := Option.map_eq_some_iff.mp h
          obtain ⟨hw, hval⟩ := addScaled_sound hx hb hs hadd
          rw [addProduct]
          generalize addScaled x b s = sum at hw hval ⊢
          cases hw with
          | cons hl hr =>
              obtain ⟨hw', hval'⟩ := ih hr hT
              refine ⟨.cons hl hw', ?_⟩
              rw [toInt] at hval
              rw [toInt, toInt, hval']
              linear_combination hval
      · cases h

/-- Intervals for the limbs of a product and a sum after the carries. -/
def product? (A : Box) : Option Box :=
  (addProduct? A A (A ++ nothing 12)).bind (run? productSteps)

theorem settle_wide : run? settleSteps (digits 23 29) = some lowBox := by decide +kernel

theorem settle_product : (product? (digits 11 25)).bind (run? settleSteps) = some lowBox := by
  decide +kernel

theorem within_nothing (n : Nat) : Within (nothing n) (List.replicate n 0) := by
  induction n with
  | zero => exact .nil
  | succ n ih => exact .cons ⟨le_refl _, le_refl _⟩ ih

end Limbs

namespace Scalar
open Limbs

/-- The least residue of an integer of 64 bytes. -/
theorem toNat_reduce_load {b : Bytes} (hb : Bytes.toNatLE b < 256 ^ 64) :
    (⟨Limbs.reduce (Limbs.load 24 b)⟩ : Scalar).toNat = Bytes.toNatLE b % order := by
  have hbits : (256 : Nat) ^ 64 = 2 ^ (21 * 23 + (32 - 21 * 23 % 8)) := by
    rw [show (256 : Nat) = 2 ^ 8 from rfl, ← pow_mul]
  have h := toNatLE_reduce settle_wide (within_load 23 b)
  rw [toInt_load 23 b (lt_of_lt_of_eq hb hbits)] at h
  exact_mod_cast h

theorem toNat_ofWide (b : Vector UInt8 64) :
    (ofWide b).toNat = Bytes.toNatLE b.toList % order :=
  toNat_reduce_load (Bytes.toNatLE_vector_lt b)

theorem toNatLE_zeros (n : Nat) : Bytes.toNatLE (List.replicate n 0) = 0 := by
  induction n with
  | zero => rfl
  | succ n ih =>
      rw [List.replicate_succ, Bytes.toNatLE, ih]
      rfl

theorem toNat_ofBytes (b : Vector UInt8 32) :
    (ofBytes b).toNat = Bytes.toNatLE b.toList % order := by
  have hvalue : Bytes.toNatLE (b.toList ++ List.replicate 32 0) = Bytes.toNatLE b.toList := by
    rw [Bytes.toNatLE_append, toNatLE_zeros, mul_zero, add_zero]
  have hlt : Bytes.toNatLE b.toList < 256 ^ 64 :=
    lt_of_lt_of_le (Bytes.toNatLE_vector_lt b) (Nat.pow_le_pow_right (by decide) (by decide))
  rw [ofBytes, toNat_reduce_load (lt_of_eq_of_lt hvalue hlt), hvalue]

/-- A product and a sum of any three integers of 32 bytes. -/
theorem toNat_mulAdd (a b c : Scalar) :
    (mulAdd a b c).toNat = (a.toNat * b.toNat + c.toNat) % order := by
  have within (s : Scalar) := within_load 11 s.bytes.toList
  have value (s : Scalar) : toInt (load 12 s.bytes.toList) = s.toNat :=
    toInt_load 11 _ (lt_of_lt_of_eq (Bytes.toNatLE_vector_lt s.bytes) (by decide))
  obtain ⟨box, hbox, hsettle⟩ := Option.bind_eq_some_iff.mp settle_product
  obtain ⟨sum, hsum, hcarry⟩ := Option.bind_eq_some_iff.mp hbox
  obtain ⟨hw, hval⟩ := addProduct_sound (within a) (within b)
    (within_append (within c) (within_nothing 12)) hsum
  obtain ⟨hw', hmod⟩ := run_sound hcarry hw
  have h := toNatLE_reduce hsettle hw'
  have hzeros : toInt (List.replicate 12 0) = 0 := toInt_nothing (within_nothing 12)
  have hresidue : toInt (run productSteps (addProduct (load 12 a.bytes.toList)
      (load 12 b.bytes.toList) (load 12 c.bytes.toList ++ List.replicate 12 0))) % order =
        ((a.toNat * b.toNat + c.toNat : Nat) : Int) % order := by
    rw [hmod, hval, toInt_append, hzeros, mul_zero, add_zero, value, value, value]
    push_cast
    ring_nf
  rw [hresidue] at h
  exact_mod_cast h

/-- The borrow of one byte. -/
theorem borrow_step (x y : UInt8) {c : UInt16} (hc : c.toNat ≤ 1) :
    ((x.toUInt16 - y.toUInt16 - c) >>> 15).toNat =
      if x.toNat < y.toNat + c.toNat then 1 else 0 := by
  have hx := x.toNat_lt
  have hy := y.toNat_lt
  have hshift : ((x.toUInt16 - y.toUInt16 - c) >>> 15).toNat =
      (x.toUInt16 - y.toUInt16 - c).toNat / 2 ^ 15 := by
    rw [UInt16.toNat_shiftRight]
    exact Nat.shiftRight_eq_div_pow _ 15
  rw [hshift, UInt16.toNat_sub, UInt16.toNat_sub, UInt8.toNat_toUInt16, UInt8.toNat_toUInt16]
  split <;> omega

theorem toNat_borrowOut {a b : Bytes} (hlen : a.length = b.length) {c : UInt16}
    (hc : c.toNat ≤ 1) :
    (borrowOut c a b).toNat = if Bytes.toNatLE a < Bytes.toNatLE b + c.toNat then 1 else 0 := by
  induction a generalizing b c with
  | nil =>
      cases b with
      | nil =>
          rw [borrowOut, Bytes.toNatLE]
          · split <;> omega
          · intro x xs y ys h
            cases h
      | cons y b => cases hlen
  | cons x a ih =>
      cases b with
      | nil => cases hlen
      | cons y b =>
          have hx := x.toNat_lt
          have hy := y.toNat_lt
          have hstep := borrow_step x y hc
          have hle : ((x.toUInt16 - y.toUInt16 - c) >>> 15).toNat ≤ 1 := by
            rw [hstep]
            split <;> decide
          rw [borrowOut, ih (Nat.succ.inj hlen) hle, hstep, Bytes.toNatLE, Bytes.toNatLE]
          congr 1
          split <;> exact propext ⟨fun h => by omega, fun h => by omega⟩

/-- The borrow out of the top byte is set exactly below the order. -/
theorem isBelowOrder_iff (b : Vector UInt8 32) :
    isBelowOrder b = true ↔ Bytes.toNatLE b.toList < order := by
  have hvalue : Bytes.toNatLE orderBytes = order := by decide +kernel
  have h := toNat_borrowOut (a := b.toList) (b := orderBytes) (c := 0)
    (by rw [b.length_toList]; rfl) (by decide)
  rw [hvalue, show (0 : UInt16).toNat = 0 from rfl, Nat.add_zero] at h
  rw [isBelowOrder, bne_iff_ne, Ne, ← UInt16.toNat_inj, h]
  split
  · next hlt => exact ⟨fun _ => hlt, fun _ => Nat.one_ne_zero⟩
  · next hge => exact ⟨fun hne => absurd rfl hne, fun hlt => absurd hlt hge⟩

theorem ofCanonical_eq (b : Vector UInt8 32) :
    ofCanonical b =
      if Bytes.toNatLE b.toList < order then .ok ⟨b⟩ else .error .nonCanonicalScalar := by
  rw [ofCanonical]
  exact if_congr (isBelowOrder_iff b) rfl rfl

end Scalar

end CurveKeys.Edwards25519
