import CurveKeys.Select
import CurveKeys.Proofs.Edwards25519.Scalar.Checked

/-!
Scalars are canonical. Reading bytes and the ring operations give the least residue of the exact
integer, computed without leaving a word, and no constructor or operation gives a scalar that is not
below the order.
-/

namespace CurveKeys.Edwards25519.Scalar
open Limbs

/-- Checked words compute the scalar, and its encoding is the least residue of the integer. -/
structure Computes (c : Option Scalar) (a : Scalar) (z : ℤ) : Prop where
  checked : c = some a
  residue : (a.toNat : ℤ) = z % order
  canonical : a.toNat < order

theorem computes_of_toNat_eq {c : Option Scalar} {a : Scalar} {n : Nat} (hc : c = some a)
    (h : a.toNat = n % order) : Computes c a n :=
  ⟨hc, by rw [h, Int.natCast_mod], by rw [h]; exact Nat.mod_lt _ (by decide)⟩

theorem computes_mulAdd (a b c : Scalar) :
    Computes (mulAdd? a b c) (mulAdd a b c) (a.toNat * b.toNat + c.toNat : Nat) :=
  computes_of_toNat_eq (mulAdd?_eq a b c) (toNat_mulAdd a b c)

/-- A congruent integer has the same least residue. -/
theorem Computes.of_modEq {c : Option Scalar} {a : Scalar} {z w : ℤ} (h : Computes c a z)
    (hz : z ≡ w [ZMOD order]) : Computes c a w :=
  ⟨h.checked, h.residue.trans hz, h.canonical⟩

theorem toNat_minusOne : (minusOne.toNat : ℤ) ≡ -1 [ZMOD order] := by decide +kernel

theorem computes_add (a b : Scalar) : Computes (add? a b) (add a b) (a.toNat + b.toNat) := by
  refine (computes_mulAdd a one b).of_modEq ?_
  rw [show one.toNat = 1 by decide, mul_one]
  push_cast
  rfl

theorem computes_sub (a b : Scalar) : Computes (sub? a b) (sub a b) (a.toNat - b.toNat) := by
  refine (computes_mulAdd b minusOne a).of_modEq ?_
  have h := (toNat_minusOne.mul_left b.toNat).add_right a.toNat
  push_cast
  rwa [mul_neg_one, neg_add_eq_sub] at h

theorem computes_mul (a b : Scalar) : Computes (mul? a b) (mul a b) (a.toNat * b.toNat) := by
  refine (computes_mulAdd a b zero).of_modEq ?_
  rw [show zero.toNat = 0 by decide, add_zero]
  push_cast
  rfl

theorem computes_negate (a : Scalar) : Computes (negate? a) (negate a) (-a.toNat) := by
  refine (computes_mulAdd a minusOne zero).of_modEq ?_
  have h := toNat_minusOne.mul_left a.toNat
  rw [show zero.toNat = 0 by decide, add_zero]
  push_cast
  rwa [mul_neg_one] at h

/-- The scalars that the constructors and the operations give. -/
inductive Obtained : Scalar → Prop where
  | zero : Obtained zero
  | one : Obtained one
  | minusOne : Obtained minusOne
  | ofCanonical {b : Vector UInt8 32} {s : Scalar} (h : ofCanonical b = .ok s) : Obtained s
  | ofWide (b : Vector UInt8 64) : Obtained (ofWide b)
  | ofBytes (b : Vector UInt8 32) : Obtained (ofBytes b)
  | ofClamped (b : Vector UInt8 32) : Obtained (ofClamped b)
  | ofUInt64 (v : UInt64) : Obtained (ofUInt64 v)
  | random {tape rest : Bytes} {s : Scalar} (h : random? tape = some (s, rest)) : Obtained s
  | mulAdd {a b c : Scalar} (ha : Obtained a) (hb : Obtained b) (hc : Obtained c) :
      Obtained (a.mulAdd b c)
  | add {a b : Scalar} (ha : Obtained a) (hb : Obtained b) : Obtained (a.add b)
  | sub {a b : Scalar} (ha : Obtained a) (hb : Obtained b) : Obtained (a.sub b)
  | mul {a b : Scalar} (ha : Obtained a) (hb : Obtained b) : Obtained (a.mul b)
  | negate {a : Scalar} (ha : Obtained a) : Obtained a.negate
  | select {a b : Scalar} (ha : Obtained a) (hb : Obtained b) (flag : Bool) :
      Obtained (select a b flag)

theorem ofBytes_lt (b : Vector UInt8 32) : (ofBytes b).toNat < order := by
  rw [toNat_ofBytes]
  exact Nat.mod_lt _ (by decide)

theorem ofWide_lt (b : Vector UInt8 64) : (ofWide b).toNat < order := by
  rw [toNat_ofWide]
  exact Nat.mod_lt _ (by decide)

theorem ofUInt64_lt (v : UInt64) : (ofUInt64 v).toNat < order := by
  have hv : v.toNat < 2 ^ 64 := v.toNat_lt
  have hroom : 2 ^ 64 < 256 ^ 32 := by decide
  have horder : 2 ^ 64 < order := by decide
  rw [ofUInt64, toNat, Bytes.toNatLE_window_ofNatLE (hv.trans hroom)]
  exact hv.trans horder

/-- Every scalar there is has a canonical encoding. -/
theorem Obtained.lt_order {s : Scalar} (h : s.Obtained) : s.toNat < order := by
  induction h with
  | zero | one | minusOne => decide +kernel
  | @ofCanonical b s h =>
      rw [ofCanonical_eq] at h
      split at h
      · next hlt =>
          obtain rfl := Except.ok.inj h
          exact hlt
      · exact nomatch h
  | ofWide b => exact ofWide_lt b
  | ofBytes b => exact ofBytes_lt b
  | ofClamped b => exact ofBytes_lt (clamp b)
  | ofUInt64 v => exact ofUInt64_lt v
  | random h =>
      obtain ⟨b, -, hb⟩ := Option.map_eq_some_iff.mp h
      obtain ⟨rfl, -⟩ := Prod.mk.inj hb
      exact ofWide_lt b
  | @mulAdd a b c _ _ _ _ _ _ => exact (computes_mulAdd a b c).canonical
  | @add a b _ _ _ _ => exact (computes_add a b).canonical
  | @sub a b _ _ _ _ => exact (computes_sub a b).canonical
  | @mul a b _ _ _ _ => exact (computes_mul a b).canonical
  | @negate a _ _ => exact (computes_negate a).canonical
  | select _ _ flag ha hb =>
      cases flag with
      | false => exact ha
      | true => exact hb

/-- Reading bytes and the operations give the least residue of the exact integer. No signed word
overflows on the way, and only digits of 21 bits, the last one with a bit more, are packed. An
encoding is accepted exactly when it is below the order, and all scalars are. -/
theorem reduction_exact (a b c : Scalar) (wide : Vector UInt8 64) (bytes : Vector UInt8 32) :
    Computes (ofWide? wide) (ofWide wide) (Bytes.toNatLE wide.toList) ∧
      Computes (ofBytes? bytes) (ofBytes bytes) (Bytes.toNatLE bytes.toList) ∧
      Computes (mulAdd? a b c) (mulAdd a b c) (a.toNat * b.toNat + c.toNat) ∧
      Computes (add? a b) (add a b) (a.toNat + b.toNat) ∧
      Computes (sub? a b) (sub a b) (a.toNat - b.toNat) ∧
      Computes (mul? a b) (mul a b) (a.toNat * b.toNat) ∧
      Computes (negate? a) (negate a) (-a.toNat) ∧
      ofCanonical bytes = (if Bytes.toNatLE bytes.toList < order then .ok ⟨bytes⟩
        else .error .nonCanonicalScalar) ∧
      ∀ s : Scalar, s.Obtained → s.toNat < order := by
  have hsum := computes_mulAdd a b c
  push_cast at hsum
  exact ⟨computes_of_toNat_eq (ofWide?_eq wide) (toNat_ofWide wide),
    computes_of_toNat_eq (ofBytes?_eq bytes) (toNat_ofBytes bytes), hsum, computes_add a b,
    computes_sub a b, computes_mul a b, computes_negate a, ofCanonical_eq bytes,
    fun s h => h.lt_order⟩

/-- The largest integers at every place. The last limb of the greatest scalar has the bit more that
packing allows for. -/
theorem reduction_exact_of_greatest :
    let ones : Vector UInt8 64 := .replicate 64 0xFF
    let a := minusOne
    Computes (ofWide? ones) (ofWide ones) (2 ^ 512 - 1) ∧
      Computes (mulAdd? a a a) (mulAdd a a a) 0 ∧
      Computes (ofBytes? a.bytes) (ofBytes a.bytes) (order - 1) ∧
      ((run reduceSteps (load 24 (a.bytes.toList ++ List.replicate 32 0))).getD 11 0).toInt =
        2 ^ 21 ∧
      (mulAdd a a a).Obtained ∧ (mulAdd a a a).toNat < order := by
  intro ones a
  obtain ⟨hwide, hread, hsum, -, -, -, -, -, hall⟩ := reduction_exact a a a ones a.bytes
  have hobtained : (mulAdd a a a).Obtained := .mulAdd .minusOne .minusOne .minusOne
  exact ⟨hwide.of_modEq (by decide +kernel), hsum.of_modEq (by decide +kernel),
    hread.of_modEq (by decide +kernel), by decide +kernel, hobtained, hall _ hobtained⟩

end CurveKeys.Edwards25519.Scalar
