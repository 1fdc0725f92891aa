import Mathlib
import CurveKeys.Secp256k1.Field.Basic
import CurveKeys.Secp256k1.Scalar.Basic

/-!
Primality by chains of Lucas tests. A number passes with a base whose order is the number less one;
the factors of that order are small primes or numbers that passed earlier in the chain. Two chains
end in the modulus of the field and in the order of the group.
-/

namespace CurveKeys.Primality

/-- The power `a ^ n` modulo `m`, for an exponent of at most `bits` bits. -/
def powMod (m : Nat) : Nat → Nat → Nat → Nat
  | 0, _, _ => 1
  | bits + 1, a, n =>
    let rest := powMod m bits (a * a % m) (n / 2)
    if n % 2 = 0 then rest else a * rest % m

theorem powMod_modEq (m bits a n : Nat) (h : n < 2 ^ bits) :
    powMod m bits a n ≡ a ^ n [MOD m] := by
  induction bits generalizing a n with
  | zero =>
      have hn : n = 0 := by simpa using h
      subst hn
      rfl
  | succ bits ih =>
      have hrest := ih (a * a % m) (n / 2) (by rw [pow_succ] at h; omega)
      have hsq : (a * a % m) ^ (n / 2) ≡ a ^ (2 * (n / 2)) [MOD m] := by
        rw [pow_mul, pow_two]
        exact (Nat.mod_modEq (a * a) m).pow _
      rw [powMod]
      split
      · next he =>
          have hn : 2 * (n / 2) = n := by omega
          rw [hn] at hsq
          exact hrest.trans hsq
      · next ho =>
          have hn : n = 1 + 2 * (n / 2) := by omega
          refine (Nat.mod_modEq _ m).trans ?_
          conv_rhs => rw [hn, pow_add, pow_one]
          exact (hrest.trans hsq).mul_left a

/-- A number with a base and the prime factors of the number less one. -/
structure Step where
  number : Nat
  base : Nat
  factors : List Nat

/-- Lucas's test, the factors taken from those known to be prime. -/
def Step.passes (bits : Nat) (known : List Nat) (s : Step) : Bool :=
  1 < s.number && s.number < 2 ^ bits && s.factors.prod == s.number - 1 &&
    s.factors.all (· ∈ known) && powMod s.number bits s.base (s.number - 1) == 1 &&
    s.factors.all fun q => powMod s.number bits s.base ((s.number - 1) / q) % s.number != 1

/-- Every step passes with the numbers before it. -/
def chainPasses (bits : Nat) : List Nat → List Step → Bool
  | _, [] => true
  | known, s :: r => s.passes bits known && chainPasses bits (s.number :: known) r

theorem cast_pow_eq_one_iff {m bits n : Nat} (hm : 1 < m) (a : Nat) (hn : n < 2 ^ bits) :
    (a : ZMod m) ^ n = 1 ↔ powMod m bits a n % m = 1 := by
  have h := powMod_modEq m bits a n hn
  have hone : 1 % m = 1 := Nat.mod_eq_of_lt hm
  rw [← Nat.cast_pow, ← Nat.cast_one, ZMod.natCast_eq_natCast_iff]
  exact ⟨fun e => Eq.trans (h.trans e) hone, fun e => h.symm.trans (Eq.trans e hone.symm)⟩

theorem prime_of_passes {bits : Nat} {known : List Nat} {s : Step}
    (hk : ∀ q ∈ known, q.Prime) (h : s.passes bits known = true) : s.number.Prime := by
  simp only [Step.passes, Bool.and_eq_true, decide_eq_true_eq, beq_iff_eq, List.all_eq_true,
    bne_iff_ne] at h
  obtain ⟨⟨⟨⟨⟨hone, hbits⟩, hprod⟩, hknown⟩, hfull⟩, hpart⟩ := h
  refine lucas_primality s.number (s.base : ZMod s.number) ?_ ?_
  · rw [cast_pow_eq_one_iff hone s.base (lt_of_le_of_lt (Nat.sub_le _ _) hbits), hfull]
    exact Nat.mod_eq_of_lt hone
  · intro q hq hdvd
    rw [← hprod, Prime.dvd_prod_iff hq.prime] at hdvd
    obtain ⟨r, hr, hqr⟩ := hdvd
    obtain rfl := (Nat.prime_dvd_prime_iff_eq hq (hk r (hknown r hr))).mp hqr
    have hlt := lt_of_le_of_lt (le_trans (Nat.div_le_self _ q) (Nat.sub_le s.number 1)) hbits
    rw [Ne, cast_pow_eq_one_iff hone s.base hlt]
    exact hpart q hr

theorem prime_of_chainPasses {bits : Nat} {known : List Nat} {steps : List Step}
    (hk : ∀ q ∈ known, q.Prime) (h : chainPasses bits known steps = true) :
    ∀ s ∈ steps, s.number.Prime := by
  induction steps generalizing known with
  | nil => exact List.forall_mem_nil _
  | cons s r ih =>
      rw [chainPasses, Bool.and_eq_true] at h
      have hs := prime_of_passes hk h.1
      exact List.forall_mem_cons.mpr ⟨hs, ih (List.forall_mem_cons.mpr ⟨hs, hk⟩) h.2⟩

/-- The factors that are small enough to be tried by division. -/
def smallPrimes : List Nat :=
  [2, 3, 5, 7, 11, 13, 17, 19, 23, 29, 31, 41, 53, 59, 73, 97, 109, 149, 293, 461, 631, 797, 971,
    1373, 1627, 1871, 2011, 2621, 2657, 2731, 2861, 4051, 4423, 5323, 7723, 9349, 13441, 16699,
    20113, 24809, 28181, 41201, 85831, 96557, 120233]

theorem prime_of_mem_smallPrimes : ∀ q ∈ smallPrimes, q.Prime := by
  simp only [smallPrimes, List.forall_mem_cons]
  norm_num

/-- A chain for the modulus of the field. -/
def fieldChain : List Step :=
  [⟨13331831, 13, [2, 5, 971, 1373]⟩,
    ⟨173378833005251801, 6, [2, 2, 2, 5, 5, 2621, 24809, 13331831]⟩,
    ⟨22149492674086928081353, 5, [2, 2, 2, 3, 5323, 173378833005251801]⟩,
    ⟨132896956044521568488119, 6, [2, 3, 22149492674086928081353]⟩,
    ⟨1206781, 10, [2, 2, 3, 5, 20113]⟩,
    ⟨7240687, 3, [2, 3, 1206781]⟩,
    ⟨107590001, 3, [2, 2, 2, 2, 5, 5, 5, 5, 7, 29, 53]⟩,
    ⟨255515944373312847190720520512484175977, 3,
      [2, 2, 2, 7, 7, 11, 1627, 2657, 4423, 41201, 96557, 7240687, 107590001]⟩,
    ⟨205115282021455665897114700593932402728804164701536103180137503955397371, 10,
      [2, 3, 5, 29, 29, 31, 7723, 132896956044521568488119,
        255515944373312847190720520512484175977]⟩,
    ⟨Secp256k1.FieldElement.prime, 3,
      [2, 3, 7, 13441, 205115282021455665897114700593932402728804164701536103180137503955397371]⟩]

/-- A chain for the order of the group. -/
def orderChain : List Step :=
  [⟨4681609, 23, [2, 2, 2, 3, 97, 2011]⟩,
    ⟨107361793816595537, 3, [2, 2, 2, 2, 16699, 85831, 4681609]⟩,
    ⟨44706919, 6, [2, 3, 797, 9349]⟩,
    ⟨174723607534414371449, 3, [2, 2, 2, 17, 59, 4051, 120233, 44706919]⟩,
    ⟨305873, 3, [2, 2, 2, 2, 7, 2731]⟩,
    ⟨545358713, 5, [2, 2, 2, 41, 59, 28181]⟩,
    ⟨1627771, 3, [2, 3, 5, 29, 1871]⟩,
    ⟨297159362677, 2, [2, 2, 3, 3, 11, 461, 1627771]⟩,
    ⟨29047611873442575647497758179, 2, [2, 293, 305873, 545358713, 297159362677]⟩,
    ⟨341948486974166000522343609283189, 2, [2, 2, 3, 3, 3, 109, 29047611873442575647497758179]⟩,
    ⟨Secp256k1.Scalar.order, 7,
      [2, 2, 2, 2, 2, 2, 3, 149, 631, 107361793816595537, 174723607534414371449,
        341948486974166000522343609283189]⟩]

theorem fieldChain_passes : chainPasses 256 smallPrimes fieldChain = true := by decide +kernel

theorem orderChain_passes : chainPasses 256 smallPrimes orderChain = true := by decide +kernel

end CurveKeys.Primality

namespace CurveKeys.Secp256k1

theorem prime_prime : FieldElement.prime.Prime :=
  Primality.prime_of_chainPasses Primality.prime_of_mem_smallPrimes Primality.fieldChain_passes
    _ (List.getLast_mem (l := Primality.fieldChain) (List.cons_ne_nil _ _))

theorem order_prime : Scalar.order.Prime :=
  Primality.prime_of_chainPasses Primality.prime_of_mem_smallPrimes Primality.orderChain_passes
    _ (List.getLast_mem (l := Primality.orderChain) (List.cons_ne_nil _ _))

instance : Fact FieldElement.prime.Prime := ⟨prime_prime⟩

instance : Fact Scalar.order.Prime := ⟨order_prime⟩

end CurveKeys.Secp256k1
