import CurveKeys.Edwards25519.Point.Table
import CurveKeys.Proofs.Edwards25519.Digits
import CurveKeys.Proofs.Recentring
import CurveKeys.Proofs.Secp256k1.Digits
import CurveKeys.Proofs.Selection

/-!
The two recodings in signed base 16, one of scalars below `2 ^ 128` with the last carry as a digit of
its own, the other of scalars below the order with a last digit that takes the carry. In checked
signed bytes both have a result, and every digit of it has an entry in a table of eight multiples.
-/

namespace CurveKeys

namespace Digits

/-- `n` recentred digits and a last one, which spell an integer. -/
structure IsSignedRadix16 (n : Nat) (digits : List Int8) (value : Nat) : Prop where
  length : digits.length = n + 1
  centred : ∀ d ∈ digits.take n, Centred d
  value_eq : Digits.value 16 (digits.map Int8.toInt) = value

end Digits

namespace Secp256k1
open Digits (recentre? spread? recentre?_eq spread?_eq IsSignedRadix16)

/-- The digits of the lower sixteen bytes, read from the end; the upper ones may hold nothing. -/
def signedRadix16Half? (k : Scalar) : Option (List Int8) := do
  let bytes := k.toBytes.toList
  guard (∀ x ∈ bytes.take 16, x = 0)
  let digits ← spread? (fun i => if i ≤ 31 then bytes[31 - i]? else none) 16
  recentre? 32 (digits ++ [0])

theorem signedRadix16Half?_eq {k : Scalar} (h : k.toNat < 2 ^ 128) :
    signedRadix16Half? k = some (signedRadix16Half k) := by
  have hlen := k.toBytes.length_toList
  have hguard : guard (∀ x ∈ k.toBytes.toList.take 16, x = 0) = some () := by
    refine if_pos fun x hx => ?_
    rw [Bytes.eq_replicate_of_toNatBE_eq_zero (toNatBE_high_bytes h)] at hx
    exact List.eq_of_mem_replicate hx
  have hlow : (k.toBytes.toList.drop 16).reverse.length = 16 := by
    rw [List.length_reverse, List.length_drop, hlen]
  have hspread := spread?_eq (b := (k.toBytes.toList.drop 16).reverse)
    (fun i => if i ≤ 31 then k.toBytes.toList[31 - i]? else none) fun i hi => by
      rw [hlow] at hi
      rw [if_pos (by omega), List.getElem?_reverse (by rw [List.length_drop, hlen]; omega),
        List.getElem?_drop, List.length_drop, hlen]
      congr 1
      omega
  rw [hlow] at hspread
  have hnibble (d : Int8) (hd : d ∈ Digits.nibbles (k.toBytes.toList.drop 16).reverse) :
      Digits.Nibble d := Digits.nibble_of_mem_nibbles hd
  have htop : Digits.Nibble 0 := ⟨le_rfl, by decide⟩
  have hrecentre := recentre?_eq hnibble htop
  rw [Digits.length_nibbles, hlow, Int8.zero_add] at hrecentre
  rw [signedRadix16Half?, Words.bind_eq_of_eq_some hguard, Words.bind_eq_of_eq_some hspread,
    hrecentre, signedRadix16Half]

theorem isSignedRadix16_half {k : Scalar} (h : k.toNat < 2 ^ 128) :
    IsSignedRadix16 32 (signedRadix16Half k) k.toNat ∧
      ∀ d ∈ (signedRadix16Half k).drop 32, d.toInt = 0 ∨ d.toInt = 1 := by
  obtain ⟨hcentred, hcarry, -⟩ :=
    Digits.recentre_spec (c := 0) (l := Digits.nibbles (k.toBytes.toList.drop 16).reverse)
      (.inl rfl) fun d hd => Digits.nibble_of_mem_nibbles hd
  have hlen : (Digits.recentre 0 (Digits.nibbles (k.toBytes.toList.drop 16).reverse)).1.length =
      32 := by
    rw [Digits.length_recentre, Digits.length_nibbles, List.length_reverse, List.length_drop,
      k.toBytes.length_toList]
  refine ⟨⟨length_signedRadix16Half k, ?_, (signedRadix16Half_spec h).2⟩, ?_⟩
  · rwa [signedRadix16Half, List.take_left' hlen]
  · rw [signedRadix16Half, List.drop_left' hlen]
    intro d hd
    rw [List.mem_singleton.mp hd]
    exact hcarry

end Secp256k1

namespace Edwards25519
open Edwards25519.Digits (signedRadix16 signedRadix16_spec signedRadix16_eq length_signedRadix16)

/-- The digits of all bytes, read from the front. -/
def signedRadix16? (s : Scalar) : Option (List Int8) := do
  let digits ← CurveKeys.Digits.spread? (fun i => s.bytes.toList[i]?) 32
  CurveKeys.Digits.recentre? 63 digits

/-- Both forms of the recoding of a scalar that leaves the highest bit of its bytes free. -/
theorem signedRadix16?_eq {s : Scalar} (h : s.toNat < 2 ^ 255) :
    signedRadix16? s = some (signedRadix16 s) ∧
      CurveKeys.Digits.IsSignedRadix16 63 (signedRadix16 s) s.toNat := by
  have hlen := s.bytes.length_toList
  obtain ⟨low, top, hsplit, hlow, hnibble, htop0, htop7⟩ := Digits.nibbles_split hlen h
  obtain ⟨hcentred, -, -⟩ := CurveKeys.Digits.recentre_spec (c := 0) (.inl rfl) hnibble
  have hspread := CurveKeys.Digits.spread?_eq (b := s.bytes.toList)
    (fun i => s.bytes.toList[i]?) fun _ _ => rfl
  have htop : CurveKeys.Digits.Nibble top := ⟨htop0, by omega⟩
  have hrecentre := CurveKeys.Digits.recentre?_eq hnibble htop
  rw [hlen, hsplit] at hspread
  rw [hlow] at hrecentre
  refine ⟨?_, length_signedRadix16 s, ?_, (signedRadix16_spec h).2⟩
  · rw [signedRadix16?, Words.bind_eq_of_eq_some hspread, hrecentre, signedRadix16_eq hsplit hlow]
  · rwa [signedRadix16_eq hsplit hlow,
      List.take_left' ((CurveKeys.Digits.length_recentre 0 low).trans hlow)]

end Edwards25519

/-- For every scalar that they are meant for, both recodings come to a result in checked signed
bytes: recentred digits and a last one that spell the scalar. The last digit is zero or one for half
a scalar and at most 8 for a whole one, and the choice from a table of eight multiples has an entry
for each digit. -/
theorem signed_radix16_exact :
    (∀ k : Secp256k1.Scalar, k.toNat < 2 ^ 128 →
      ∃ digits, Secp256k1.signedRadix16Half? k = some digits ∧
        Secp256k1.signedRadix16Half k = digits ∧ Digits.IsSignedRadix16 32 digits k.toNat ∧
        (∀ d ∈ digits.drop 32, d.toInt = 0 ∨ d.toInt = 1) ∧
        ∀ table : List Secp256k1.JacobianPoint, table.length = 8 → ∀ d ∈ digits,
          Selection.Serves .identity .negate table d (Secp256k1.JacobianPoint.lookup table d)) ∧
    ∀ s : Edwards25519.Scalar, s.toNat < Edwards25519.Limbs.order →
      ∃ digits, Edwards25519.signedRadix16? s = some digits ∧
        Edwards25519.Digits.signedRadix16 s = digits ∧ Digits.IsSignedRadix16 63 digits s.toNat ∧
        (∀ d ∈ digits, -8 ≤ d.toInt ∧ d.toInt ≤ 8) ∧
        (∀ table : List Edwards25519.PreparedPoint, table.length = 8 → ∀ d ∈ digits,
          Selection.Serves .identity .negate table d
            (Edwards25519.PreparedPoint.lookup table d)) ∧
        ∀ table : List Edwards25519.PreparedAffine, table.length = 8 → ∀ d ∈ digits,
          Selection.Serves .identity .negate table d
            (Edwards25519.PreparedAffine.lookup table d) := by
  constructor
  · intro k hk
    obtain ⟨hform, hlast⟩ := Secp256k1.isSignedRadix16_half hk
    refine ⟨_, Secp256k1.signedRadix16Half?_eq hk, rfl, hform, hlast, fun table htable d hd => ?_⟩
    obtain ⟨hlow, hhigh⟩ := (Secp256k1.signedRadix16Half_spec hk).1 d hd
    exact Selection.serves_of_le htable (by omega) rfl
  · intro s hs
    have hs : s.toNat < 2 ^ 255 := hs.trans (by decide)
    obtain ⟨hchecked, hform⟩ := Edwards25519.signedRadix16?_eq hs
    have hsmall (d : Int8) (hd : d ∈ Edwards25519.Digits.signedRadix16 s) : d.toInt.natAbs ≤ 8 :=
      (Edwards25519.Digits.signedRadix16_spec hs).1 d hd
    refine ⟨_, hchecked, rfl, hform, fun d hd => ?_, fun table htable d hd => ?_,
      fun table htable d hd => ?_⟩
    · have := hsmall d hd
      omega
    · exact Selection.serves_of_le htable (hsmall d hd) rfl
    · exact Selection.serves_of_le htable (hsmall d hd) rfl

/-- The greatest scalars that the recodings are meant for. In the one the carry runs from the first
digit to the last, and the first digit takes the opposite of the first entry. -/
theorem signed_radix16_of_greatest :
    let k : Secp256k1.Scalar :=
      ⟨[0xFFFFFFFF, 0xFFFFFFFF, 0xFFFFFFFF, 0xFFFFFFFF, 0, 0, 0, 0], rfl⟩
    let s := Edwards25519.Scalar.minusOne
    let table := Secp256k1.JacobianPoint.table .generator
    k.toNat < 2 ^ 128 ∧ s.toNat < Edwards25519.Limbs.order ∧ table.length = 8 ∧
      (∃ digits, Secp256k1.signedRadix16Half? k = some digits ∧
        digits = -1 :: List.replicate 31 0 ++ [1] ∧
        Digits.IsSignedRadix16 32 digits (2 ^ 128 - 1) ∧
        Selection.Serves .identity .negate table (-1)
          (Secp256k1.JacobianPoint.lookup table (-1))) ∧
      ∃ digits, Edwards25519.signedRadix16? s = some digits ∧ digits.getD 63 0 = 1 ∧
        Digits.IsSignedRadix16 63 digits (Edwards25519.Limbs.order - 1) := by
  intro k s table
  have hk : k.toNat < 2 ^ 128 := by decide
  have hs : s.toNat < Edwards25519.Limbs.order := by decide +kernel
  have hks : k.toNat = 2 ^ 128 - 1 := by decide
  have hss : s.toNat = Edwards25519.Limbs.order - 1 := by decide +kernel
  obtain ⟨digits, hhalf?, hhalf, hform, -, hserves⟩ := signed_radix16_exact.1 k hk
  obtain ⟨digits', hwhole?, hwhole, hform', -, -, -⟩ := signed_radix16_exact.2 s hs
  have hdigits : digits = -1 :: List.replicate 31 0 ++ [1] := hhalf ▸ by decide +kernel
  have htop : digits'.getD 63 0 = 1 := hwhole ▸ by decide +kernel
  rw [hks] at hform
  rw [hss] at hform'
  exact ⟨hk, hs, rfl, ⟨digits, hhalf?, hdigits, hform,
    hserves table rfl (-1) (hdigits ▸ List.mem_cons_self)⟩, digits', hwhole?, htop, hform'⟩

end CurveKeys
