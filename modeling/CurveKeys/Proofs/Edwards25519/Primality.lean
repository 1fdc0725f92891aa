import CurveKeys.Proofs.Primality
import CurveKeys.Edwards25519.Field.Basic
import CurveKeys.Edwards25519.Scalar.Limbs

/-!
The modulus of the field and the order of the base point are prime.
-/

namespace CurveKeys.Edwards25519
open FieldElement (prime)
open Limbs (order)

/-- The factors of both chains that are small enough to be tried by division. -/
def smallFactors : List Nat :=
  [2, 3, 5, 7, 11, 13, 19, 23, 31, 41, 43, 47, 73, 97, 103, 107, 127, 223, 269, 307, 353, 419, 991,
    1361, 1723, 2437, 2551, 2851, 3727, 3797, 4153, 5879, 30703, 34123, 57467, 65147, 75707, 82163,
    132049, 132667, 137849]

theorem prime_of_mem_smallFactors : ∀ q ∈ smallFactors, q.Prime := by
  simp only [smallFactors, List.forall_mem_cons]
  norm_num

/-- A chain for the modulus of the field. -/
def fieldChain : List Primality.Step :=
  [⟨1923133, 2, [2, 2, 3, 43, 3727]⟩,
    ⟨430751, 17, [2, 5, 5, 5, 1723]⟩,
    ⟨31757755568855353, 10, [2, 2, 2, 3, 31, 107, 223, 4153, 430751]⟩,
    ⟨569003, 2, [2, 7, 97, 419]⟩,
    ⟨2773320623, 5, [2, 2437, 569003]⟩,
    ⟨72106336199, 7, [2, 13, 2773320623]⟩,
    ⟨8574133, 2, [2, 2, 3, 7, 103, 991]⟩,
    ⟨1919519569386763, 2, [2, 3, 7, 19, 47, 47, 127, 8574133]⟩,
    ⟨75445702479781427272750846543864801, 7,
      [2, 2, 2, 2, 2, 3, 3, 5, 5, 75707, 72106336199, 1919519569386763]⟩,
    ⟨74058212732561358302231226437062788676166966415465897661863160754340907, 2,
      [2, 3, 353, 57467, 132049, 1923133, 31757755568855353,
        75445702479781427272750846543864801]⟩,
    ⟨prime, 2,
      [2, 2, 3, 65147, 74058212732561358302231226437062788676166966415465897661863160754340907]⟩]

/-- A chain for the order of the base point. -/
def orderChain : List Primality.Step :=
  [⟨409477, 2, [2, 2, 3, 34123]⟩,
    ⟨14741173, 2, [2, 2, 3, 3, 409477]⟩,
    ⟨58964693, 2, [2, 2, 14741173]⟩,
    ⟨3044861653679985063343, 5, [2, 3, 11, 30703, 82163, 132667, 137849]⟩,
    ⟨198211423230930754013084525763697, 5,
      [2, 2, 2, 2, 3, 23, 58964693, 3044861653679985063343]⟩,
    ⟨292386187, 2, [2, 3, 3, 3, 3, 307, 5879]⟩,
    ⟨213441916511, 13, [2, 5, 73, 292386187]⟩,
    ⟨531581, 2, [2, 2, 5, 7, 3797]⟩,
    ⟨1224481, 13, [2, 2, 2, 2, 2, 3, 5, 2551]⟩,
    ⟨1257559732178653, 2, [2, 2, 3, 7, 23, 531581, 1224481]⟩,
    ⟨4434155615661930479, 17, [2, 41, 43, 1257559732178653]⟩,
    ⟨172054593956031949258510691, 2, [2, 5, 1361, 2851, 4434155615661930479]⟩,
    ⟨19757330305831588566944191468367130476339, 2,
      [2, 269, 213441916511, 172054593956031949258510691]⟩,
    ⟨276602624281642239937218680557139826668747, 2,
      [2, 7, 19757330305831588566944191468367130476339]⟩,
    ⟨order, 2,
      [2, 2, 3, 11, 198211423230930754013084525763697,
        276602624281642239937218680557139826668747]⟩]

theorem fieldChain_passes : Primality.chainPasses 256 smallFactors fieldChain = true := by
  decide +kernel

theorem orderChain_passes : Primality.chainPasses 256 smallFactors orderChain = true := by
  decide +kernel

theorem prime_prime : prime.Prime :=
  Primality.prime_of_chainPasses prime_of_mem_smallFactors fieldChain_passes _
    (List.getLast_mem (l := fieldChain) (List.cons_ne_nil _ _))

theorem order_prime : order.Prime :=
  Primality.prime_of_chainPasses prime_of_mem_smallFactors orderChain_passes _
    (List.getLast_mem (l := orderChain) (List.cons_ne_nil _ _))

instance : Fact prime.Prime := ⟨prime_prime⟩

instance : Fact order.Prime := ⟨order_prime⟩

end CurveKeys.Edwards25519
