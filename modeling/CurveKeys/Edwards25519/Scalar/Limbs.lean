import CurveKeys.Bytes

/-!
Reduction modulo the order `l = 2 ^ 252 + c` of the base point. A number is a list of 24 signed
limbs of 21 bits. A fold replaces limb `i ≥ 12`, of weight `2 ^ 252 * 2 ^ (21 * (i - 12))`, by its
product with `-c`; a carry keeps a limb small. Which folds and carries are done, and in which
order, is a list of steps.
-/

namespace CurveKeys.Edwards25519.Limbs

/-- The integer spelled by signed limbs of 21 bits, the lowest one first. -/
def toInt : List Int64 → Int
  | [] => 0
  | x :: r => x.toInt + 0x200000 * toInt r

/-- The order of the base point. -/
def order : Nat := 0x1000000000000000000000000000000014DEF9DEA2F79CD65812631A5CF5D3ED

/-- The limbs of `2 ^ 252` less the order. -/
def foldFactors : List Int64 := [666643, 470296, 654183, -997805, 136657, -683901]

theorem toInt_foldFactors : toInt foldFactors = (1 <<< 252 : Nat) - order := by decide

/-- Adds the multiple of a list by `v` to another limb by limb. -/
def addScaled (v : Int64) : List Int64 → List Int64 → List Int64
  | c :: cs, x :: xs => (x + v * c) :: addScaled v cs xs
  | _, xs => xs

/-- Adds a product to the limbs `s`, which are long enough for it. -/
def addProduct : List Int64 → List Int64 → List Int64 → List Int64
  | x :: xs, b, s =>
    match addScaled x b s with
    | [] => []
    | low :: rest => low :: addProduct xs b rest
  | [], _, s => s

/-- Moves `carry x` from limb `i` to the next limb, where it counts `2 ^ 21` times less. -/
def carryAt (carry : Int64 → Int64) (i : Nat) (s : List Int64) : List Int64 :=
  match s.drop i with
  | x :: y :: r => s.take i ++ (x - carry x <<< 21) :: (y + carry x) :: r
  | _ => s

inductive Step where
  /-- Replaces limb `i` by its product with `2 ^ 252 - l`, twelve limbs lower. -/
  | fold (i : Nat)
  /-- Leaves limb `i` between `-2 ^ 20` and `2 ^ 20`. -/
  | round (i : Nat)
  /-- Leaves limb `i` between zero and `2 ^ 21`. -/
  | floor (i : Nat)
deriving DecidableEq

def Step.apply (s : List Int64) : Step → List Int64
  | fold i => (s.take (i - 12) ++ addScaled (s.getD i 0) foldFactors (s.drop (i - 12))).set i 0
  | round i => carryAt (fun x => (x + 0x100000) >>> 21) i s
  | floor i => carryAt (fun x => x >>> 21) i s

def run (steps : List Step) (s : List Int64) : List Int64 := steps.foldl Step.apply s

/-- The carries after a product has been added up. -/
def productSteps : List Step :=
  [0, 2, 4, 6, 8, 10, 12, 14, 16, 18, 20, 22].map .round ++
    [1, 3, 5, 7, 9, 11, 13, 15, 17, 19, 21].map .round

/-- Brings 24 limbs to twelve that spell the residue. -/
def reduceSteps : List Step :=
  [23, 22, 21, 20, 19, 18].map .fold ++ [6, 8, 10, 12, 14, 16].map .round ++
    [7, 9, 11, 13, 15].map .round ++ [17, 16, 15, 14, 13, 12].map .fold ++
    [0, 2, 4, 6, 8, 10].map .round ++ [1, 3, 5, 7, 9, 11].map .round ++ [.fold 12] ++
    [0, 1, 2, 3, 4, 5, 6, 7, 8, 9, 10, 11].map .floor ++ [.fold 12] ++
    [0, 1, 2, 3, 4, 5, 6, 7, 8, 9, 10].map .floor

/-- The word spelled by four bytes from position `i` on, the least significant one first. -/
def word (b : Bytes) (i : Nat) : UInt64 :=
  (b.getD i 0).toUInt64 ||| (b.getD (i + 1) 0).toUInt64 <<< 8 |||
    (b.getD (i + 2) 0).toUInt64 <<< 16 ||| (b.getD (i + 3) 0).toUInt64 <<< 24

/-- Splits a little-endian string into `n` limbs; the last one takes every bit that is left. -/
def load (n : Nat) (b : Bytes) : List Int64 :=
  (List.range n).map fun i =>
    let v := word b (21 * i / 8) >>> UInt64.ofNat (21 * i % 8)
    (if i + 1 = n then v else v &&& 0x1FFFFF).toInt64

/-- The `n` low bytes of a word, and what is above them. -/
def emit : Nat → UInt64 → Bytes × UInt64
  | 0, acc => ([], acc)
  | n + 1, acc =>
    let (rest, last) := emit n (acc >>> 8)
    (acc.toUInt8 :: rest, last)

/-- Packs limbs of 21 bits behind the `pending` bits already in `acc`; the bits left at the end
make one more byte. -/
def pack (acc : UInt64) (pending : Nat) : List Int64 → Bytes
  | [] => [acc.toUInt8]
  | x :: r =>
    let bits := pending + 21
    let (bytes, left) := emit (bits / 8) (acc ||| x.toUInt64 <<< UInt64.ofNat pending)
    bytes ++ pack left (bits % 8) r

/-- The little-endian encoding of the residue of 24 limbs. -/
def reduce (s : List Int64) : Vector UInt8 32 :=
  Bytes.window 32 (pack 0 0 ((run reduceSteps s).take 12))

end CurveKeys.Edwards25519.Limbs
