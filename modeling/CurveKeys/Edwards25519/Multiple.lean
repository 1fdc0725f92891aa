import CurveKeys.Edwards25519.Digits
import CurveKeys.Edwards25519.Point.Table

/-!
Multiples of points: of any point over signed base 16 digits, of the base point over the same
digits with a table for each pair of them, and the sum of a multiple of any point and one of the
base point over non-adjacent forms.
-/

namespace CurveKeys.Edwards25519.Point

/-- The multiple of a point; the sequence of operations does not depend on the scalar. -/
def mul (p : Point) (k : Scalar) : Point :=
  let table := PreparedPoint.multiples p
  let step (digit : Int8) (acc : CompletedPoint) : CompletedPoint :=
    (PreparedPoint.lookup table digit).addTo
      ((acc.toProjective.doubleTimes 3).double.toExtended)
  match (Digits.signedRadix16 k).reverse with
  | [] => identity
  | top :: rest =>
    let start := (PreparedPoint.lookup table top).addTo identity
    (rest.foldl (fun acc digit => step digit acc) start).toExtended

/-- The digits at even and at odd positions. -/
def splitDigits : List Int8 → List Int8 × List Int8
  | even :: odd :: r =>
    let (evens, odds) := splitDigits r
    (even :: evens, odd :: odds)
  | r => (r, [])

/-- Adds the multiples for one digit of each table. -/
def addTables (tables : List (List PreparedAffine)) (digits : List Int8) (p : Point) : Point :=
  (tables.zip digits).foldl
    (fun acc (table, digit) => ((PreparedAffine.lookup table digit).addTo acc).toExtended) p

/-- The multiple of the base point: 16 times the sum for the odd digits, and the even ones. -/
def mulBase (k : Scalar) : Point :=
  let (evens, odds) := splitDigits (Digits.signedRadix16 k)
  let high := addTables baseTables odds identity
  let shifted := ((ProjectivePoint.ofExtended high).doubleTimes 3).double.toExtended
  addTables baseTables evens shifted

/-- Doubles, and adds the multiples for one digit of each scalar. -/
def jointStep (table : List PreparedPoint) (acc : ProjectivePoint) (digits : Int8 × Int8) :
    ProjectivePoint :=
  let sum := acc.double
  let sum :=
    if digits.1 = 0 then sum else PreparedPoint.addDigit table sum.toExtended digits.1
  let sum :=
    if digits.2 = 0 then sum else PreparedAffine.addDigit baseOddTable sum.toExtended digits.2
  sum.toProjective

/-- The point `a p + b B` for the base point `B`, branching on the scalars. -/
def doubleMulBase (a : Scalar) (p : Point) (b : Scalar) : Point :=
  let digits := ((Digits.nonAdjacent 5 a).zip (Digits.nonAdjacent 8 b)).reverse
  ((digits.dropWhile (· == (0, 0))).foldl (jointStep (PreparedPoint.oddMultiples p))
    ProjectivePoint.identity).toExtended

end CurveKeys.Edwards25519.Point
