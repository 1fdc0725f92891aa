import CurveKeys.Edwards25519.Point.Sum

/-!
Tables of multiples of a point: the first eight for digits of the signed base 16, and odd ones for
digits of a non-adjacent form. The base point has ready-made tables of both sorts.
-/

namespace CurveKeys.Edwards25519

namespace PreparedPoint

/-- Prepares `q`, `q + step`, and so on, as many as `n`. -/
def progression (q step : Point) : Nat → List PreparedPoint
  | 0 => []
  | n + 1 =>
    let prepared := ofExtended q
    prepared :: progression (prepared.addTo step).toExtended step n

/-- The first eight multiples of a point. -/
def multiples (q : Point) : List PreparedPoint := progression q q 8

/-- The odd multiples of a point up to the fifteenth. -/
def oddMultiples (q : Point) : List PreparedPoint := progression q q.double 8

/-- The multiple of a digit between -8 and 8. -/
def lookup (table : List PreparedPoint) (digit : Int8) : PreparedPoint :=
  let entry :=
    match digit.toInt.natAbs with
    | 0 => identity
    | m + 1 => table.getD m identity
  select entry entry.negate (digit < 0)

/-- The sum of a point and the multiple of an odd digit. -/
def addDigit (table : List PreparedPoint) (p : Point) (digit : Int8) : CompletedPoint :=
  let entry := table.getD (digit.toInt.natAbs / 2) identity
  if 0 < digit then entry.addTo p else entry.subFrom p

end PreparedPoint

namespace PreparedAffine

/-- Prepares `q` and the points that follow it by adding `step`, as many as `n`. -/
def progression (q : Point) (step : PreparedAffine) : Nat → List PreparedAffine
  | 0 => []
  | n + 1 => ofExtended q :: progression (step.addTo q).toExtended step n

/-- The first eight multiples of a point. -/
def multiples (q : Point) : List PreparedAffine := progression q (ofExtended q) 8

/-- The odd multiples of a point, as many as `n`; `twice` is its double. -/
def oddMultiplesFrom (q twice : Point) : Nat → List PreparedAffine
  | 0 => []
  | n + 1 => ofExtended q :: oddMultiplesFrom (q.add twice) twice n

/-- The odd multiples of a point up to the 127th. -/
def oddMultiples (q : Point) : List PreparedAffine := oddMultiplesFrom q q.double 64

@[inherit_doc PreparedPoint.lookup]
def lookup (table : List PreparedAffine) (digit : Int8) : PreparedAffine :=
  let entry :=
    match digit.toInt.natAbs with
    | 0 => identity
    | m + 1 => table.getD m identity
  select entry entry.negate (digit < 0)

@[inherit_doc PreparedPoint.addDigit]
def addDigit (table : List PreparedAffine) (p : Point) (digit : Int8) : CompletedPoint :=
  let entry := table.getD (digit.toInt.natAbs / 2) identity
  if 0 < digit then entry.addTo p else entry.subFrom p

end PreparedAffine

namespace Point

/-- The double taken `k` times. -/
def doubleTimes (p : Point) : Nat → Point
  | 0 => p
  | k + 1 => p.double.doubleTimes k

/-- The multiples of `p`, of `256 p`, of `256² p` and so on, as many tables as `n`. -/
def byteTables (p : Point) : Nat → List (List PreparedAffine)
  | 0 => []
  | n + 1 => PreparedAffine.multiples p :: byteTables (p.doubleTimes 8) n

/-- One table for each byte of a scalar. -/
def baseTables : List (List PreparedAffine) := byteTables generator 32

def baseOddTable : List PreparedAffine := PreparedAffine.oddMultiples generator

end Point

end CurveKeys.Edwards25519
