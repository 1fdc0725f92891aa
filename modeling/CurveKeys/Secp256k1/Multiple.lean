import CurveKeys.Secp256k1.Digits
import CurveKeys.Secp256k1.Point.Jacobian
import CurveKeys.Secp256k1.Split

/-!
Multiples of points, by two methods. Both split the scalar, give each half's sign to its point and
run over the digits of both halves at once from the highest down: `mul` over signed base 16 digits
with a table of eight multiples for each half, `mulVar` over the non-adjacent forms.
-/

namespace CurveKeys.Secp256k1.JacobianPoint

/-- The multiples of a point by `1, …, n`, each one the point added to the one before. -/
def multiplesFrom (p q : JacobianPoint) : Nat → List JacobianPoint
  | 0 => []
  | n + 1 => q :: multiplesFrom p (p.add q) n

/-- The first eight multiples of a point. -/
def table (p : JacobianPoint) : List JacobianPoint := multiplesFrom p p 8

/-- The multiple of a digit between -8 and 8 from a table of the first eight. -/
def lookup (table : List JacobianPoint) (digit : Int8) : JacobianPoint :=
  let entry :=
    match digit.toInt.natAbs with
    | 0 => identity
    | m + 1 => table.getD m identity
  select entry entry.negate (digit < 0)

/-- The table and the digits of one half, with the half's sign given to the point. -/
def signedHalf (p : JacobianPoint) (k : Scalar) : List JacobianPoint × List Int8 :=
  let (k, negative) := k.absolute
  (table (select p p.negate negative), signedRadix16Half k)

/-- The multiple of a point; the sequence of operations does not depend on the scalar. The highest
of the 33 digits have nothing above them to double. -/
def mul (p : JacobianPoint) (k : Scalar) : JacobianPoint :=
  let (k1, k2) := k.split
  let (table1, digits1) := signedHalf p k1
  let (table2, digits2) := signedHalf p.endomorphism k2
  ((digits1.take 32).zip (digits2.take 32)).foldr
    (fun (d1, d2) acc =>
      (acc.double.double.double.double.add (lookup table1 d1)).add (lookup table2 d2))
    ((lookup table1 (digits1.getD 32 0)).add (lookup table2 (digits2.getD 32 0)))

/-- The multiple of the base point. -/
def mulBase (k : Scalar) : JacobianPoint := generator.mul k

/-- Adds the point for a digit 1 and its negative for a digit -1. -/
def addSigned (acc p minusP : JacobianPoint) : SignedBit → JacobianPoint
  | .plus => acc.addVar p
  | .minus => acc.addVar minusP
  | .zero => acc

/-- Fills the shorter of two digit lists with zeros at the top and pairs the digits. -/
def pairDigits : List SignedBit → List SignedBit → List (SignedBit × SignedBit)
  | [], ys => ys.map fun y => (.zero, y)
  | xs, [] => xs.map fun x => (x, .zero)
  | x :: xs, y :: ys => (x, y) :: pairDigits xs ys

/-- The multiple of a point, branching on the scalar. -/
def mulVar (p : JacobianPoint) (k : Scalar) : JacobianPoint :=
  let (k1, k2) := k.split
  let (k1, negative1) := k1.absolute
  let (k2, negative2) := k2.absolute
  let q := p.endomorphism
  let p1 := select p p.negate negative1
  let p2 := select q q.negate negative2
  let minusP1 := select p.negate p negative1
  let minusP2 := select q.negate q negative2
  let naf1 := Naf.ofBytes (k1.toBytes.toList.dropWhile (· == 0))
  let naf2 := Naf.ofBytes (k2.toBytes.toList.dropWhile (· == 0))
  (pairDigits naf1 naf2).foldr
    (fun (d1, d2) acc => (acc.doubleVar.addSigned p1 minusP1 d1).addSigned p2 minusP2 d2)
    identity

/-- The multiple of the base point, branching on the scalar. -/
def mulBaseVar (k : Scalar) : JacobianPoint := generator.mulVar k

end CurveKeys.Secp256k1.JacobianPoint
