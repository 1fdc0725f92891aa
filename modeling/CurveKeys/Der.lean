import CurveKeys.Bytes

/-!
Short DER elements: a tag, a length below 128 and the content; and non-negative integers, which are
written with the fewest bytes.
-/

namespace CurveKeys.Der

def sequenceTag : UInt8 := 0x30

def integerTag : UInt8 := 0x02

/-- An element whose content has fewer than 128 bytes. -/
def element (tag : UInt8) (content : Bytes) : Bytes :=
  tag :: UInt8.ofNat content.length :: content

/-- The fewest big-endian bytes of a non-negative integer: one at least, and a zero in front of a
byte that would read as a sign. -/
def integerBytes (b : Bytes) : Bytes :=
  match b.dropWhile (· == 0) with
  | [] => [0]
  | d :: r => if d &&& 0x80 = 0 then d :: r else 0 :: d :: r

inductive IntegerFault where
  | wrongTag
  | noContent
  | negative
  | padded
deriving DecidableEq

/-- What keeps an element from being a non-negative integer in its fewest bytes; the first fault in
the order of the constructors. -/
def integerFault? (tag : UInt8) (content : Bytes) : Option IntegerFault :=
  if tag ≠ integerTag then some .wrongTag
  else
    match content with
    | [] => some .noContent
    | d :: r =>
      if d &&& 0x80 ≠ 0 then some .negative
      else
        match r with
        | [] => none
        | e :: _ => if d = 0 ∧ e &&& 0x80 = 0 then some .padded else none

/-- The content of the integer that a string starts with, and what follows it. -/
def takeInteger? : Bytes → Option (Bytes × Bytes)
  | tag :: length :: rest =>
    let content := rest.take length.toNat
    if length < 0x80 ∧ content.length = length.toNat ∧ integerFault? tag content = none then
      some (content, rest.drop length.toNat)
    else
      none
  | _ => none

/-- The contents of two integers in a sequence that fills the string. -/
def integerPair? : Bytes → Option (Bytes × Bytes)
  | tag :: length :: body => do
    guard (tag = sequenceTag ∧ length < 0x80 ∧ body.length = length.toNat)
    let (first, rest) ← takeInteger? body
    let (second, rest) ← takeInteger? rest
    guard (rest = [])
    return (first, second)
  | _ => none

/-- The sequence of two non-negative integers. -/
def pair (first second : Bytes) : Bytes :=
  element sequenceTag
    (element integerTag (integerBytes first) ++ element integerTag (integerBytes second))

end CurveKeys.Der
