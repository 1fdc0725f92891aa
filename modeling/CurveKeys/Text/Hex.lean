import CurveKeys.Bytes

/-!
Byte strings as hexadecimal text, two digits to a byte. Both letter cases can be written, and any
mixture of them is read.
-/

namespace CurveKeys.Hex

inductive Case where
  | lower
  | upper
deriving DecidableEq

/-- The digit of a value below 16. -/
def digit (c : Case) (v : UInt8) : Char :=
  if v < 10 then Char.ofNat (0x30 + v.toNat)
  else Char.ofNat ((match c with | .lower => 0x61 | .upper => 0x41) + (v.toNat - 10))

def encodeChars (c : Case) (b : Bytes) : List Char :=
  b.flatMap fun (x : UInt8) => [digit c (x >>> 4), digit c (x &&& 15)]

def encode (c : Case) (b : Bytes) : String := String.ofList (encodeChars c b)

def value? (d : Char) : Option UInt8 :=
  if '0' ≤ d ∧ d ≤ '9' then some (UInt8.ofNat (d.toNat - 0x30))
  else if 'a' ≤ d ∧ d ≤ 'f' then some (UInt8.ofNat (d.toNat - 0x61 + 10))
  else if 'A' ≤ d ∧ d ≤ 'F' then some (UInt8.ofNat (d.toNat - 0x41 + 10))
  else none

/-- The bytes of a list of digits, none if it has another character or half a byte. -/
def decodeChars : List Char → Option Bytes
  | [] => some []
  | [_] => none
  | h :: l :: r => do
    let h ← value? h
    let l ← value? l
    let r ← decodeChars r
    return (h <<< 4 ||| l) :: r

def decode (text : String) : Option Bytes := decodeChars text.toList

end CurveKeys.Hex
