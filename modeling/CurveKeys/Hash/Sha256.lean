import CurveKeys.Bytes
import CurveKeys.Hash.Schedule

/-!
The SHA-256 hash. A message is padded to whole blocks of 64 bytes; each block is compressed into
eight 32-bit words, with the message schedule kept as a window of its sixteen latest words.
-/

namespace CurveKeys.Sha256

/-- The working words `a` to `h`. -/
structure State where
  a : UInt32
  b : UInt32
  c : UInt32
  d : UInt32
  e : UInt32
  f : UInt32
  g : UInt32
  h : UInt32
deriving DecidableEq

namespace State

/-- The fractional parts of the square roots of the first eight primes. -/
def initial : State :=
  ⟨0x6A09E667, 0xBB67AE85, 0x3C6EF372, 0xA54FF53A, 0x510E527F, 0x9B05688C,
    0x1F83D9AB, 0x5BE0CD19⟩

def add (s t : State) : State :=
  ⟨s.a + t.a, s.b + t.b, s.c + t.c, s.d + t.d, s.e + t.e, s.f + t.f, s.g + t.g, s.h + t.h⟩

def words (s : State) : List UInt32 := [s.a, s.b, s.c, s.d, s.e, s.f, s.g, s.h]

end State

/-- The fractional parts of the cube roots of the first 64 primes. -/
def roundConstants : List UInt32 :=
  [0x428A2F98, 0x71374491, 0xB5C0FBCF, 0xE9B5DBA5, 0x3956C25B, 0x59F111F1,
   0x923F82A4, 0xAB1C5ED5, 0xD807AA98, 0x12835B01, 0x243185BE, 0x550C7DC3,
   0x72BE5D74, 0x80DEB1FE, 0x9BDC06A7, 0xC19BF174, 0xE49B69C1, 0xEFBE4786,
   0x0FC19DC6, 0x240CA1CC, 0x2DE92C6F, 0x4A7484AA, 0x5CB0A9DC, 0x76F988DA,
   0x983E5152, 0xA831C66D, 0xB00327C8, 0xBF597FC7, 0xC6E00BF3, 0xD5A79147,
   0x06CA6351, 0x14292967, 0x27B70A85, 0x2E1B2138, 0x4D2C6DFC, 0x53380D13,
   0x650A7354, 0x766A0ABB, 0x81C2C92E, 0x92722C85, 0xA2BFE8A1, 0xA81A664B,
   0xC24B8B70, 0xC76C51A3, 0xD192E819, 0xD6990624, 0xF40E3585, 0x106AA070,
   0x19A4C116, 0x1E376C08, 0x2748774C, 0x34B0BCB5, 0x391C0CB3, 0x4ED8AA4A,
   0x5B9CCA4F, 0x682E6FF3, 0x748F82EE, 0x78A5636F, 0x84C87814, 0x8CC70208,
   0x90BEFFFA, 0xA4506CEB, 0xBEF9A3F7, 0xC67178F2]

/-- Rotation to the right by fewer than 32 bits and more than none. -/
def rotate (x : UInt32) (n : UInt32) : UInt32 := x >>> n ||| x <<< (32 - n)

/-- What mixes the second oldest word of a schedule window into the next one. -/
def early (x : UInt32) : UInt32 := rotate x 7 ^^^ rotate x 18 ^^^ x >>> 3

/-- What mixes the second latest word of a schedule window into the next one. -/
def late (x : UInt32) : UInt32 := rotate x 17 ^^^ rotate x 19 ^^^ x >>> 10

/-- One round on the working words, with a round constant and a schedule word. -/
def round (s : State) (k w : UInt32) : State :=
  let sum1 := rotate s.e 6 ^^^ rotate s.e 11 ^^^ rotate s.e 25
  let choice := s.e &&& s.f ^^^ ~~~s.e &&& s.g
  let t1 := s.h + sum1 + choice + k + w
  let sum0 := rotate s.a 2 ^^^ rotate s.a 13 ^^^ rotate s.a 22
  let majority := s.a &&& s.b ^^^ s.a &&& s.c ^^^ s.b &&& s.c
  ⟨t1 + (sum0 + majority), s.a, s.b, s.c, s.d + t1, s.e, s.f, s.g⟩

/-- One round for each constant; the window moves by one word a round. -/
def rounds : List UInt32 → Schedule UInt32 → State → State
  | [], _, s => s
  | k :: ks, w, s => rounds ks (w.advance early late) (round s k w.oldest)

def compress (s : State) (block : Schedule UInt32) : State :=
  s.add (rounds roundConstants block s)

/-- The word spelled by 4 bytes, the most significant one first. -/
def word (b : Bytes) : UInt32 :=
  b.foldl (fun w x => w <<< 8 ||| x.toUInt32) 0

/-- The sixteen words of the block that a string starts with. -/
def blockWords (b : Bytes) : Schedule UInt32 :=
  Vector.ofFn fun i => word ((b.drop (4 * i)).take 4)

/-- Compresses as many blocks as `n`, in order. -/
def blocks : Nat → State → Bytes → State
  | 0, s, _ => s
  | n + 1, s, b => blocks n (compress s (blockWords b)) (b.drop 64)

/-- A one bit, zeros, and the length in bits as a 64-bit integer, up to whole blocks. -/
def padding (length : Nat) : Bytes :=
  0x80 :: (List.replicate ((64 - (length + 9) % 64) % 64) 0 ++ Bytes.ofNatBE 8 (8 * length))

def bytesOfWord (w : UInt32) : Bytes :=
  [(w >>> 24).toUInt8, (w >>> 16).toUInt8, (w >>> 8).toUInt8, w.toUInt8]

/-- The digest of a message. -/
def hash (message : Bytes) : Vector UInt8 32 :=
  let padded := message ++ padding message.length
  Bytes.window 32 ((blocks (padded.length / 64) State.initial padded).words.flatMap bytesOfWord)

end CurveKeys.Sha256
