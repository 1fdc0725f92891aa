/-!
Unsigned 128-bit words as two 64-bit halves: the full product of two 64-bit words, the sum modulo
`2 ^ 128`, and the two parts on either side of bit 51.
-/

namespace CurveKeys

structure UInt128 where
  lo : UInt64
  hi : UInt64
deriving DecidableEq

namespace UInt128

def toNat (a : UInt128) : Nat := a.lo.toNat + 0x10000000000000000 * a.hi.toNat

/-- The high half is assembled from products of 32-bit halves, none of which overflows. -/
@[inline] def product (x y : UInt64) : UInt128 :=
  let xl := x &&& 0xFFFFFFFF
  let xh := x >>> 32
  let yl := y &&& 0xFFFFFFFF
  let yh := y >>> 32
  let lh := xl * yh
  let hl := xh * yl
  let middle := (xl * yl) >>> 32 + (lh &&& 0xFFFFFFFF) + (hl &&& 0xFFFFFFFF)
  ⟨x * y, xh * yh + lh >>> 32 + hl >>> 32 + middle >>> 32⟩

@[inline] def add (a b : UInt128) : UInt128 :=
  let lo := a.lo + b.lo
  ⟨lo, a.hi + b.hi + (if lo < b.lo then 1 else 0)⟩

instance : Add UInt128 := ⟨add⟩

/-- The 51 lowest bits. -/
@[inline] def low51 (a : UInt128) : UInt64 := a.lo &&& 0x7FFFFFFFFFFFF

/-- The 64 bits from bit 51 on. -/
@[inline] def high51 (a : UInt128) : UInt64 := a.lo >>> 51 ||| a.hi <<< 13

end UInt128

end CurveKeys
