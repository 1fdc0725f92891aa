/-!
The curve `y² = x³ - 3 x + b` of P-256 over plain integers. Points are in Jacobian coordinates,
`(X / Z², Y / Z³)`, with `Z = 0` at infinity.
-/

namespace CurveKeys.P256

/-- The modulus of the field. -/
def prime : Nat := 0xFFFFFFFF00000001000000000000000000000000FFFFFFFFFFFFFFFFFFFFFFFF

/-- The order of the group. -/
def order : Nat := 0xFFFFFFFF00000000FFFFFFFFFFFFFFFFBCE6FAADA7179E84F3B9CAC2FC632551

/-- The constant term of the curve equation. -/
def b : Nat := 0x5AC635D8AA3A93E7B3EBBD55769886BC651D06B0CC53B0F63BCE3C3E27D2604B

/-- The power `a ^ e` modulo `m`. -/
def powMod (m a e : Nat) : Nat :=
  if _ : e = 0 then 1 % m
  else
    let half := powMod m (a * a % m) (e / 2)
    if e % 2 = 1 then a * half % m else half
termination_by e

/-- The inverse modulo a prime. -/
def inverse (m a : Nat) : Nat := powMod m a (m - 2)

/-- Difference modulo the field's modulus. -/
def minus (x y : Nat) : Nat := (x + (prime - y % prime)) % prime

structure Point where
  x : Nat
  y : Nat
  z : Nat

namespace Point

def identity : Point := ⟨1, 1, 0⟩

def generator : Point where
  x := 0x6B17D1F2E12C4247F8BCE6E563A440F277037D812DEB33A0F4A13945D898C296
  y := 0x4FE342E2FE1A7F9B8EE7EB4A7C0F9E162BCE33576B315ECECBB6406837BF51F5
  z := 1

/-- Does a pair of reduced coordinates satisfy the curve equation? -/
def isOnCurve (x y : Nat) : Bool :=
  y * y % prime == minus ((x * x % prime * x + b) % prime) (3 * x)

/-- The affine coordinates, none at infinity. -/
def toAffine? (p : Point) : Option (Nat × Nat) :=
  if p.z = 0 then none
  else
    let w := inverse prime p.z
    let w2 := w * w % prime
    some (p.x * w2 % prime, p.y * (w2 * w % prime) % prime)

def double (p : Point) : Point :=
  let yy := p.y * p.y % prime
  let zz := p.z * p.z % prime
  let s := 4 * p.x * yy % prime
  let m := 3 * (minus p.x zz * (p.x + zz)) % prime
  let x := minus (m * m) (2 * s)
  ⟨x, minus (m * minus s x) (8 * (yy * yy)), 2 * p.y * p.z % prime⟩

def add (p q : Point) : Point :=
  if p.z = 0 then q
  else if q.z = 0 then p
  else
    let zz1 := p.z * p.z % prime
    let zz2 := q.z * q.z % prime
    let u1 := p.x * zz2 % prime
    let s1 := p.y * (zz2 * q.z % prime) % prime
    let h := minus (q.x * zz1) u1
    let r := minus (q.y * (zz1 * p.z % prime)) s1
    if h = 0 then
      if r = 0 then p.double else identity
    else
      let hh := h * h % prime
      let hhh := hh * h % prime
      let v := u1 * hh % prime
      let x := minus (minus (r * r) hhh) (2 * v)
      ⟨x, minus (r * minus v x) (s1 * hhh), p.z * q.z * h % prime⟩

/-- The multiple of a point. -/
def mul (p : Point) (k : Nat) : Point :=
  if _ : k = 0 then identity
  else
    let rest := p.double.mul (k / 2)
    if k % 2 = 1 then rest.add p else rest
termination_by k

end Point

end CurveKeys.P256
