import CurveKeys.Proofs.UInt128

/-!
Word operations that have a result only when a word holds the exact integer. Each gives the wrapping
operation exactly when that one is exact, so a computation with these operations that has a result
never wrapped.
-/

namespace CurveKeys.Words

/-- One step of a computation in checked words. -/
theorem bind_eq_of_eq_some {α β : Type} {x : Option α} {a : α} {f : α → Option β}
    (h : x = some a) : (x >>= f) = f a := by
  rw [h]
  rfl

/-- A computation on every element of a list, each of which has a result. -/
theorem mapM_eq_map {α β : Type} {f : α → Option β} {g : α → β} {l : List α}
    (h : ∀ x ∈ l, f x = some (g x)) : l.mapM f = some (l.map g) := by
  induction l with
  | nil => rfl
  | cons x l ih =>
      obtain ⟨hx, hl⟩ := List.forall_mem_cons.mp h
      rw [List.mapM_cons, bind_eq_of_eq_some hx, bind_eq_of_eq_some (ih hl)]
      rfl

/-- A loop over a list, each turn of which has a result. -/
theorem foldlM_eq_foldl {α β : Type} {f : β → α → Option β} {g : β → α → β} {l : List α} {b : β}
    (h : ∀ b, ∀ x ∈ l, f b x = some (g b x)) : l.foldlM f b = some (l.foldl g b) := by
  induction l generalizing b with
  | nil => rfl
  | cons x l ih =>
      rw [List.foldlM_cons, bind_eq_of_eq_some (h b x List.mem_cons_self), List.foldl_cons]
      exact ih fun b y hy => h b y (List.mem_cons_of_mem x hy)

/-- The byte that stands for an integer. -/
def word8? (n : ℤ) : Option UInt8 :=
  if 0 ≤ n ∧ n < 2 ^ 8 then some (UInt8.ofNat n.toNat) else none

/-- The word of 32 bits that stands for an integer. -/
def word32? (n : ℤ) : Option UInt32 :=
  if 0 ≤ n ∧ n < 2 ^ 32 then some (UInt32.ofNat n.toNat) else none

/-- The word of 64 bits that stands for an integer. -/
def word64? (n : ℤ) : Option UInt64 :=
  if 0 ≤ n ∧ n < 2 ^ 64 then some (UInt64.ofNat n.toNat) else none

theorem word8?_eq_some_iff {n : ℤ} {x : UInt8} : word8? n = some x ↔ n = x.toNat := by
  have hx := x.toNat_lt
  rw [word8?]
  split
  · next h =>
      rw [Option.some.injEq, ← UInt8.toNat_inj, UInt8.toNat_ofNat_of_lt' (by simp; omega)]
      omega
  · next h => exact iff_of_false (fun e => nomatch e) (by omega)

theorem word32?_eq_some_iff {n : ℤ} {x : UInt32} : word32? n = some x ↔ n = x.toNat := by
  have hx := x.toNat_lt
  rw [word32?]
  split
  · next h =>
      rw [Option.some.injEq, ← UInt32.toNat_inj, UInt32.toNat_ofNat_of_lt' (by simp; omega)]
      omega
  · next h => exact iff_of_false (fun e => nomatch e) (by omega)

theorem word64?_eq_some_iff {n : ℤ} {x : UInt64} : word64? n = some x ↔ n = x.toNat := by
  have hx := x.toNat_lt
  rw [word64?]
  split
  · next h =>
      rw [Option.some.injEq, ← UInt64.toNat_inj, UInt64.toNat_ofNat_of_lt' (by simp; omega)]
      omega
  · next h => exact iff_of_false (fun e => nomatch e) (by omega)

/-- The word of 128 bits that stands for a natural number. -/
def word128? (n : Nat) : Option UInt128 :=
  if n < 2 ^ 128 then some ⟨UInt64.ofNat n, UInt64.ofNat (n / 2 ^ 64)⟩ else none

theorem word128?_eq_some_iff {n : Nat} {x : UInt128} : word128? n = some x ↔ n = x.toNat := by
  rw [word128?]
  split
  · next h =>
      have hn : UInt128.toNat ⟨UInt64.ofNat n, UInt64.ofNat (n / 2 ^ 64)⟩ = n := by
        rw [UInt128.toNat_def]
        simp only [UInt64.toNat_ofNat']
        omega
      rw [Option.some.injEq]
      exact ⟨fun e => by rw [← e, hn], fun e => UInt128.eq_of_toNat_eq (hn.trans e)⟩
  · next h => exact iff_of_false (fun e => nomatch e) (fun e => h (e ▸ x.toNat_lt))

/-- The signed word of 64 bits that stands for an integer. -/
def signed64? (n : ℤ) : Option Int64 :=
  if -2 ^ 63 ≤ n ∧ n < 2 ^ 63 then some (Int64.ofInt n) else none

theorem signed64?_eq_some_iff {n : ℤ} {x : Int64} : signed64? n = some x ↔ n = x.toInt := by
  have hlo := x.le_toInt
  have hhi := x.toInt_lt
  rw [signed64?]
  split
  · next h => rw [Option.some.injEq, ← Int64.toInt_inj, Int64.toInt_ofInt_of_le h.1 h.2]
  · next h => exact iff_of_false (fun e => nomatch e) (by omega)

/-- The signed byte that stands for an integer. -/
def signed8? (n : ℤ) : Option Int8 :=
  if -2 ^ 7 ≤ n ∧ n < 2 ^ 7 then some (Int8.ofInt n) else none

theorem signed8?_eq_some_iff {n : ℤ} {x : Int8} : signed8? n = some x ↔ n = x.toInt := by
  have hlo := x.le_toInt
  have hhi := x.toInt_lt
  rw [signed8?]
  split
  · next h => rw [Option.some.injEq, ← Int8.toInt_inj, Int8.toInt_ofInt_of_le h.1 h.2]
  · next h => exact iff_of_false (fun e => nomatch e) (by omega)

def add8? (x y : UInt8) : Option UInt8 := word8? (x.toNat + y.toNat)

def add32? (x y : UInt32) : Option UInt32 := word32? (x.toNat + y.toNat)

def sub32? (x y : UInt32) : Option UInt32 := word32? (x.toNat - y.toNat)

def mul32? (x y : UInt32) : Option UInt32 := word32? (x.toNat * y.toNat)

/-- A shift up that loses no bit. -/
def shiftLeft32? (x k : UInt32) : Option UInt32 := word32? (x.toNat * 2 ^ k.toNat)

def add64? (x y : UInt64) : Option UInt64 := word64? (x.toNat + y.toNat)

def sub64? (x y : UInt64) : Option UInt64 := word64? (x.toNat - y.toNat)

def mul64? (x y : UInt64) : Option UInt64 := word64? (x.toNat * y.toNat)

def shiftLeft64? (x k : UInt64) : Option UInt64 := word64? (x.toNat * 2 ^ k.toNat)

def add128? (x y : UInt128) : Option UInt128 := word128? (x.toNat + y.toNat)

/-- The product of two words in a word of twice the length. -/
def mul128? (x y : UInt64) : Option UInt128 := word128? (x.toNat * y.toNat)

def addSigned? (x y : Int64) : Option Int64 := signed64? (x.toInt + y.toInt)

def subSigned? (x y : Int64) : Option Int64 := signed64? (x.toInt - y.toInt)

def mulSigned? (x y : Int64) : Option Int64 := signed64? (x.toInt * y.toInt)

/-- A shift up that loses no bit and keeps the sign. -/
def shiftLeftSigned? (x : Int64) (k : Nat) : Option Int64 := signed64? (x.toInt * 2 ^ k)

def addSigned8? (x y : Int8) : Option Int8 := signed8? (x.toInt + y.toInt)

def subSigned8? (x y : Int8) : Option Int8 := signed8? (x.toInt - y.toInt)

def shiftLeftSigned8? (x : Int8) (k : Nat) : Option Int8 := signed8? (x.toInt * 2 ^ k)

/-- The bits from bit 51 on, when they fit a word of half the length. -/
def high51? (x : UInt128) : Option UInt64 := word64? (x.toNat / 0x8000000000000 : Nat)

/-- The same integer in a shorter word. -/
def narrow? (x : UInt64) : Option UInt32 := word32? x.toNat

theorem add8?_eq {x y : UInt8} (h : (x + y).toNat = x.toNat + y.toNat) :
    add8? x y = some (x + y) :=
  word8?_eq_some_iff.mpr (by rw [h, Nat.cast_add])

theorem add32?_eq {x y : UInt32} (h : (x + y).toNat = x.toNat + y.toNat) :
    add32? x y = some (x + y) :=
  word32?_eq_some_iff.mpr (by rw [h, Nat.cast_add])

theorem sub32?_eq {x y : UInt32} (h : y.toNat ≤ x.toNat) : sub32? x y = some (x - y) :=
  word32?_eq_some_iff.mpr (by rw [toNat_sub32 h, Nat.cast_sub h])

theorem mul32?_eq {x y : UInt32} (h : (x * y).toNat = x.toNat * y.toNat) :
    mul32? x y = some (x * y) :=
  word32?_eq_some_iff.mpr (by rw [h, Nat.cast_mul])

theorem shiftLeft32?_eq {x k : UInt32} (h : (x <<< k).toNat = x.toNat * 2 ^ k.toNat) :
    shiftLeft32? x k = some (x <<< k) :=
  word32?_eq_some_iff.mpr (by rw [h]; push_cast; rfl)

theorem add64?_eq {x y : UInt64} (h : (x + y).toNat = x.toNat + y.toNat) :
    add64? x y = some (x + y) :=
  word64?_eq_some_iff.mpr (by rw [h, Nat.cast_add])

theorem sub64?_eq {x y : UInt64} (h : y.toNat ≤ x.toNat) : sub64? x y = some (x - y) :=
  word64?_eq_some_iff.mpr (by rw [toNat_sub64 h, Nat.cast_sub h])

theorem mul64?_eq {x y : UInt64} (h : (x * y).toNat = x.toNat * y.toNat) :
    mul64? x y = some (x * y) :=
  word64?_eq_some_iff.mpr (by rw [h, Nat.cast_mul])

theorem shiftLeft64?_eq {x k : UInt64} (h : (x <<< k).toNat = x.toNat * 2 ^ k.toNat) :
    shiftLeft64? x k = some (x <<< k) :=
  word64?_eq_some_iff.mpr (by rw [h]; push_cast; rfl)

theorem add128?_eq {x y : UInt128} (h : (x + y).toNat = x.toNat + y.toNat) :
    add128? x y = some (x + y) :=
  word128?_eq_some_iff.mpr h.symm

theorem mul128?_eq (x y : UInt64) : mul128? x y = some (UInt128.product x y) :=
  word128?_eq_some_iff.mpr (UInt128.toNat_product x y).symm

theorem addSigned?_eq {x y : Int64} (h : (x + y).toInt = x.toInt + y.toInt) :
    addSigned? x y = some (x + y) :=
  signed64?_eq_some_iff.mpr h.symm

theorem subSigned?_eq {x y : Int64} (h : (x - y).toInt = x.toInt - y.toInt) :
    subSigned? x y = some (x - y) :=
  signed64?_eq_some_iff.mpr h.symm

theorem mulSigned?_eq {x y : Int64} (h : (x * y).toInt = x.toInt * y.toInt) :
    mulSigned? x y = some (x * y) :=
  signed64?_eq_some_iff.mpr h.symm

theorem shiftLeftSigned?_eq {x y : Int64} {k : Nat} (h : y.toInt = x.toInt * 2 ^ k) :
    shiftLeftSigned? x k = some y :=
  signed64?_eq_some_iff.mpr h.symm

theorem high51?_eq {x : UInt128} (h : x.high51.toNat = x.toNat / 0x8000000000000) :
    high51? x = some x.high51 :=
  word64?_eq_some_iff.mpr (by rw [h])

theorem narrow?_eq {x : UInt64} (h : x.toUInt32.toNat = x.toNat) :
    narrow? x = some x.toUInt32 :=
  word32?_eq_some_iff.mpr (by rw [h])

end CurveKeys.Words
