import CurveKeys.Proofs.Edwards25519.Field.Checked

/-!
Expressions over the field. An expression is evaluated in three ways: in wrapping words, in checked
words, and over the residues. The two kinds of words always give one and the same element within the
bound on limbs, whose bytes spell the residue; so equality of elements is congruence.
-/

namespace CurveKeys.Edwards25519

inductive FieldConstant where
  | zero
  | one
  | minusOne
  | sqrtMinusOne
  | d
  | twiceD

namespace FieldConstant
open FieldElement (prime rootMinusOne Denotes)

def element : FieldConstant → FieldElement
  | zero => .zero
  | one => .one
  | minusOne => .minusOne
  | sqrtMinusOne => .sqrtMinusOne
  | d => .d
  | twiceD => .twiceD

def value : FieldConstant → ZMod prime
  | zero => 0
  | one => 1
  | minusOne => -1
  | sqrtMinusOne => rootMinusOne
  | d => -121665 / 121666
  | twiceD => -243330 / 121666

theorem denominator_ne_zero : (121666 : ZMod prime) ≠ 0 := by decide +kernel

theorem residue_d : FieldElement.d.residue = -121665 / 121666 := by
  rw [eq_div_iff denominator_ne_zero]
  decide +kernel

theorem residue_twiceD : FieldElement.twiceD.residue = -243330 / 121666 := by
  rw [eq_div_iff denominator_ne_zero]
  decide +kernel

theorem denotes_element (c : FieldConstant) : c.element.Denotes c.value := by
  cases c with
  | zero => exact FieldElement.denotes_zero
  | one => exact FieldElement.denotes_one
  | minusOne => exact ⟨by decide, by decide +kernel⟩
  | sqrtMinusOne => exact FieldElement.denotes_sqrtMinusOne
  | d => exact ⟨by decide, residue_d⟩
  | twiceD => exact ⟨by decide, residue_twiceD⟩

end FieldConstant

/-- Operations on 32 bytes and constants, nested in any way. A swap has two results. -/
inductive FieldExpression where
  | ofBytes (b : Vector UInt8 32)
  | constant (c : FieldConstant)
  | add (e f : FieldExpression)
  | sub (e f : FieldExpression)
  | negate (e : FieldExpression)
  | mul (e f : FieldExpression)
  | square (e : FieldExpression)
  | invert (e : FieldExpression)
  | rootPower (e : FieldExpression)
  | abs (e : FieldExpression)
  | select (e f : FieldExpression) (flag : Bool)
  | negateIf (e : FieldExpression) (flag : Bool)
  | swapFirst (e f : FieldExpression) (flag : Bool)
  | swapSecond (e f : FieldExpression) (flag : Bool)

namespace FieldExpression
open FieldElement

/-- What the operations do to values of one kind. -/
structure Interpretation (α : Type) where
  ofBytes : Vector UInt8 32 → α
  constant : FieldConstant → α
  add : α → α → α
  sub : α → α → α
  negate : α → α
  mul : α → α → α
  square : α → α
  invert : α → α
  rootPower : α → α
  abs : α → α
  select : α → α → Bool → α
  negateIf : α → Bool → α
  swapIf : α → α → Bool → α × α

def eval {α : Type} (I : Interpretation α) : FieldExpression → α
  | ofBytes b => I.ofBytes b
  | constant c => I.constant c
  | add e f => I.add (e.eval I) (f.eval I)
  | sub e f => I.sub (e.eval I) (f.eval I)
  | negate e => I.negate (e.eval I)
  | mul e f => I.mul (e.eval I) (f.eval I)
  | square e => I.square (e.eval I)
  | invert e => I.invert (e.eval I)
  | rootPower e => I.rootPower (e.eval I)
  | abs e => I.abs (e.eval I)
  | select e f flag => I.select (e.eval I) (f.eval I) flag
  | negateIf e flag => I.negateIf (e.eval I) flag
  | swapFirst e f flag => (I.swapIf (e.eval I) (f.eval I) flag).1
  | swapSecond e f flag => (I.swapIf (e.eval I) (f.eval I) flag).2

/-- The operations as they are. -/
def words : Interpretation FieldElement where
  ofBytes := FieldElement.ofBytes
  constant := FieldConstant.element
  add := FieldElement.add
  sub := FieldElement.sub
  negate := FieldElement.negate
  mul := FieldElement.mul
  square := FieldElement.square
  invert := FieldElement.invert
  rootPower := FieldElement.rootPower
  abs := FieldElement.abs
  select := CurveKeys.select
  negateIf := FieldElement.negateIf
  swapIf := FieldElement.swapIf

/-- The operations without a result where a word would wrap or a limb pass the bound. Reading bytes,
choosing and swapping only move bits. -/
def checked : Interpretation (Option FieldElement) where
  ofBytes b := (FieldElement.ofBytes b).bounded?
  constant c := c.element.bounded?
  add x y := do (← x).add? (← y)
  sub x y := do (← x).sub? (← y)
  negate x := do (← x).negate?
  mul x y := do (← x).mul? (← y)
  square x := do (← x).square?
  invert x := do (← x).invert?
  rootPower x := do (← x).rootPower?
  abs x := do (← x).abs?
  select x y flag := do (CurveKeys.select (← x) (← y) flag).bounded?
  negateIf x flag := do (← x).negateIf? flag
  swapIf x y flag :=
    (do ((← x).swapIf (← y) flag).1.bounded?, do ((← x).swapIf (← y) flag).2.bounded?)

/-- The operations of the prime field. -/
def residues : Interpretation (ZMod prime) where
  ofBytes b := (Bytes.toNatLE b.toList % 2 ^ 255 : Nat)
  constant := FieldConstant.value
  add v w := v + w
  sub v w := v - w
  negate v := -v
  mul v w := v * w
  square v := v ^ 2
  invert v := v⁻¹
  rootPower v := v ^ (2 ^ 252 - 3)
  abs := evenRoot
  select v w flag := if flag then w else v
  negateIf v flag := if flag then -v else v
  swapIf v w flag := if flag then (w, v) else (v, w)

variable {c c' : Option FieldElement} {a b : FieldElement} {v w : ZMod prime}

/-- The checked computation gives the element, and the element denotes the residue. -/
structure Agree (c : Option FieldElement) (a : FieldElement) (v : ZMod prime) : Prop where
  checked : c = some a
  denotes : a.Denotes v

theorem agree_bounded (ha : a.Denotes v) : Agree a.bounded? a v :=
  ⟨bounded?_eq ha.carried, ha⟩

theorem agree_bind {f : FieldElement → Option FieldElement} (h : Agree c a v)
    (hf : a.Denotes v → Agree (f a) b w) : Agree (c >>= f) b w := by
  rw [Words.bind_eq_of_eq_some h.checked]
  exact hf h.denotes

theorem agree_swapIf (flag : Bool) (ha : Agree c a v) (hb : Agree c' b w) :
    Agree (checked.swapIf c c' flag).1 (words.swapIf a b flag).1 (residues.swapIf v w flag).1 ∧
      Agree (checked.swapIf c c' flag).2 (words.swapIf a b flag).2
        (residues.swapIf v w flag).2 := by
  obtain ⟨rfl, ha⟩ := ha
  obtain ⟨rfl, hb⟩ := hb
  cases flag with
  | false => exact ⟨agree_bounded ha, agree_bounded hb⟩
  | true => exact ⟨agree_bounded hb, agree_bounded ha⟩

theorem agree_eval (e : FieldExpression) :
    Agree (e.eval checked) (e.eval words) (e.eval residues) := by
  induction e with
  | ofBytes b => exact agree_bounded (denotes_ofBytes b)
  | constant c => exact agree_bounded c.denotes_element
  | add e f he hf =>
      exact agree_bind he fun ha => agree_bind hf fun hb =>
        ⟨add?_eq ha.carried hb.carried, denotes_add ha hb⟩
  | sub e f he hf =>
      exact agree_bind he fun ha => agree_bind hf fun hb =>
        ⟨sub?_eq ha.carried hb.carried, denotes_sub ha hb⟩
  | negate e he =>
      exact agree_bind he fun ha => ⟨negate?_eq ha.carried, denotes_negate ha⟩
  | mul e f he hf =>
      exact agree_bind he fun ha => agree_bind hf fun hb =>
        ⟨mul?_eq ha.carried hb.carried, denotes_mul ha hb⟩
  | square e he =>
      exact agree_bind he fun ha => ⟨square?_eq ha.carried, denotes_square ha⟩
  | invert e he =>
      exact agree_bind he fun ha => ⟨invert?_eq ha.carried, denotes_invert ha⟩
  | rootPower e he =>
      -- by its equations: a conversion would unfold the power as well
      rw [eval, eval, eval]
      exact agree_bind he fun ha => ⟨rootPower?_eq ha.carried, denotes_rootPower_pow ha⟩
  | abs e he =>
      exact agree_bind he fun ha => ⟨abs?_eq ha.carried, denotes_abs ha⟩
  | select e f flag he hf =>
      exact agree_bind he fun ha => agree_bind hf fun hb =>
        agree_bounded (denotes_select flag ha hb)
  | negateIf e flag he =>
      exact agree_bind he fun ha => ⟨negateIf?_eq ha.carried flag, denotes_negateIf ha flag⟩
  | swapFirst e f flag he hf => exact (agree_swapIf flag he hf).1
  | swapSecond e f flag he hf => exact (agree_swapIf flag he hf).2

/-- Every element that an expression gives keeps to the bound. -/
theorem carried_eval (e : FieldExpression) : (e.eval words).Carried :=
  (agree_eval e).denotes.carried

/-- An element is the exact image of a residue: checked words compute it and its bytes, which are
those of the least representative of the residue, and its square is its product with itself. -/
structure Image (c : Option FieldElement) (a : FieldElement) (v : ZMod prime) : Prop where
  checked : c = some a
  carried : a.Carried
  toBytes : a.toBytes? = some a.toBytes
  spells : Bytes.toNatLE a.toBytes.toList = v.val
  canonical : Bytes.toNatLE a.toBytes.toList < prime
  square : a.square = a.mul a

theorem Agree.image (h : Agree c a v) : Image c a v := by
  have hbytes := toNatLE_toBytes h.denotes.residue
  exact
    { checked := h.checked
      carried := h.denotes.carried
      toBytes := toBytes?_eq a
      spells := hbytes
      canonical := hbytes.trans_lt (ZMod.val_lt v)
      square := square_eq_mul h.denotes.carried }

theorem beq_iff_modEq (a b : FieldElement) : (a == b) = true ↔ a.toNat ≡ b.toNat [MOD prime] :=
  (beq_iff rfl rfl).trans (ZMod.natCast_eq_natCast_iff _ _ _)

/-- Evaluation never leaves a word nor the bound on limbs, its result is the exact image of the
residue, and two results are equal exactly when they are congruent. -/
theorem eval_exact (e f : FieldExpression) :
    Image (e.eval checked) (e.eval words) (e.eval residues) ∧
      (e.eval words).same? (f.eval words) = some (e.eval words == f.eval words) ∧
      ((e.eval words == f.eval words) = true ↔
        (e.eval words).toNat ≡ (f.eval words).toNat [MOD prime]) ∧
      ((e.eval words == f.eval words) = true ↔ e.eval residues = f.eval residues) ∧
      prime = 2 ^ 255 - 19 ∧ rootMinusOne ^ 2 = -1 ∧ rootMinusOne.val % 2 = 0 := by
  have he := agree_eval e
  have hf := agree_eval f
  exact ⟨he.image, same?_eq _ _, beq_iff_modEq _ _,
    beq_iff he.denotes.residue hf.denotes.residue, by decide, sq_rootMinusOne, by decide +kernel⟩

end FieldExpression

end CurveKeys.Edwards25519
