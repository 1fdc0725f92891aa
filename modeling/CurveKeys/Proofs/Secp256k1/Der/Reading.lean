import CurveKeys.Proofs.Der
import CurveKeys.Proofs.Secp256k1.Component
import CurveKeys.Proofs.Secp256k1.PublicKey
import CurveKeys.Secp256k1.Der

/-!
Reading signatures in DER. Exactly the encodings of two integers between 1 and the order are
accepted, encodings of other integers are told from strings that encode no pair, and every position
that the checks look at lies inside the string.
-/

namespace CurveKeys.Secp256k1.Signature
open Scalar (order)
open Der (IsInteger IsPair layout)

/-- What content stands for as a component: its integer if it is in range, or the reason why not. -/
theorem derComponent_eq (c : Component) (content : Bytes) :
    let v := Bytes.toNatBE content
    (order ≤ v → derComponent c content = .error (.overflowsOrder c)) ∧
      (v = 0 → derComponent c content = .error (.zeroComponent c)) ∧
      (InRange v → ∃ k : Scalar, k.toNat = v ∧ derComponent c content = .ok k) := by
  intro v
  have hv : Bytes.toNatBE (content.dropWhile (· == 0)) = v := Bytes.toNatBE_dropWhile content
  have hshort (h : v < order) : (content.dropWhile (· == 0)).length ≤ 32 :=
    Bytes.length_dropWhile_le (lt_trans h (by decide))
  obtain ⟨hover, hzero, hread⟩ := component_spec c (content.dropWhile (· == 0))
  rw [hv] at hover hzero hread
  exact ⟨fun h => hover (Or.inr h), fun h => hzero (hshort (by rw [h]; decide)) h,
    fun h => hread (hshort h.2) h⟩

/-- The limits on the length of an encoding. -/
def FitsDer (b : Bytes) : Prop := 8 ≤ b.length ∧ b.length ≤ 72

theorem ofDer_cons {tag length rTag rLength : UInt8} {rest : Bytes}
    (hfit : FitsDer (tag :: length :: rTag :: rLength :: rest)) :
    ofDer (tag :: length :: rTag :: rLength :: rest) =
      if tag ≠ Der.sequenceTag then .error .noSequenceTag
      else if length.toNat ≠ rest.length + 2 then .error .badSequenceLength
      else ofDerIntegers rTag rLength.toNat rest := by
  obtain ⟨hmin, hmax⟩ := hfit
  unfold ofDer
  rw [if_neg (not_lt.mpr hmin), if_neg (not_lt.mpr hmax)]
  rfl

/-- Past the checks on the structure only the values of the two integers matter. -/
theorem ofDer_layout {first second : Bytes} {r s : Nat} (hr : IsInteger first r)
    (hs : IsInteger second s) (hfit : FitsDer (layout first second)) :
    ofDer (layout first second) =
      (derComponent .r first >>= fun r => derComponent .s second >>= fun s => .ok ⟨r, s⟩) := by
  have hmax := hfit.2
  rw [Der.length_layout] at hmax
  have hrfault := (Der.integerFault?_eq_none_iff Der.integerTag first).mpr
    ⟨rfl, hr.value.symm ▸ hr⟩
  have hsfault := (Der.integerFault?_eq_none_iff Der.integerTag second).mpr
    ⟨rfl, hs.value.symm ▸ hs⟩
  have hrest : (first ++ Der.integerTag :: UInt8.ofNat second.length :: second).length =
      first.length + second.length + 2 := by
    simp only [List.length_append, List.length_cons]
    omega
  rw [layout, ofDer_cons hfit, if_neg (not_not.mpr rfl), Der.toNat_ofNat_length (by omega), hrest,
    if_neg (not_not.mpr (by omega)), Der.toNat_ofNat_length (by omega), ofDerIntegers,
    List.drop_left, List.take_left]
  dsimp only
  rw [Der.toNat_ofNat_length (by omega), if_neg (not_not.mpr rfl), hrfault, hsfault]

theorem inRange_of_not_or {v : Nat} (h : ¬ (order ≤ v ∨ v = 0)) : InRange v := by
  obtain ⟨hlt, hne⟩ := not_or.mp h
  exact ⟨Nat.one_le_iff_ne_zero.mpr hne, not_le.mp hlt⟩

/-- A pair of integers in range is read as a signature with these components. -/
theorem exists_ofDer_of_isPair {b : Bytes} {r s : Nat} (h : IsPair b r s) (hfit : FitsDer b)
    (hr : InRange r) (hs : InRange s) :
    ∃ g, ofDer b = .ok g ∧ g.r.toNat = r ∧ g.s.toNat = s := by
  obtain ⟨first, second, hfirst, hsecond, -, rfl⟩ := h
  obtain ⟨k, hk, hread⟩ := (derComponent_eq .r first).2.2 (hfirst.value.symm ▸ hr)
  obtain ⟨l, hl, hread'⟩ := (derComponent_eq .s second).2.2 (hsecond.value.symm ▸ hs)
  refine ⟨⟨k, l⟩, ?_, hk.trans hfirst.value, hl.trans hsecond.value⟩
  rw [ofDer_layout hfirst hsecond hfit, hread, hread', ok_bind, ok_bind]

/-- A pair of integers that are not both in range is invalid. -/
theorem ofDer_of_isPair_of_not {b : Bytes} {r s : Nat} (h : IsPair b r s) (hfit : FitsDer b)
    (hrs : ¬ (InRange r ∧ InRange s)) : ∃ e, ofDer b = .error e ∧ e.kind = .invalid := by
  obtain ⟨first, second, hfirst, hsecond, -, rfl⟩ := h
  obtain ⟨rover, rzero, rok⟩ := derComponent_eq .r first
  obtain ⟨sover, szero, -⟩ := derComponent_eq .s second
  rw [hfirst.value] at rover rzero rok
  rw [hsecond.value] at sover szero
  rw [ofDer_layout hfirst hsecond hfit]
  by_cases hr : order ≤ r ∨ r = 0
  · rcases hr with hr | hr
    · exact ⟨_, by rw [rover hr, error_bind], rfl⟩
    · exact ⟨_, by rw [rzero hr, error_bind], rfl⟩
  · obtain ⟨k, -, hk⟩ := rok (inRange_of_not_or hr)
    rw [hk, ok_bind]
    by_cases hs : order ≤ s ∨ s = 0
    · rcases hs with hs | hs
      · exact ⟨_, by rw [sover hs, error_bind], rfl⟩
      · exact ⟨_, by rw [szero hs, error_bind], rfl⟩
    · exact absurd ⟨inRange_of_not_or hr, inRange_of_not_or hs⟩ hrs

theorem kind_ofFault (c : Component) (fault : Der.IntegerFault) :
    (Error.ofFault c fault).kind = .malformed := by
  cases fault <;> rfl

/-- What stands after the first length is two integers, or the string is malformed. -/
theorem ofDerIntegers_cases (rTag : UInt8) (n : Nat) (rest : Bytes) :
    (∃ first second r s, IsInteger first r ∧ IsInteger second s ∧ first.length = n ∧
      rTag = Der.integerTag ∧ second.length < 256 ∧
      rest = first ++ Der.integerTag :: UInt8.ofNat second.length :: second) ∨
    ∃ e, ofDerIntegers rTag n rest = .error e ∧ e.kind = .malformed := by
  unfold ofDerIntegers
  match hd : rest.drop n with
  | [] => exact Or.inr ⟨_, rfl, rfl⟩
  | [_] => exact Or.inr ⟨_, rfl, rfl⟩
  | sTag :: sLength :: second =>
      dsimp only
      by_cases hl : second.length = sLength.toNat
      · rw [if_neg (not_not.mpr hl)]
        cases hr : Der.integerFault? rTag (rest.take n) with
        | some fault => exact Or.inr ⟨_, rfl, kind_ofFault _ _⟩
        | none =>
            cases hs : Der.integerFault? sTag second with
            | some fault => exact Or.inr ⟨_, rfl, kind_ofFault _ _⟩
            | none =>
                obtain ⟨rfl, hfirst⟩ := (Der.integerFault?_eq_none_iff _ _).mp hr
                obtain ⟨rfl, hsecond⟩ := (Der.integerFault?_eq_none_iff _ _).mp hs
                have hn : n ≤ rest.length := by
                  by_contra hlt
                  rw [List.drop_eq_nil_of_le (not_le.mp hlt).le] at hd
                  exact nomatch hd
                have hsl := sLength.toNat_lt
                refine Or.inl ⟨rest.take n, second, _, _, hfirst, hsecond,
                  List.length_take_of_le hn, rfl, by omega, ?_⟩
                rw [hl, UInt8.ofNat_toNat, ← hd, List.take_append_drop]
      · rw [if_pos hl]
        exact Or.inr ⟨_, rfl, rfl⟩

/-- Every string within the limits encodes two integers or is malformed. -/
theorem isPair_or_malformed {b : Bytes} (hfit : FitsDer b) :
    (∃ r s, IsPair b r s) ∨ ∃ e, ofDer b = .error e ∧ e.kind = .malformed := by
  match b with
  | tag :: length :: rTag :: rLength :: rest =>
      have hmax := hfit.2
      rw [ofDer_cons hfit]
      by_cases ht : tag = Der.sequenceTag
      · rw [if_neg (not_not.mpr ht)]
        by_cases hl : length.toNat = rest.length + 2
        · rw [if_neg (not_not.mpr hl)]
          rcases ofDerIntegers_cases rTag rLength.toNat rest with h | h
          · obtain ⟨first, second, r, s, hr, hs, hn, rfl, -, rfl⟩ := h
            simp only [List.length_append, List.length_cons] at hl hmax
            have htotal : 4 + first.length + second.length = length.toNat := by omega
            refine Or.inl ⟨r, s, first, second, hr, hs, by omega, ?_⟩
            rw [layout, htotal, hn, UInt8.ofNat_toNat, UInt8.ofNat_toNat, ht]
          · exact Or.inr h
        · rw [if_pos hl]
          exact Or.inr ⟨_, rfl, rfl⟩
      · rw [if_pos ht]
        exact Or.inr ⟨_, rfl, rfl⟩
  | [] | [_] | [_, _] | [_, _, _] => exact absurd hfit.1 (by simp)

theorem malformed_of_not_fits {b : Bytes} (h : ¬ FitsDer b) :
    ∃ e, ofDer b = .error e ∧ e.kind = .malformed := by
  unfold ofDer
  by_cases hmin : b.length < 8
  · exact ⟨_, if_pos hmin, rfl⟩
  · by_cases hmax : 72 < b.length
    · rw [if_neg hmin]
      exact ⟨_, if_pos hmax, rfl⟩
    · exact absurd ⟨not_lt.mp hmin, not_lt.mp hmax⟩ h

/-- Integers of at most 33 bytes each leave the encoding within the limits. -/
theorem fitsDer_of_isPair {b : Bytes} {r s : Nat} (h : IsPair b r s) (hr : r < order)
    (hs : s < order) : FitsDer b := by
  obtain ⟨first, second, hfirst, hsecond, -, rfl⟩ := h
  have hn : 2 * order < 256 ^ 33 := by decide
  have hl := hfirst.length_le (n := 33) (by decide) (by omega)
  have hl' := hsecond.length_le (n := 33) (by decide) (by omega)
  have hpos := hfirst.nonempty
  have hpos' := hsecond.nonempty
  rw [FitsDer, Der.length_layout]
  omega

/-- What is left to read once the sequence has been checked, by positions of the whole string. -/
def integersAt? (b : Bytes) : Option (Except Error Signature) := do
  let rLength := (← b[3]?).toNat
  let sTagAt := 4 + rLength
  if b.length ≤ sTagAt then return .error .missingSTag
  if b.length ≤ sTagAt + 1 then return .error .missingSLength
  let sLength := (← b[sTagAt + 1]?).toNat
  let sAt := sTagAt + 2
  if sAt + sLength ≠ b.length then return .error .badSLength
  if let some fault ← Der.faultAt? b 2 4 rLength then return .error (.ofFault .r fault)
  if let some fault ← Der.faultAt? b sTagAt sAt sLength then return .error (.ofFault .s fault)
  let r ← Der.slice? b 4 sTagAt
  let s ← Der.slice? b sAt b.length
  return do
    let r ← derComponent .r r
    let s ← derComponent .s s
    .ok ⟨r, s⟩

/-- The checks as they are made on positions of the string. A position outside of the string would
leave them without a result. -/
def ofDerAt? (b : Bytes) : Option (Except Error Signature) := do
  if b.length < 8 then return .error .signatureTooShort
  if 72 < b.length then return .error .signatureTooLong
  if (← b[0]?) ≠ Der.sequenceTag then return .error .noSequenceTag
  if (← b[1]?).toNat ≠ b.length - 2 then return .error .badSequenceLength
  integersAt? b

section Positions
variable {b first second : Bytes} {sTag sLength : UInt8}

theorem drop_second (h : b.drop 4 = first ++ sTag :: sLength :: second) :
    b.drop (4 + first.length + 2) = second := by
  rw [Nat.add_assoc, ← List.drop_drop, h, List.drop_length_add_append]
  rfl

theorem getElem?_second (h : b.drop 4 = first ++ sTag :: sLength :: second) (i : Nat) :
    b[4 + first.length + i]? = (sTag :: sLength :: second)[i]? := by
  rw [Nat.add_assoc, ← List.getElem?_drop, h, List.getElem?_append_right (by omega),
    Nat.add_sub_cancel_left]

theorem slice?_first (h : b.drop 4 = first ++ sTag :: sLength :: second)
    (hlen : 4 + first.length ≤ b.length) : Der.slice? b 4 (4 + first.length) = some first := by
  rw [Der.slice?, if_pos (by omega), List.drop_take, h, Nat.add_sub_cancel_left, List.take_left]

theorem slice?_second (h : b.drop 4 = first ++ sTag :: sLength :: second)
    (hlen : 4 + first.length + 2 ≤ b.length) :
    Der.slice? b (4 + first.length + 2) b.length = some second := by
  rw [Der.slice?, if_pos (by omega), List.take_length, drop_second h]

/-- With both tags and lengths inside the string every position that is read is inside it. -/
theorem integersAt?_split {rTag rLength : UInt8} (hRTag : b[2]? = some rTag)
    (hRLength : b[3]? = some rLength) (hn : first.length = rLength.toNat)
    (h : b.drop 4 = first ++ sTag :: sLength :: second) :
    integersAt? b = some (ofDerIntegers rTag rLength.toNat (b.drop 4)) := by
  have hlength : b.length = 4 + first.length + 2 + second.length := by
    have hdrop := congrArg List.length h
    rw [List.length_drop, List.length_append, List.length_cons, List.length_cons] at hdrop
    omega
  -- what is read from the whole string, once for each position
  have hat := getElem?_second h
  have hSLength : b[4 + first.length + 1]? = some sLength := hat 1
  have hRFault : Der.faultAt? b 2 4 first.length = some (Der.integerFault? rTag first) :=
    Der.faultAt?_eq hRTag (h ▸ List.prefix_append first _)
  have hSFault : Der.faultAt? b (4 + first.length) (4 + first.length + 2) second.length =
      some (Der.integerFault? sTag second) :=
    Der.faultAt?_eq (hat 0) (drop_second h ▸ List.prefix_refl second)
  have hR := slice?_first h (by omega)
  have hS := slice?_second h (by omega)
  have htag : ¬ b.length ≤ 4 + first.length := by omega
  have hfirst : ¬ b.length ≤ 4 + first.length + 1 := by omega
  rw [h, ← hn, ofDerIntegers, List.drop_left, List.take_left]
  unfold integersAt?
  by_cases hl : second.length = sLength.toNat
  · have hall : 4 + first.length + 2 + sLength.toNat = b.length := by omega
    rw [hl] at hSFault
    cases hr : Der.integerFault? rTag first <;> cases hs : Der.integerFault? sTag second <;>
      simp [hRLength, ← hn, htag, hfirst, hall, hSLength, hl, hRFault, hSFault, hR, hS, hr, hs]
  · have hall : 4 + first.length + 2 + sLength.toNat ≠ b.length := by omega
    simp [hRLength, ← hn, htag, hfirst, hSLength, hl, hall]

end Positions

theorem integersAt?_eq {b : Bytes} {rTag rLength : UInt8} (hRTag : b[2]? = some rTag)
    (hRLength : b[3]? = some rLength) :
    integersAt? b = some (ofDerIntegers rTag rLength.toNat (b.drop 4)) := by
  have hlast := List.length_drop (i := 4) (l := b)
  have hdrop := List.length_drop (i := rLength.toNat) (l := b.drop 4)
  have hmin : 3 < b.length := (List.getElem?_eq_some_iff.mp hRLength).1
  cases hd : (b.drop 4).drop rLength.toNat with
  | nil =>
      rw [hd, List.length_nil] at hdrop
      have hnone : b.length ≤ 4 + rLength.toNat := by omega
      simp [integersAt?, ofDerIntegers, hRLength, hnone, hd]
  | cons sTag tail =>
      cases tail with
      | nil =>
          rw [hd, List.length_singleton] at hdrop
          have hsome : ¬ b.length ≤ 4 + rLength.toNat := by omega
          have hone : b.length ≤ 4 + rLength.toNat + 1 := by omega
          simp [integersAt?, ofDerIntegers, hRLength, hsome, hone, hd]
      | cons sLength second =>
          rw [hd, List.length_cons, List.length_cons] at hdrop
          have hn : ((b.drop 4).take rLength.toNat).length = rLength.toNat :=
            List.length_take_of_le (by omega)
          have hsplit := (List.take_append_drop rLength.toNat (b.drop 4)).symm
          rw [hd] at hsplit
          exact integersAt?_split hRTag hRLength hn hsplit

theorem ofDerAt?_eq (b : Bytes) : ofDerAt? b = some (ofDer b) := by
  unfold ofDerAt? ofDer
  by_cases hmin : b.length < 8
  · rw [if_pos hmin, if_pos hmin]
    rfl
  rw [if_neg hmin, if_neg hmin]
  by_cases hmax : 72 < b.length
  · rw [if_pos hmax, if_pos hmax]
    rfl
  rw [if_neg hmax, if_neg hmax]
  match b with
  | tag :: length :: rTag :: rLength :: rest =>
      by_cases ht : tag = Der.sequenceTag
      · by_cases hl : length.toNat = rest.length + 2
        · have hrest := integersAt?_eq (b := Der.sequenceTag :: length :: rTag :: rLength :: rest)
            rfl rfl
          simpa [ht, hl] using hrest
        · simp [ht, hl]
      · simp [ht]
  | [] | [_] | [_, _] | [_, _, _] => exact absurd hmin (by simp)

/-- A string encodes two integers in range, other integers, or no pair within the limits. -/
theorem ofDer_cases (b : Bytes) :
    (∃ g, ofDer b = .ok g ∧
      IsPair b g.r.toNat g.s.toNat ∧ InRange g.r.toNat ∧ InRange g.s.toNat) ∨
    (∃ e, ofDer b = .error e ∧ e.kind = .invalid ∧
      FitsDer b ∧ ∃ r s, IsPair b r s ∧ ¬ (InRange r ∧ InRange s)) ∨
    (∃ e, ofDer b = .error e ∧ e.kind = .malformed ∧ ¬ (FitsDer b ∧ ∃ r s, IsPair b r s)) := by
  by_cases h : FitsDer b ∧ ∃ r s, IsPair b r s
  · obtain ⟨hfit, r, s, hpair⟩ := h
    by_cases hrs : InRange r ∧ InRange s
    · obtain ⟨g, hg, rfl, rfl⟩ := exists_ofDer_of_isPair hpair hfit hrs.1 hrs.2
      exact Or.inl ⟨g, hg, hpair, hrs⟩
    · obtain ⟨e, he, hkind⟩ := ofDer_of_isPair_of_not hpair hfit hrs
      exact Or.inr (Or.inl ⟨e, he, hkind, hfit, r, s, hpair, hrs⟩)
  · have hmalformed : ∃ e, ofDer b = .error e ∧ e.kind = .malformed := by
      by_cases hfit : FitsDer b
      · exact (isPair_or_malformed hfit).resolve_left fun hpair => h ⟨hfit, hpair⟩
      · exact malformed_of_not_fits hfit
    obtain ⟨e, he, hkind⟩ := hmalformed
    exact Or.inr (Or.inr ⟨e, he, hkind, h⟩)

theorem eq_of_toNat_eq {g h : Signature} (hr : g.r.toNat = h.r.toNat)
    (hs : g.s.toNat = h.s.toNat) : g = h := by
  cases g
  cases h
  rw [mk.injEq]
  exact ⟨Scalar.eq_of_toNat_eq hr, Scalar.eq_of_toNat_eq hs⟩

theorem ofDer_eq_ok_iff (b : Bytes) (g : Signature) :
    ofDer b = .ok g ↔ IsPair b g.r.toNat g.s.toNat ∧ InRange g.r.toNat ∧ InRange g.s.toNat := by
  constructor
  · intro h
    rcases ofDer_cases b with ⟨g', hg, hpair⟩ | ⟨e, he, -⟩ | ⟨e, he, -⟩
    · obtain rfl := Except.ok.inj (hg.symm.trans h)
      exact hpair
    · exact nomatch he.symm.trans h
    · exact nomatch he.symm.trans h
  · intro h
    obtain ⟨hpair, hr, hs⟩ := h
    obtain ⟨g', hg, hr', hs'⟩ :=
      exists_ofDer_of_isPair hpair (fitsDer_of_isPair hpair hr.2 hs.2) hr hs
    rw [hg, eq_of_toNat_eq hr' hs']

/-- Reading never leaves the string, accepts exactly the encodings of two integers in range, calls
other pairs of integers invalid, and everything else malformed. -/
theorem ofDer_classifies (b : Bytes) :
    ofDerAt? b = some (ofDer b) ∧
      (∀ g : Signature, ofDer b = .ok g ↔
        IsPair b g.r.toNat g.s.toNat ∧ InRange g.r.toNat ∧ InRange g.s.toNat) ∧
      ((∃ e, ofDer b = .error e ∧ e.kind = .invalid) ↔
        FitsDer b ∧ ∃ r s, IsPair b r s ∧ ¬ (InRange r ∧ InRange s)) ∧
      ((∃ e, ofDer b = .error e ∧ e.kind = .malformed) ↔
        ¬ (FitsDer b ∧ ∃ r s, IsPair b r s)) := by
  refine ⟨ofDerAt?_eq b, ofDer_eq_ok_iff b, ?_⟩
  rcases ofDer_cases b with ⟨g, hg, hpair, hr, hs⟩ | ⟨e, he, hk, hfit, r, s, hpair, hrs⟩ |
    ⟨e, he, hk, hnone⟩
  · have hfit := fitsDer_of_isPair hpair hr.2 hs.2
    simp only [hg, reduceCtorEq, false_and, exists_false, false_iff]
    refine ⟨fun h => ?_, not_not.mpr ⟨hfit, _, _, hpair⟩⟩
    obtain ⟨-, r, s, hpair', hrs⟩ := h
    obtain ⟨rfl, rfl⟩ := hpair.values hpair'
    exact hrs ⟨hr, hs⟩
  · simp only [he, Except.error.injEq, exists_eq_left', hk, reduceCtorEq, true_iff, false_iff]
    exact ⟨⟨hfit, r, s, hpair, hrs⟩, not_not.mpr ⟨hfit, r, s, hpair⟩⟩
  · simp only [he, Except.error.injEq, exists_eq_left', hk, reduceCtorEq, true_iff, false_iff]
    refine ⟨fun h => hnone ?_, hnone⟩
    obtain ⟨hfit, r, s, hpair, -⟩ := h
    exact ⟨hfit, r, s, hpair⟩

end CurveKeys.Secp256k1.Signature
