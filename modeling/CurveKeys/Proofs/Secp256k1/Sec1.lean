import CurveKeys.Proofs.Secp256k1.Derivation

/-!
The byte forms of public keys. A string is read exactly when it is one of the forms of a point of
the curve; what was read is written back as the same string in the same form, and what was written
is read back in every form.
-/

namespace CurveKeys.Secp256k1

open FieldElement Curve

/-- The 32 bytes that spell a residue. -/
structure IsCoordinate (b : Bytes) (x : ZMod prime) : Prop where
  length : b.length = 32
  value : Bytes.toNatBE b = x.val

theorem IsCoordinate.unique {b c : Bytes} {x : ZMod prime} (hb : IsCoordinate b x)
    (hc : IsCoordinate c x) : b = c :=
  Bytes.eq_of_toNatBE_eq (hb.length.trans hc.length.symm) (hb.value.trans hc.value.symm)

theorem isCoordinate_toBytes {a : FieldElement} (h : a.Canonical) :
    IsCoordinate a.toBytes.toList a.residue :=
  ⟨a.toBytes.length_toList, (toNatBE_toBytes h).trans (val_residue h).symm⟩

theorem IsCoordinate.exists_canonical {b : Bytes} {x : ZMod prime} (h : IsCoordinate b x) :
    ∃ a : FieldElement, a.Canonical ∧ a.residue = x := by
  refine ⟨_, canonical_reduceBytes (b.window 32), ?_⟩
  rw [(denotes_reduceBytes _).residue, Bytes.toList_window_of_length h.length, h.value,
    ZMod.natCast_zmod_val]

/-- The encodings of the points other than infinity: compressed, uncompressed and hybrid. -/
inductive IsSec1 : Bytes → Prop where
  | compressed {tag : UInt8} {b : Bytes} {x : ZMod prime} (htag : tag = 2 ∨ tag = 3)
      (hx : IsCoordinate b x) (h : IsSquare (x ^ 3 + 7)) : IsSec1 (tag :: b)
  | uncompressed {b c : Bytes} {x y : ZMod prime} (hx : IsCoordinate b x) (hy : IsCoordinate c y)
      (h : y ^ 2 = x ^ 3 + 7) : IsSec1 (4 :: (b ++ c))
  | hybrid {tag : UInt8} {b c : Bytes} {x y : ZMod prime}
      (htag : tag = 6 ∧ y.val % 2 = 0 ∨ tag = 7 ∧ y.val % 2 = 1) (hx : IsCoordinate b x)
      (hy : IsCoordinate c y) (h : y ^ 2 = x ^ 3 + 7) : IsSec1 (tag :: (b ++ c))

/-- The length is that of an encoding, and the first byte is one that goes with the length. -/
def HasForm (b : Bytes) : Prop :=
  (b.length = 33 ∧ (b.head? = some 2 ∨ b.head? = some 3)) ∨
  (b.length = 65 ∧ (b.head? = some 4 ∨ b.head? = some 6 ∨ b.head? = some 7))

theorem hasForm_cons (tag : UInt8) (body : Bytes) :
    HasForm (tag :: body) ↔ (body.length = 32 ∧ (tag = 2 ∨ tag = 3)) ∨
      (body.length = 64 ∧ (tag = 4 ∨ tag = 6 ∨ tag = 7)) := by
  simp [HasForm]

namespace PublicKey

theorem coordinate_eq_ok_iff {b : Bytes} (hb : b.length = 32) {a : FieldElement} :
    coordinate b = .ok a ↔ a.Canonical ∧ IsCoordinate b a.residue := by
  have hover := reduceBytes_overflow_iff (b.window 32)
  have hc := canonical_reduceBytes (b.window 32)
  have hr := (denotes_reduceBytes (b.window 32)).residue
  rw [Bytes.toList_window_of_length hb] at hover hr
  unfold coordinate reduceSlice
  generalize reduceBytes (b.window 32) = reduced at hover hc hr
  obtain ⟨v, overflow⟩ := reduced
  cases overflow with
  | true =>
      refine iff_of_false (fun e => nomatch e) fun ⟨_, hcoord⟩ => ?_
      have hlt := ZMod.val_lt a.residue
      rw [← hcoord.value] at hlt
      exact absurd (hover.mp rfl) (not_le.mpr hlt)
  | false =>
      have hlt : Bytes.toNatBE b < prime := not_le.mp fun e => Bool.noConfusion (hover.mpr e)
      constructor
      · intro e
        obtain rfl := Except.ok.inj e
        refine ⟨hc, hb, ?_⟩
        rw [hr, ZMod.val_natCast_of_lt hlt]
      · rintro ⟨ha, hcoord⟩
        refine congrArg Except.ok (eq_of_residue_eq hc ha (hr.trans ?_))
        rw [hcoord.value, ZMod.natCast_zmod_val]

theorem coordinate_eq_error {b : Bytes} {e : Error} (h : coordinate b = .error e) :
    e = .coordinateOverflow := by
  unfold coordinate at h
  generalize reduceSlice b = reduced at h
  obtain ⟨v, overflow⟩ := reduced
  cases overflow with
  | true => exact (Except.error.inj h).symm
  | false => exact nomatch h

theorem Denotes.coordinates {key : PublicKey} {x y : ZMod prime} {h : y ^ 2 = x ^ 3 + 7}
    (hkey : key.Denotes (Curve.point x y h)) :
    key.point.x.Canonical ∧ key.point.y.Canonical ∧ key.point.x.residue = x ∧
      key.point.y.residue = y := by
  obtain ⟨x', y', hxy, e, cx, cy, rx, ry⟩ :=
    AffinePoint.exists_coordinates hkey.point hkey.ne_zero
  rw [Curve.point, WeierstrassCurve.Affine.Point.some.injEq] at e
  exact ⟨cx, cy, rx.trans e.1.symm, ry.trans e.2.symm⟩

theorem Denotes.exists_point {key : PublicKey} {Q : Point} (h : key.Denotes Q) :
    ∃ x y e, key.Denotes (Curve.point x y e) := by
  obtain ⟨x, y, hxy, rfl, -⟩ := AffinePoint.exists_coordinates h.point h.ne_zero
  exact ⟨x, y, (nonsingular_iff x y).mp hxy, h⟩

theorem ofCompressed_iff {tag : UInt8} {b : Bytes} (hb : b.length = 32) {key : PublicKey} :
    ofCompressed tag b = .ok key ↔ (tag = 2 ∨ tag = 3) ∧ ∃ x y e, IsCoordinate b x ∧
      key.Denotes (Curve.point x y e) ∧ decide (y.val % 2 = 1) = decide (tag = 3) := by
  rw [ofCompressed_eq_ok_iff]
  refine and_congr_right fun _ => ⟨?_, ?_⟩
  · rintro ⟨a, ha, hp⟩
    obtain ⟨ca, hcoord⟩ := (coordinate_eq_ok_iff hb).mp ha
    obtain ⟨y, e, hd, hodd⟩ := AffinePoint.denotes_of_decompress? ca.denotes (by decide) hp
    exact ⟨_, y, e, hcoord, ⟨hd, WeierstrassCurve.Affine.Point.some_ne_zero _⟩, hodd⟩
  · rintro ⟨x, y, e, hx, hkey, hodd⟩
    obtain ⟨cx, -, rx, -⟩ := hkey.coordinates
    refine ⟨key.point.x, (coordinate_eq_ok_iff hb).mpr ⟨cx, rx ▸ hx⟩, ?_⟩
    rw [← hodd]
    exact AffinePoint.decompress?_eq hkey.point

theorem ofUncompressed_iff {tag : UInt8} {b c : Bytes} (hb : b.length = 32) (hc : c.length = 32)
    {key : PublicKey} :
    ofUncompressed tag b c = .ok key ↔ (tag = 4 ∨ tag = 6 ∨ tag = 7) ∧ ∃ x y e,
      IsCoordinate b x ∧ IsCoordinate c y ∧ key.Denotes (Curve.point x y e) ∧
      (tag = 4 ∨ decide (y.val % 2 = 1) = decide (tag = 7)) := by
  rw [ofUncompressed_eq_ok_iff]
  refine and_congr_right fun _ => ⟨?_, ?_⟩
  · rintro ⟨v, w, hv, hw, hparity, hp⟩
    obtain ⟨cv, hx⟩ := (coordinate_eq_ok_iff hb).mp hv
    obtain ⟨cw, hy⟩ := (coordinate_eq_ok_iff hc).mp hw
    obtain ⟨e, hd⟩ :=
      AffinePoint.denotes_ofCoordinates? cv.denotes cw.denotes (by decide) (by decide) hp
    rw [isOdd_eq cw] at hparity
    exact ⟨_, _, e, hx, hy, ⟨hd, WeierstrassCurve.Affine.Point.some_ne_zero _⟩, hparity⟩
  · rintro ⟨x, y, e, hx, hy, hkey, hparity⟩
    obtain ⟨cx, cy, rx, ry⟩ := hkey.coordinates
    refine ⟨key.point.x, key.point.y, (coordinate_eq_ok_iff hb).mpr ⟨cx, rx ▸ hx⟩,
      (coordinate_eq_ok_iff hc).mpr ⟨cy, ry ▸ hy⟩, ?_, AffinePoint.ofCoordinates?_eq hkey.point⟩
    rwa [isOdd_eq cy, ry]

/-- The uncompressed form with a tag that names the parity of the second coordinate. -/
def toHybrid (key : PublicKey) : Bytes :=
  (if key.point.y.isOdd then 7 else 6) :: (key.point.x.toBytes.toList ++ key.point.y.toBytes.toList)

section Writing
variable {key : PublicKey} {Q : Point}

theorem ofBytes_toCompressed (h : key.Denotes Q) : ofBytes key.toCompressed = .ok key := by
  obtain ⟨x, y, e, hkey⟩ := h.exists_point
  obtain ⟨cx, cy, rfl, rfl⟩ := hkey.coordinates
  have hx := isCoordinate_toBytes cx
  refine ofBytes_cons_eq_ok_iff.mpr (Or.inl ⟨hx.length, (ofCompressed_iff hx.length).mpr
    ⟨?_, _, _, e, hx, hkey, ?_⟩⟩)
  · split
    · exact Or.inr rfl
    · exact Or.inl rfl
  · rw [← isOdd_eq cy]
    cases key.point.y.isOdd <;> rfl

/-- Both coordinates are read back under every tag that does not contradict the parity. -/
theorem ofBytes_both_coordinates (h : key.Denotes Q) {tag : UInt8}
    (htag : tag = 4 ∨ tag = if key.point.y.isOdd then 7 else 6) :
    ofBytes (tag :: (key.point.x.toBytes.toList ++ key.point.y.toBytes.toList)) = .ok key := by
  obtain ⟨x, y, e, hkey⟩ := h.exists_point
  obtain ⟨cx, cy, rfl, rfl⟩ := hkey.coordinates
  have hx := isCoordinate_toBytes cx
  have hy := isCoordinate_toBytes cy
  refine ofBytes_cons_eq_ok_iff.mpr (Or.inr ⟨?_, ?_⟩)
  · rw [List.length_append, hx.length, hy.length]
  · rw [List.take_left' hx.length, List.drop_left' hx.length]
    refine (ofUncompressed_iff hx.length hy.length).mpr ⟨?_, _, _, e, hx, hy, hkey, ?_⟩
    · refine htag.imp_right fun htag => ?_
      rw [htag]
      cases key.point.y.isOdd
      · exact Or.inl rfl
      · exact Or.inr rfl
    · rw [← isOdd_eq cy]
      refine htag.imp_right fun htag => ?_
      rw [htag]
      cases key.point.y.isOdd <;> rfl

end Writing

section Reading
variable {b : Bytes} {key : PublicKey}

theorem exists_of_ofBytes_short (h : ofBytes b = .ok key) (hb : b.length = 33) :
    ∃ tag c x y e, b = tag :: c ∧ (tag = 2 ∨ tag = 3) ∧ IsCoordinate c x ∧
      key.Denotes (Curve.point x y e) ∧ decide (y.val % 2 = 1) = decide (tag = 3) := by
  obtain ⟨tag, c, rfl⟩ := List.exists_cons_of_length_eq_add_one hb
  have hc : c.length = 32 := Nat.succ.inj hb
  obtain ⟨-, h⟩ := (ofBytes_cons_eq_ok_iff.mp h).resolve_right fun e => by omega
  obtain ⟨htag, x, y, e, hx, hkey, hodd⟩ := (ofCompressed_iff hc).mp h
  exact ⟨tag, c, x, y, e, rfl, htag, hx, hkey, hodd⟩

theorem exists_of_ofBytes_long (h : ofBytes b = .ok key) (hb : b.length ≠ 33) :
    ∃ tag c d x y e, b = tag :: (c ++ d) ∧ (tag = 4 ∨ tag = 6 ∨ tag = 7) ∧ IsCoordinate c x ∧
      IsCoordinate d y ∧ key.Denotes (Curve.point x y e) ∧
      (tag = 4 ∨ decide (y.val % 2 = 1) = decide (tag = 7)) := by
  cases b with
  | nil => exact nomatch h
  | cons tag body =>
      obtain ⟨hbody, h⟩ := (ofBytes_cons_eq_ok_iff.mp h).resolve_left fun e =>
        hb (congrArg Nat.succ e.1)
      have htake : (body.take 32).length = 32 := List.length_take_of_le (by omega)
      have hdrop : (body.drop 32).length = 32 := by rw [List.length_drop, hbody]
      obtain ⟨htag, x, y, e, hx, hy, hkey, hparity⟩ := (ofUncompressed_iff htake hdrop).mp h
      exact ⟨tag, _, _, x, y, e, by rw [List.take_append_drop], htag, hx, hy, hkey, hparity⟩

theorem toCompressed_of_ofBytes (h : ofBytes b = .ok key) (hb : b.length = 33) :
    key.toCompressed = b := by
  obtain ⟨tag, c, x, y, e, rfl, htag, hx, hkey, hodd⟩ := exists_of_ofBytes_short h hb
  obtain ⟨cx, cy, rfl, rfl⟩ := hkey.coordinates
  rw [toCompressed, (isCoordinate_toBytes cx).unique hx, isOdd_eq cy, hodd]
  rcases htag with rfl | rfl <;> rfl

/-- The bytes of both coordinates are those that were read, and the tag agrees with the parity. -/
theorem both_coordinates_of_ofBytes (h : ofBytes b = .ok key) (hb : b.length ≠ 33) :
    ∃ tag, (tag = 4 ∨ tag = if key.point.y.isOdd then 7 else 6) ∧
      b = tag :: (key.point.x.toBytes.toList ++ key.point.y.toBytes.toList) := by
  obtain ⟨tag, c, d, x, y, e, rfl, htag, hx, hy, hkey, hparity⟩ := exists_of_ofBytes_long h hb
  obtain ⟨cx, cy, rfl, rfl⟩ := hkey.coordinates
  refine ⟨tag, ?_, ?_⟩
  · rw [isOdd_eq cy]
    rcases htag with rfl | rfl | rfl
    · exact Or.inl rfl
    · rw [hparity.resolve_left (by decide)]
      exact Or.inr rfl
    · rw [hparity.resolve_left (by decide)]
      exact Or.inr rfl
  · rw [(isCoordinate_toBytes cx).unique hx, (isCoordinate_toBytes cy).unique hy]

theorem length_ne_of_head (h : ofBytes b = .ok key) (h2 : b.head? ≠ some 2)
    (h3 : b.head? ≠ some 3) : b.length ≠ 33 := by
  intro hb
  obtain ⟨tag, c, x, y, e, rfl, rfl | rfl, -⟩ := exists_of_ofBytes_short h hb
  · exact h2 rfl
  · exact h3 rfl

theorem toUncompressed_of_ofBytes (h : ofBytes b = .ok key) (hb : b.head? = some 4) :
    key.toUncompressed = b := by
  have hlong := length_ne_of_head h (by rw [hb]; decide) (by rw [hb]; decide)
  obtain ⟨tag, -, rfl⟩ := both_coordinates_of_ofBytes h hlong
  obtain rfl := Option.some.inj hb
  rfl

theorem toHybrid_of_ofBytes (h : ofBytes b = .ok key)
    (hb : b.head? = some 6 ∨ b.head? = some 7) : key.toHybrid = b := by
  have hlong := length_ne_of_head h (by rcases hb with hb | hb <;> rw [hb] <;> decide)
    (by rcases hb with hb | hb <;> rw [hb] <;> decide)
  obtain ⟨tag, htag, rfl⟩ := both_coordinates_of_ofBytes h hlong
  have hne : tag ≠ 4 := by
    rintro rfl
    exact hb.elim (fun e => absurd (Option.some.inj e) (by decide))
      fun e => absurd (Option.some.inj e) (by decide)
  rw [toHybrid, ← htag.resolve_left hne]

theorem isSec1_of_ofBytes (h : ofBytes b = .ok key) : IsSec1 b := by
  by_cases hb : b.length = 33
  · obtain ⟨tag, c, x, y, e, rfl, htag, hx, -, -⟩ := exists_of_ofBytes_short h hb
    exact .compressed htag hx ⟨y, by rw [← e, sq]⟩
  · obtain ⟨tag, c, d, x, y, e, rfl, htag, hx, hy, -, hparity⟩ := exists_of_ofBytes_long h hb
    rcases htag with rfl | rfl | rfl
    · exact .uncompressed hx hy e
    · have hodd := hparity.resolve_left (by decide)
      rw [decide_eq_decide, iff_false_right (by decide)] at hodd
      exact .hybrid (Or.inl ⟨rfl, Nat.mod_two_ne_one.mp hodd⟩) hx hy e
    · have hodd := hparity.resolve_left (by decide)
      rw [decide_eq_decide, iff_true_right rfl] at hodd
      exact .hybrid (Or.inr ⟨rfl, hodd⟩) hx hy e

end Reading

theorem exists_denotes_of_isCoordinate {b c : Bytes} {x y : ZMod prime} (hx : IsCoordinate b x)
    (hy : IsCoordinate c y) (h : y ^ 2 = x ^ 3 + 7) :
    ∃ key : PublicKey, key.Denotes (Curve.point x y h) := by
  obtain ⟨v, cv, rfl⟩ := hx.exists_canonical
  obtain ⟨w, cw, rfl⟩ := hy.exists_canonical
  exact ⟨⟨v, w⟩, .finite cv cw rfl rfl, WeierstrassCurve.Affine.Point.some_ne_zero _⟩

theorem exists_ofBytes_of_coordinates {tag : UInt8} {b c : Bytes} {x y : ZMod prime}
    (hx : IsCoordinate b x) (hy : IsCoordinate c y) (h : y ^ 2 = x ^ 3 + 7)
    (htag : tag = 4 ∨ tag = 6 ∨ tag = 7)
    (hparity : tag = 4 ∨ decide (y.val % 2 = 1) = decide (tag = 7)) :
    ∃ key, ofBytes (tag :: (b ++ c)) = .ok key := by
  obtain ⟨key, hkey⟩ := exists_denotes_of_isCoordinate hx hy h
  refine ⟨key, ofBytes_cons_eq_ok_iff.mpr (Or.inr ⟨?_, ?_⟩)⟩
  · rw [List.length_append, hx.length, hy.length]
  · rw [List.take_left' hx.length, List.drop_left' hx.length]
    exact (ofUncompressed_iff hx.length hy.length).mpr ⟨htag, x, y, h, hx, hy, hkey, hparity⟩

theorem exists_ofBytes_of_isSec1 {b : Bytes} (h : IsSec1 b) : ∃ key, ofBytes b = .ok key := by
  cases h with
  | @compressed tag c x htag hx h =>
      obtain ⟨y, hy⟩ := h
      obtain ⟨z, hz, hodd⟩ := exists_y_of_parity ((sq y).trans hy.symm) (decide (tag = 3))
      obtain ⟨v, cv, rfl⟩ := hx.exists_canonical
      obtain ⟨p, -, hp⟩ := AffinePoint.decompress?_some cv.denotes (by decide) hz
      have hkey : Denotes ⟨p⟩ _ := ⟨hp, WeierstrassCurve.Affine.Point.some_ne_zero _⟩
      exact ⟨⟨p⟩, ofBytes_cons_eq_ok_iff.mpr (Or.inl ⟨hx.length, (ofCompressed_iff hx.length).mpr
        ⟨htag, _, z, hz, hx, hkey, hodd⟩⟩)⟩
  | uncompressed hx hy h =>
      exact exists_ofBytes_of_coordinates hx hy h (Or.inl rfl) (Or.inl rfl)
  | hybrid htag hx hy h =>
      rcases htag with ⟨rfl, heven⟩ | ⟨rfl, hodd⟩
      · refine exists_ofBytes_of_coordinates hx hy h (Or.inr (Or.inl rfl)) (Or.inr ?_)
        rw [heven]
        rfl
      · refine exists_ofBytes_of_coordinates hx hy h (Or.inr (Or.inr rfl)) (Or.inr ?_)
        rw [hodd]
        rfl

theorem kind_of_ofCompressed {tag : UInt8} {b : Bytes} {e : Error} (htag : tag = 2 ∨ tag = 3)
    (h : ofCompressed tag b = .error e) : e.kind = .invalid := by
  rw [ofCompressed, if_pos htag, bind_eq_error_iff] at h
  rcases h with h | ⟨x, -, h⟩
  · rw [coordinate_eq_error h]
    rfl
  · split at h
    · exact nomatch h
    · rw [← Except.error.inj h]
      rfl

theorem kind_of_ofUncompressed {tag : UInt8} {b c : Bytes} {e : Error}
    (htag : tag = 4 ∨ tag = 6 ∨ tag = 7) (h : ofUncompressed tag b c = .error e) :
    e.kind = .invalid := by
  rw [ofUncompressed, if_pos htag, bind_eq_error_iff] at h
  rcases h with h | ⟨x, -, h⟩
  · rw [coordinate_eq_error h]
    rfl
  · rcases bind_eq_error_iff.mp h with h | ⟨y, -, h⟩
    · rw [coordinate_eq_error h]
      rfl
    · split at h
      · rw [← Except.error.inj h]
        rfl
      · split at h
        · exact nomatch h
        · rw [← Except.error.inj h]
          rfl

/-- Past the checks on the length and the first byte every refusal is of the value. -/
theorem kind_of_hasForm {b : Bytes} {e : Error} (hb : HasForm b) (h : ofBytes b = .error e) :
    e.kind = .invalid := by
  cases b with
  | nil => simp [HasForm] at hb
  | cons tag body =>
      rcases (hasForm_cons tag body).mp hb with ⟨hlen, htag⟩ | ⟨hlen, htag⟩
      · rw [ofBytes, if_pos hlen] at h
        exact kind_of_ofCompressed htag h
      · rw [ofBytes, if_neg (by omega), if_pos hlen] at h
        exact kind_of_ofUncompressed htag h

theorem malformed_of_not_hasForm {b : Bytes} (hb : ¬ HasForm b) :
    ∃ e, ofBytes b = .error e ∧ e.kind = .malformed := by
  cases b with
  | nil => exact ⟨_, rfl, rfl⟩
  | cons tag body =>
      rw [hasForm_cons, not_or, not_and, not_and] at hb
      rw [ofBytes]
      split
      · next hlen => exact ⟨_, if_neg (hb.1 hlen), rfl⟩
      · split
        · next hlen => exact ⟨_, if_neg (hb.2 hlen), rfl⟩
        · exact ⟨_, rfl, rfl⟩

/-- The reader accepts the encodings and says what is wrong with every other string; keys are
written and read back in all three forms. -/
theorem sec1_codec :
    (∀ b : Bytes,
      ((∃ key, ofBytes b = .ok key) ↔ IsSec1 b) ∧
      ((∃ e, ofBytes b = .error e ∧ e.kind = .malformed) ↔ ¬ HasForm b) ∧
      ((∃ e, ofBytes b = .error e ∧ e.kind = .invalid) ↔ HasForm b ∧ ¬ IsSec1 b)) ∧
    (∀ key : PublicKey, key.Obtained →
      ofBytes key.toCompressed = .ok key ∧ ofBytes key.toUncompressed = .ok key ∧
      ofBytes key.toHybrid = .ok key) ∧
    (∀ (b : Bytes) (key : PublicKey), ofBytes b = .ok key →
      (b.length = 33 → key.toCompressed = b) ∧
      (b.head? = some 4 → key.toUncompressed = b) ∧
      (b.head? = some 6 ∨ b.head? = some 7 → key.toHybrid = b)) ∧
    ∀ (b c : Bytes) (key : PublicKey), b.length = 33 → c.length = 33 →
      ofBytes b = .ok key → ofBytes c = .ok key → b = c := by
  refine ⟨fun b => ?_, fun key hkey => ?_, fun b key h => ⟨toCompressed_of_ofBytes h,
    toUncompressed_of_ofBytes h, toHybrid_of_ofBytes h⟩, fun b c key hb hc hbk hck => ?_⟩
  · have hform := @kind_of_hasForm b
    have hread : (∃ key, ofBytes b = .ok key) ↔ IsSec1 b :=
      ⟨fun ⟨_, h⟩ => isSec1_of_ofBytes h, exists_ofBytes_of_isSec1⟩
    refine ⟨hread, ⟨fun ⟨e, he, hkind⟩ hb => ?_, malformed_of_not_hasForm⟩,
      ⟨fun ⟨e, he, hkind⟩ => ⟨not_not.mp fun hb => ?_, fun h => ?_⟩, fun ⟨hb, h⟩ => ?_⟩⟩
    · exact nomatch hkind.symm.trans (hform hb he)
    · obtain ⟨e', he', hkind'⟩ := malformed_of_not_hasForm hb
      rw [he, Except.error.injEq] at he'
      rw [← he', hkind] at hkind'
      exact nomatch hkind'
    · obtain ⟨key, hok⟩ := hread.mpr h
      exact nomatch he.symm.trans hok
    · cases he : ofBytes b with
      | ok key => exact absurd (hread.mp ⟨key, he⟩) h
      | error e => exact ⟨e, rfl, hform hb he⟩
  · obtain ⟨Q, hQ⟩ := hkey.denotes
    exact ⟨ofBytes_toCompressed hQ, ofBytes_both_coordinates hQ (Or.inl rfl),
      ofBytes_both_coordinates hQ (Or.inr rfl)⟩
  · rw [← toCompressed_of_ofBytes hbk hb, toCompressed_of_ofBytes hck hc]

/-- The key of the base point, from each of its three forms. -/
theorem sec1_generator :
    Obtained ⟨AffinePoint.generator⟩ ∧
      ofBytes (toCompressed ⟨AffinePoint.generator⟩) = .ok ⟨AffinePoint.generator⟩ ∧
      ofBytes (toUncompressed ⟨AffinePoint.generator⟩) = .ok ⟨AffinePoint.generator⟩ ∧
      ofBytes (toHybrid ⟨AffinePoint.generator⟩) = .ok ⟨AffinePoint.generator⟩ ∧
      toHybrid ⟨AffinePoint.generator⟩ ≠ toUncompressed ⟨AffinePoint.generator⟩ := by
  have hkey : Obtained ⟨AffinePoint.generator⟩ := .ofAffine .affineGenerator (by decide)
  obtain ⟨-, hread, -⟩ := sec1_codec
  obtain ⟨hcompressed, huncompressed, hhybrid⟩ := hread _ hkey
  exact ⟨hkey, hcompressed, huncompressed, hhybrid, by decide⟩

end PublicKey

end CurveKeys.Secp256k1
