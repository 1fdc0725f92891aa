import CurveKeys.Proofs.Secp256k1.Verification
import CurveKeys.Secp256k1.Recovery

/-!
Recovery inverts verification. An identifier names at most one nonce point, a nonce point has one
identifier, and the key recovered from a nonce point is the only one the signature holds for with
that point.
-/

namespace CurveKeys.Secp256k1.Signature
open FieldElement Curve
open Scalar (order)

/-- The first coordinate of the nonce point, as the identifier has it. -/
def nonceInteger (g : Signature) (id : RecoveryId) : Nat :=
  g.r.toNat + if id.xReduced then order else 0

/-- The point has the first coordinate and the parity of the identifier. -/
def HasNonce (g : Signature) (id : RecoveryId) (R : Point) : Prop :=
  ∃ x y h, R = .some x y h ∧ x.val = g.nonceInteger id ∧ decide (y.val % 2 = 1) = id.yOdd

theorem nonce_unique {g : Signature} {id : RecoveryId} {R S : Point} (hR : g.HasNonce id R)
    (hS : g.HasNonce id S) : R = S := by
  obtain ⟨x, y, h, rfl, hx, hy⟩ := hR
  obtain ⟨x', y', h', rfl, hx', hy'⟩ := hS
  apply code_injective
  rw [code, code, hy, hy', ZMod.val_injective prime (hx.trans hx'.symm)]

theorem id_unique {g : Signature} {id id' : RecoveryId} {R : Point} (h : g.HasNonce id R)
    (h' : g.HasNonce id' R) : id = id' := by
  obtain ⟨x, y, hxy, rfl, hx, hy⟩ := h
  obtain ⟨x', y', hxy', heq, hx', hy'⟩ := h'
  rw [WeierstrassCurve.Affine.Point.some.injEq] at heq
  obtain ⟨rfl, rfl⟩ := heq
  have hn : 0 < order := by decide
  obtain ⟨yOdd, xReduced⟩ := id
  obtain ⟨yOdd', xReduced'⟩ := id'
  rw [hx, nonceInteger, nonceInteger] at hx'
  rw [RecoveryId.mk.injEq]
  refine ⟨hy.symm.trans hy', ?_⟩
  cases xReduced <;> cases xReduced' <;> simp at hx' ⊢ <;> omega

/-- The nonce points are those with the first component for their first coordinate. -/
theorem exists_id_iff {g : Signature} (hr : g.r.toNat < order) {x y : ZMod prime}
    (h : curve.Nonsingular x y) :
    (∃ id, g.HasNonce id (.some x y h)) ↔ x.val ≡ g.r.toNat [MOD order] := by
  rw [modEq_order_iff (ZMod.val_lt x) hr]
  have hlt := ZMod.val_lt x
  constructor
  · rintro ⟨⟨yOdd, xReduced⟩, x', y', h', heq, hx, -⟩
    rw [WeierstrassCurve.Affine.Point.some.injEq] at heq
    obtain ⟨rfl, rfl⟩ := heq
    rw [nonceInteger] at hx
    cases xReduced with
    | false => exact Or.inl hx
    | true => exact Or.inr ⟨by simp at hx; omega, hx⟩
  · rintro (hx | ⟨-, hx⟩)
    · exact ⟨⟨decide (y.val % 2 = 1), false⟩, x, y, h, rfl, hx, rfl⟩
    · exact ⟨⟨decide (y.val % 2 = 1), true⟩, x, y, h, rfl, hx, rfl⟩

/-- The identifier asks for a first coordinate that is not below the modulus. -/
def Overflows (g : Signature) (id : RecoveryId) : Prop :=
  id.xReduced = true ∧ prime - order ≤ g.r.toNat

theorem nonceX_of_overflows {g : Signature} {id : RecoveryId} (hr : g.r.toNat < order)
    (h : g.Overflows id) : g.nonceX id = .error .recoveredROverflow := by
  rw [nonceX, if_pos h.1, if_pos ((isAtLeast_toField_iff hr).mpr h.2)]

theorem nonceX_of_not_overflows {g : Signature} {id : RecoveryId} (hr : g.r.toNat < order)
    (h : ¬ g.Overflows id) :
    ∃ x, g.nonceX id = .ok x ∧ x.Denotes 1 (g.nonceInteger id : ZMod prime) := by
  unfold nonceX nonceInteger
  by_cases hid : id.xReduced = true
  · have hlow : ¬ (toField g.r).isAtLeastPrimeMinusOrder = true :=
      fun e => h ⟨hid, (isAtLeast_toField_iff hr).mp e⟩
    rw [if_pos hid, if_neg hlow, if_pos hid]
    refine ⟨_, rfl, ?_⟩
    rw [Nat.cast_add]
    exact denotes_normalize (denotes_add (denotes_toField g.r) denotes_orderElement)
  · rw [if_neg hid, if_neg hid, add_zero]
    exact ⟨_, rfl, denotes_toField g.r⟩

theorem nonceInteger_lt {g : Signature} {id : RecoveryId} (hr : g.r.toNat < order)
    (h : ¬ g.Overflows id) : g.nonceInteger id < prime := by
  have hp : order < prime := by decide
  rw [nonceInteger]
  by_cases hid : id.xReduced = true
  · have hlow : ¬ prime - order ≤ g.r.toNat := fun e => h ⟨hid, e⟩
    rw [if_pos hid]
    omega
  · rw [if_neg hid]
    omega

/-- What `recover` does with the nonce point. -/
def recoverFrom (g : Signature) (hash : Bytes) (nonce : AffinePoint) : Except Error PublicKey :=
  let q := (JacobianPoint.mulBaseVar ((hashScalar hash).mul g.r.invert).negate).addVar
    ((JacobianPoint.ofAffine nonce).mulVar (g.s.mul g.r.invert))
  if q.isIdentity then .error .recoveredInfinity else PublicKey.ofAffine q.toAffine

theorem recover_eq {g : Signature} (hr : g.r.toNat ≠ 0) (hs : g.s.toNat ≠ 0) (hash : Bytes)
    (id : RecoveryId) :
    g.recover hash id = (g.nonceX id >>= fun x => match AffinePoint.decompress? x id.yOdd with
      | none => .error .noSquareRoot
      | some nonce => g.recoverFrom hash nonce) := by
  have hr' : ¬ g.r.isZero = true := fun h => hr ((Scalar.isZero_iff g.r).mp h)
  have hs' : ¬ g.s.isZero = true := fun h => hs ((Scalar.isZero_iff g.s).mp h)
  unfold recover
  rw [if_neg hr', if_neg hs']
  cases g.nonceX id with
  | error e => rw [error_bind, error_bind]
  | ok x =>
      -- branch by branch, since a comparison of the matches would evaluate the square root
      rw [ok_bind, ok_bind]
      cases AffinePoint.decompress? x id.yOdd with
      | none => exact Eq.refl (Except.error _)
      | some nonce => exact Eq.refl (recoverFrom g hash nonce)

theorem natCast_ne_zero {k : Nat} (hk : k < order) (h0 : k ≠ 0) : (k : ZMod order) ≠ 0 := by
  rw [Ne, ZMod.natCast_eq_zero_iff]
  exact fun h => h0 (Nat.eq_zero_of_dvd_of_lt h hk)

/-- The recovered point, as a combination of the nonce point and the base point. -/
def recoveredPoint (g : Signature) (hash : Bytes) (R : Point) : Point :=
  (g.r.toNat : ZMod order)⁻¹ • (g.s.toNat • R - hashInteger hash • generator)

theorem recoveredPoint_eq_zero_iff {g : Signature} (hr : g.r.toNat < order)
    (hr0 : g.r.toNat ≠ 0) (hash : Bytes) (R : Point) :
    g.recoveredPoint hash R = 0 ↔ g.s.toNat • R = hashInteger hash • generator := by
  rw [recoveredPoint, smul_eq_zero_iff_right (inv_ne_zero (natCast_ne_zero hr hr0)), sub_eq_zero]

theorem denotes_recovered {g : Signature} (hr : g.r.toNat < order) (hs : g.s.toNat < order)
    (hash : Bytes) {nonce : AffinePoint} {R : Point} (hR : nonce.Denotes R) :
    ((JacobianPoint.mulBaseVar ((hashScalar hash).mul g.r.invert).negate).addVar
      ((JacobianPoint.ofAffine nonce).mulVar (g.s.mul g.r.invert))).Denotes
      (g.recoveredPoint hash R) := by
  have hw := Scalar.denotes_invert (Scalar.denotes_of_reduced hr)
  have h1 := Scalar.denotes_negate (Scalar.denotes_mul (denotes_hashScalar hash) hw)
  have h2 := Scalar.denotes_mul (Scalar.denotes_of_reduced hs) hw
  have hsum := JacobianPoint.denotes_addVar (JacobianPoint.denotes_mulBaseVar h1.reduced)
    (JacobianPoint.denotes_mulVar (JacobianPoint.denotes_ofAffine hR) h2.reduced)
  have he : g.recoveredPoint hash R =
      ((hashScalar hash).mul g.r.invert).negate.toNat • generator +
        (g.s.mul g.r.invert).toNat • R := by
    rw [Scalar.toNat_eq_val h1, Scalar.toNat_eq_val h2, val_nsmul, val_nsmul, recoveredPoint,
      ← natCast_smul, ← natCast_smul]
    module
  rw [he]
  exact hsum

theorem recoverFrom_of_eq {g : Signature} (hr : g.r.toNat < order) (hs : g.s.toNat < order)
    (hr0 : g.r.toNat ≠ 0) {hash : Bytes} {nonce : AffinePoint} {R : Point}
    (hR : nonce.Denotes R) (h : g.s.toNat • R = hashInteger hash • generator) :
    g.recoverFrom hash nonce = .error .recoveredInfinity := by
  have hq := JacobianPoint.isIdentity_iff (denotes_recovered hr hs hash hR)
  rw [recoveredPoint_eq_zero_iff hr hr0] at hq
  rw [recoverFrom, if_pos (hq.mpr h)]

theorem recoverFrom_of_ne {g : Signature} (hr : g.r.toNat < order) (hs : g.s.toNat < order)
    (hr0 : g.r.toNat ≠ 0) {hash : Bytes} {nonce : AffinePoint} {R : Point}
    (hR : nonce.Denotes R) (h : g.s.toNat • R ≠ hashInteger hash • generator) :
    ∃ key, g.recoverFrom hash nonce = .ok key ∧ key.Denotes (g.recoveredPoint hash R) := by
  have hd := denotes_recovered hr hs hash hR
  have hne : g.recoveredPoint hash R ≠ 0 :=
    fun e => h ((recoveredPoint_eq_zero_iff hr hr0 hash R).mp e)
  have hq := JacobianPoint.isIdentity_iff hd
  have ha := JacobianPoint.denotes_toAffine hd
  obtain ⟨key, hok, hkey⟩ := PublicKey.denotes_of_ofAffine ha hne
  refine ⟨key, ?_, hkey⟩
  rw [recoverFrom, if_neg fun e => hne (hq.mp e), hok]

/-- Everything recovery can come to when no component is zero. -/
inductive Outcome (g : Signature) (hash : Bytes) (id : RecoveryId) : Except Error PublicKey → Prop
  | overflow (h : g.Overflows id) : Outcome g hash id (.error .recoveredROverflow)
  | noPoint (h : ¬ g.Overflows id)
      (hx : ∀ x y, curve.Nonsingular x y → x.val ≠ g.nonceInteger id) :
      Outcome g hash id (.error .noSquareRoot)
  | infinity {R : Point} (hR : g.HasNonce id R)
      (h : g.s.toNat • R = hashInteger hash • generator) :
      Outcome g hash id (.error .recoveredInfinity)
  | key {R : Point} {key : PublicKey} (hR : g.HasNonce id R)
      (h : g.s.toNat • R ≠ hashInteger hash • generator)
      (hkey : key.Denotes (g.recoveredPoint hash R)) : Outcome g hash id (.ok key)

theorem outcome_recover {g : Signature} (hr : g.r.toNat < order) (hs : g.s.toNat < order)
    (hr0 : g.r.toNat ≠ 0) (hs0 : g.s.toNat ≠ 0) (hash : Bytes) (id : RecoveryId) :
    Outcome g hash id (g.recover hash id) := by
  rw [recover_eq hr0 hs0]
  by_cases hover : g.Overflows id
  · rw [nonceX_of_overflows hr hover, error_bind]
    exact .overflow hover
  · obtain ⟨x, hx, hd⟩ := nonceX_of_not_overflows hr hover
    have hlt := nonceInteger_lt hr hover
    rw [hx, ok_bind]
    cases hp : AffinePoint.decompress? x id.yOdd with
    | none =>
        refine .noPoint hover fun v y hvy hv => ?_
        obtain rfl := (natCast_eq_iff hlt v).mpr hv
        obtain ⟨z, hz, hodd⟩ := exists_y_of_parity ((nonsingular_iff _ _).mp hvy) id.yOdd
        obtain ⟨p, hsome, -⟩ := AffinePoint.decompress?_some hd (by decide) hz
        rw [hodd, hp] at hsome
        exact nomatch hsome
    | some nonce =>
        obtain ⟨y, hy, hR, hodd⟩ := AffinePoint.denotes_of_decompress? hd (by decide) hp
        have hnonce : g.HasNonce id (point _ y hy) :=
          ⟨_, y, _, rfl, ZMod.val_natCast_of_lt hlt, hodd⟩
        change Outcome g hash id (g.recoverFrom hash nonce)
        by_cases h : g.s.toNat • point _ y hy = hashInteger hash • generator
        · rw [recoverFrom_of_eq hr hs hr0 hR h]
          exact .infinity hnonce h
        · obtain ⟨key, hkey, hQ⟩ := recoverFrom_of_ne hr hs hr0 hR h
          rw [hkey]
          exact .key hnonce h hQ

theorem not_overflows_of_hasNonce {g : Signature} {id : RecoveryId} {R : Point}
    (h : g.HasNonce id R) : ¬ g.Overflows id := by
  rintro ⟨hid, hr⟩
  obtain ⟨x, y, hxy, rfl, hx, -⟩ := h
  have hlt := ZMod.val_lt x
  rw [hx, nonceInteger, if_pos hid] at hlt
  omega

theorem not_forall_ne_of_hasNonce {g : Signature} {id : RecoveryId} {R : Point}
    (h : g.HasNonce id R) : ¬ ∀ x y, curve.Nonsingular x y → x.val ≠ g.nonceInteger id := by
  obtain ⟨x, y, hxy, rfl, hx, -⟩ := h
  exact fun hne => hne x y hxy hx

/-- Recovery from the verification point gives the key, and only that point does. -/
theorem verificationPoint_eq_iff {g : Signature} (hr : g.r.toNat < order)
    (hs : g.s.toNat < order) (hr0 : g.r.toNat ≠ 0) (hs0 : g.s.toNat ≠ 0) (hash : Bytes)
    (Q R : Point) : g.verificationPoint hash Q = R ↔ g.recoveredPoint hash R = Q := by
  have hrn := natCast_ne_zero hr hr0
  have hsn := natCast_ne_zero hs hs0
  rw [verificationPoint, recoveredPoint, val_nsmul, val_nsmul, inv_smul_eq_iff₀ hrn,
    ← natCast_smul, ← natCast_smul]
  constructor
  · rintro rfl
    rw [smul_add, smul_smul, smul_smul, mul_left_comm, mul_inv_cancel₀ hsn, mul_one,
      mul_left_comm, mul_inv_cancel₀ hsn, mul_one, add_sub_cancel_left]
  · intro h
    rw [mul_comm (g.r.toNat : ZMod order), mul_smul _ (g.r.toNat : ZMod order), ← h]
    match_scalars
    · ring
    · rw [mul_one, inv_mul_cancel₀ hsn]

namespace Outcome
variable {g : Signature} {hash : Bytes} {id : RecoveryId} {result : Except Error PublicKey}

theorem overflow_iff (h : Outcome g hash id result) :
    result = .error .recoveredROverflow ↔ g.Overflows id := by
  cases h with
  | overflow h => exact iff_of_true rfl h
  | noPoint h _ => exact iff_of_false (fun e => nomatch e) h
  | infinity hR _ => exact iff_of_false (fun e => nomatch e) (not_overflows_of_hasNonce hR)
  | key hR _ _ => exact iff_of_false (fun e => nomatch e) (not_overflows_of_hasNonce hR)

theorem noPoint_iff (h : Outcome g hash id result) :
    result = .error .noSquareRoot ↔
      ¬ g.Overflows id ∧ ∀ x y, curve.Nonsingular x y → x.val ≠ g.nonceInteger id := by
  cases h with
  | overflow h => exact iff_of_false (fun e => nomatch e) fun hc => hc.1 h
  | noPoint h hx => exact iff_of_true rfl ⟨h, hx⟩
  | infinity hR _ =>
      exact iff_of_false (fun e => nomatch e) fun hc => not_forall_ne_of_hasNonce hR hc.2
  | key hR _ _ =>
      exact iff_of_false (fun e => nomatch e) fun hc => not_forall_ne_of_hasNonce hR hc.2

theorem infinity_iff (h : Outcome g hash id result) :
    result = .error .recoveredInfinity ↔
      ∃ R, g.HasNonce id R ∧ g.s.toNat • R = hashInteger hash • generator := by
  cases h with
  | overflow h =>
      exact iff_of_false (fun e => nomatch e) fun ⟨R, hR, _⟩ => not_overflows_of_hasNonce hR h
  | noPoint _ hx =>
      exact iff_of_false (fun e => nomatch e) fun ⟨R, hR, _⟩ => not_forall_ne_of_hasNonce hR hx
  | infinity hR h => exact iff_of_true rfl ⟨_, hR, h⟩
  | key hR hne _ =>
      refine iff_of_false (fun e => nomatch e) fun ⟨S, hS, h⟩ => hne ?_
      rw [nonce_unique hR hS, h]

theorem key_iff (h : Outcome g hash id result) :
    (∃ key, result = .ok key) ↔
      ∃ R, g.HasNonce id R ∧ g.s.toNat • R ≠ hashInteger hash • generator := by
  cases h with
  | overflow h =>
      exact iff_of_false (fun ⟨_, e⟩ => nomatch e) fun ⟨R, hR, _⟩ => not_overflows_of_hasNonce hR h
  | noPoint _ hx =>
      exact iff_of_false (fun ⟨_, e⟩ => nomatch e)
        fun ⟨R, hR, _⟩ => not_forall_ne_of_hasNonce hR hx
  | infinity hR h =>
      refine iff_of_false (fun ⟨_, e⟩ => nomatch e) fun ⟨S, hS, hne⟩ => hne ?_
      rw [nonce_unique hS hR, h]
  | key hR hne _ => exact iff_of_true ⟨_, rfl⟩ ⟨_, hR, hne⟩

theorem error_cases {e : Error} (h : Outcome g hash id (.error e)) :
    e = .recoveredROverflow ∨ e = .noSquareRoot ∨ e = .recoveredInfinity := by
  cases h with
  | overflow _ => exact Or.inl rfl
  | noPoint _ _ => exact Or.inr (Or.inl rfl)
  | infinity _ _ => exact Or.inr (Or.inr rfl)

end Outcome

theorem ne_zero_of_recover_eq_ok {g : Signature} {hash : Bytes} {id : RecoveryId}
    {key : PublicKey} (h : g.recover hash id = .ok key) : g.r.toNat ≠ 0 ∧ g.s.toNat ≠ 0 := by
  unfold recover at h
  by_cases hr : g.r.isZero = true
  · rw [if_pos hr] at h
    exact nomatch h
  · by_cases hs : g.s.isZero = true
    · rw [if_neg hr, if_pos hs] at h
      exact nomatch h
    · exact ⟨fun e => hr ((Scalar.isZero_iff _).mpr e), fun e => hs ((Scalar.isZero_iff _).mpr e)⟩

/-- The key is recovered from the verification point, and from no other. -/
theorem recover_eq_ok_iff {g : Signature} {key : PublicKey} {Q : Point}
    (hr : g.r.toNat < order) (hs : g.s.toNat < order) (hkey : key.Denotes Q) (hash : Bytes)
    (id : RecoveryId) :
    g.recover hash id = .ok key ↔
      g.r.toNat ≠ 0 ∧ g.s.toNat ≠ 0 ∧ g.HasNonce id (g.verificationPoint hash Q) := by
  constructor
  · intro h
    obtain ⟨hr0, hs0⟩ := ne_zero_of_recover_eq_ok h
    have hout := outcome_recover hr hs hr0 hs0 hash id
    rw [h] at hout
    cases hout with
    | key hR hne hkey' =>
        have hQ := AffinePoint.point_eq_of_denotes hkey'.point hkey.point
        rw [(verificationPoint_eq_iff hr hs hr0 hs0 hash Q _).mpr hQ]
        exact ⟨hr0, hs0, hR⟩
  · rintro ⟨hr0, hs0, hR⟩
    have hQ := (verificationPoint_eq_iff hr hs hr0 hs0 hash Q _).mp rfl
    have hout := outcome_recover hr hs hr0 hs0 hash id
    generalize g.recover hash id = result at hout
    cases hout with
    | overflow h => exact absurd h (not_overflows_of_hasNonce hR)
    | noPoint _ h => exact absurd h (not_forall_ne_of_hasNonce hR)
    | infinity hR' h =>
        rw [nonce_unique hR' hR, ← recoveredPoint_eq_zero_iff hr hr0, hQ] at h
        exact absurd h hkey.ne_zero
    | key hR' _ hkey' =>
        rw [nonce_unique hR' hR, hQ] at hkey'
        rw [PublicKey.eq_of_denotes hkey' hkey]

theorem valid_iff_exists_id {g : Signature} (hr : g.r.toNat < order) (hash : Bytes) (Q : Point) :
    g.Valid hash Q ↔
      g.r.toNat ≠ 0 ∧ g.s.toNat ≠ 0 ∧ ∃ id, g.HasNonce id (g.verificationPoint hash Q) := by
  refine and_congr_right fun _ => and_congr_right fun _ => ?_
  constructor
  · rintro ⟨x, y, h, heq, hx⟩
    rw [heq]
    exact (exists_id_iff hr h).mpr hx
  · rintro ⟨id, x, y, h, heq, hx⟩
    exact ⟨x, y, h, heq, (exists_id_iff hr h).mp ⟨id, x, y, h, rfl, hx⟩⟩

/-- Verification and recovery describe the same relation, and recovery fails exactly when the
identifier gives no nonce point or the point gives no key. -/
theorem recovery_inverts_verification {g : Signature} (hr : g.r.toNat < order)
    (hs : g.s.toNat < order) (hash : Bytes) :
    (∀ (key : PublicKey) (Q : Point), key.Denotes Q →
      (g.verify hash key = true ↔ ∃ id, g.recover hash id = .ok key) ∧
      ∀ id id', g.recover hash id = .ok key → g.recover hash id' = .ok key → id = id') ∧
    (g.r.toNat ≠ 0 → g.s.toNat ≠ 0 → ∀ id,
      (g.recover hash id = .error .recoveredROverflow ↔
        id.xReduced = true ∧ prime - order ≤ g.r.toNat) ∧
      (g.recover hash id = .error .noSquareRoot ↔
        ¬ (id.xReduced = true ∧ prime - order ≤ g.r.toNat) ∧
        ∀ x y, curve.Nonsingular x y → x.val ≠ g.nonceInteger id) ∧
      (g.recover hash id = .error .recoveredInfinity ↔
        ∃ R, g.HasNonce id R ∧ g.s.toNat • R = hashInteger hash • generator) ∧
      ((∃ key, g.recover hash id = .ok key) ↔
        ∃ R, g.HasNonce id R ∧ g.s.toNat • R ≠ hashInteger hash • generator) ∧
      ∀ e, g.recover hash id = .error e →
        e = .recoveredROverflow ∨ e = .noSquareRoot ∨ e = .recoveredInfinity) := by
  constructor
  · intro key Q hkey
    have hrec := recover_eq_ok_iff hr hs hkey hash
    constructor
    · rw [verify_eq_true_iff hr hs hkey, valid_iff_exists_id hr]
      simp only [hrec, exists_and_left]
    · intro id id' h h'
      exact id_unique ((hrec id).mp h).2.2 ((hrec id').mp h').2.2
  · intro hr0 hs0 id
    have hout := outcome_recover hr hs hr0 hs0 hash id
    refine ⟨hout.overflow_iff, hout.noPoint_iff, hout.infinity_iff, hout.key_iff, fun e he => ?_⟩
    rw [he] at hout
    exact hout.error_cases

/-- The base point is recovered from the signature on nothing that holds for it, unless the
identifier asks for a first coordinate above the order. -/
theorem recover_generator :
    (∃ id, recover ⟨generatorScalar, generatorScalar⟩ [] id = .ok ⟨AffinePoint.generator⟩) ∧
      recover ⟨generatorScalar, generatorScalar⟩ [] ⟨false, true⟩ = .error .recoveredROverflow := by
  have h := recovery_inverts_verification (g := ⟨generatorScalar, generatorScalar⟩)
    generatorScalar_lt generatorScalar_lt []
  constructor
  · exact (h.1 _ _ denotes_generatorKey).1.mp
      ((verify_eq_true_iff generatorScalar_lt generatorScalar_lt denotes_generatorKey []).mpr
        valid_generator)
  · exact (h.2 (by decide) (by decide) ⟨false, true⟩).1.mpr ⟨rfl, by decide⟩

end CurveKeys.Secp256k1.Signature
