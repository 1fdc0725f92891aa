import CurveKeys.Proofs.Secp256k1.Compact
import CurveKeys.Proofs.Secp256k1.Nonce.Stream
import CurveKeys.Secp256k1.Sign

/-!
What is signed verifies, and the key is recovered from it. A nonce that is accepted gives a solution
of the signing equation at the nonce point; making the second component low replaces the point
by its negative, which keeps the equation and flips the parity in the identifier. Signing comes to
an end exactly when a block of the nonce stream makes neither component zero.
-/

namespace CurveKeys.Secp256k1

/-- The first coordinate of a point as a scalar, and whether it is the order or more. -/
theorem Scalar.reduceBytes_coordinate {a : FieldElement} (ha : a.Canonical) :
    (reduceBytes a.toBytes).1.toNat = a.residue.val % order ∧
      (reduceBytes a.toBytes).2 = decide (order ≤ a.residue.val) := by
  have hover := reduceBytes_overflow_iff a.toBytes
  rw [FieldElement.toNatBE_toBytes ha, ← FieldElement.val_residue ha] at hover
  constructor
  · rw [toNat_reduceBytes, FieldElement.toNatBE_toBytes ha, FieldElement.val_residue ha]
  · rw [Bool.eq_iff_iff, hover, decide_eq_true_eq]

namespace Signature
open FieldElement Curve
open Scalar (order)

/-- The signing equation holds at a nonce point of the identifier, and the components are in
range. -/
structure Solves (g : Signature) (id : RecoveryId) (d e : Scalar) : Prop where
  r_ne_zero : g.r.toNat ≠ 0
  r_lt : g.r.toNat < order
  s_ne_zero : g.s.toNat ≠ 0
  s_le : g.s.toNat ≤ order / 2
  equation : ∃ R, g.HasNonce id R ∧
    g.s.toNat • R = e.toNat • generator + g.r.toNat • d.toNat • generator

/-- What one nonce gives, in terms of its point. -/
theorem withNonce?_eq {d e k : Scalar} (hd : d.toNat < order) (he : e.toNat < order)
    (hk : k.toNat < order) {x y : ZMod prime} {h : curve.Nonsingular x y}
    (hR : k.toNat • generator = .some x y h) :
    ∃ r s : Scalar, r.toNat = x.val % order ∧
      s.Denotes ((k.toNat : ZMod order)⁻¹ * (e.toNat + d.toNat * r.toNat)) ∧
      withNonce? d e k = if r.isZero = true then none else if s.isZero = true then none else
        some (normalize ⟨r, s⟩, ⟨decide (y.val % 2 = 1) != s.isHigh, decide (order ≤ x.val)⟩) := by
  have hp := JacobianPoint.denotes_toAffine (JacobianPoint.denotes_mulBase hk)
  rw [hR] at hp
  unfold withNonce?
  extract_lets p
  obtain ⟨x', y', h', heq, cx, cy, rx, ry⟩ :=
    AffinePoint.exists_coordinates (p := p) hp (WeierstrassCurve.Affine.Point.some_ne_zero h)
  rw [WeierstrassCurve.Affine.Point.some.injEq] at heq
  obtain ⟨rfl, rfl⟩ := heq
  obtain ⟨hr, hover⟩ := Scalar.reduceBytes_coordinate cx
  generalize Scalar.reduceBytes p.x.toBytes = reduced at hr hover
  obtain ⟨r, xReduced⟩ := reduced
  rw [rx] at hr hover
  have hrlt : r.toNat < order := by
    rw [hr]
    exact Nat.mod_lt _ (by decide)
  have hs := Scalar.denotes_mul (Scalar.denotes_invert (Scalar.denotes_of_reduced hk))
    (Scalar.denotes_add (Scalar.denotes_of_reduced he) (Scalar.denotes_mul
      (Scalar.denotes_of_reduced hd) (Scalar.denotes_of_reduced hrlt)))
  obtain rfl : xReduced = decide (order ≤ x.val) := hover
  refine ⟨r, _, hr, hs, ?_⟩
  rw [isOdd_eq cy, ry]

/-- The low form of a component, on the point or on its negative. -/
theorem low_spec {s : Scalar} (hs : s.toNat < order) (h0 : s.toNat ≠ 0) (P : Point) :
    (select s s.negate s.isHigh).toNat ≠ 0 ∧ (select s s.negate s.isHigh).toNat ≤ order / 2 ∧
      (select s s.negate s.isHigh).toNat • (if s.isHigh = true then -P else P) = s.toNat • P := by
  by_cases hhigh : s.isHigh = true
  · have hneg := Scalar.toNat_negate hs
    have hlt := (Scalar.isHigh_iff s).mp hhigh
    have hhalf : order / 2 + 1 + order / 2 = order := by decide
    rw [if_neg h0] at hneg
    rw [hhigh, select, if_pos rfl, hneg]
    refine ⟨by omega, by omega, ?_⟩
    rw [if_pos rfl, ← natCast_smul, Nat.cast_sub hs.le, ZMod.natCast_self, zero_sub, neg_smul_neg,
      natCast_smul]
  · have hle := not_lt.mp fun e => hhigh ((Scalar.isHigh_iff s).mpr e)
    rw [if_neg hhigh, select, if_neg hhigh]
    exact ⟨h0, hle, rfl⟩

/-- The identifier of an attempt names the nonce point, or its negative when `flip` is set. -/
theorem hasNonce_of_coordinates {r s : Scalar} {x y : ZMod prime} (h : curve.Nonsingular x y)
    (hr : r.toNat = x.val % order) (flip : Bool) :
    HasNonce ⟨r, s⟩ ⟨decide (y.val % 2 = 1) != flip, decide (order ≤ x.val)⟩
      (if flip = true then -(.some x y h) else .some x y h) := by
  have hx : x.val =
      nonceInteger ⟨r, s⟩ ⟨decide (y.val % 2 = 1) != flip, decide (order ≤ x.val)⟩ := by
    have hlt := ZMod.val_lt x
    have hp : prime < order * 2 := by decide
    simp only [nonceInteger, decide_eq_true_eq]
    split
    · next hge =>
        rw [Nat.mod_eq_sub_mod hge, Nat.mod_eq_of_lt (by omega)] at hr
        omega
    · next hlow =>
        rw [Nat.mod_eq_of_lt (not_le.mp hlow)] at hr
        omega
  cases flip with
  | false => exact ⟨x, y, h, rfl, hx, (Bool.bne_false _).symm⟩
  | true =>
      refine ⟨x, -y, ?_, ?_, hx, ?_⟩
      · rw [nonsingular_iff, neg_sq]
        exact (nonsingular_iff x y).mp h
      · rw [if_pos rfl, WeierstrassCurve.Affine.Point.neg_some,
          WeierstrassCurve.Affine.Point.some.injEq, negY_eq]
        exact ⟨rfl, rfl⟩
      · rw [odd_neg (y_ne_zero ((nonsingular_iff x y).mp h)), Bool.bne_true]

theorem exists_nonce_point {k : Scalar} (hk : k.toNat < order) (hk0 : k.toNat ≠ 0) :
    ∃ x y, ∃ h : curve.Nonsingular x y, k.toNat • generator = .some x y h := by
  have hne : k.toNat • generator ≠ 0 := by
    rw [← natCast_smul, Ne, smul_generator_eq_zero_iff]
    exact natCast_ne_zero hk hk0
  cases hR : k.toNat • generator with
  | zero => exact absurd hR hne
  | some x y h => exact ⟨x, y, h, rfl⟩

theorem solves_of_withNonce? {d e k : Scalar} (hd : d.toNat < order) (he : e.toNat < order)
    (hk : k.toNat < order) (hk0 : k.toNat ≠ 0) {g : Signature} {id : RecoveryId}
    (h : withNonce? d e k = some (g, id)) : g.Solves id d e := by
  obtain ⟨x, y, hxy, hR⟩ := exists_nonce_point hk hk0
  obtain ⟨r, s, hr, hs, heq⟩ := withNonce?_eq hd he hk hR
  rw [heq] at h
  by_cases hr0 : r.isZero = true
  · rw [if_pos hr0] at h
    exact nomatch h
  · by_cases hs0 : s.isZero = true
    · rw [if_neg hr0, if_pos hs0] at h
      exact nomatch h
    · rw [if_neg hr0, if_neg hs0, Option.some.injEq, Prod.mk.injEq] at h
      obtain ⟨rfl, rfl⟩ := h
      -- the sign given to the point undoes the one given to the component
      obtain ⟨hlow0, hlow, hmul⟩ := low_spec hs.reduced
        (fun e => hs0 ((Scalar.isZero_iff s).mpr e)) (.some x y hxy)
      refine ⟨fun e => hr0 ((Scalar.isZero_iff r).mpr e), ?_, hlow0, hlow, _,
        hasNonce_of_coordinates hxy hr s.isHigh, hmul.trans ?_⟩
      · change r.toNat < order
        rw [hr]
        exact Nat.mod_lt _ (by decide)
      · change s.toNat • _ = _ + r.toNat • _
        rw [← hR, ← natCast_smul, hs.residue, ← natCast_smul k.toNat, smul_smul,
          mul_comm, mul_inv_cancel_left₀ (natCast_ne_zero hk hk0)]
        simp only [← natCast_smul]
        module

/-- With the nonce `k` neither component of the signature by the secret `d` on the integer `e` is
zero modulo the order: not the first coordinate of the nonce point, and not `e` plus its product
with the secret. -/
def Suits (d e k : Nat) : Prop :=
  ∃ x y, ∃ h : curve.Nonsingular x y,
    k • generator = .some x y h ∧ ¬ order ∣ x.val ∧ ¬ order ∣ e + d * x.val

theorem suits_one : Suits 1 0 1 := by
  refine ⟨_, _, (nonsingular_iff _ _).mpr generator_equation, ?_, ?_, ?_⟩
  · rw [one_nsmul]
    rfl
  · decide +kernel
  · decide +kernel

/-- A nonce is refused only when a component is zero. -/
theorem exists_withNonce?_iff {d e k : Scalar} (hd : d.toNat < order) (he : e.toNat < order)
    (hk : k.toNat < order) (hk0 : k.toNat ≠ 0) :
    (∃ signed, withNonce? d e k = some signed) ↔ Suits d.toNat e.toNat k.toNat := by
  obtain ⟨x, y, hxy, hR⟩ := exists_nonce_point hk hk0
  obtain ⟨r, s, hr, hs, heq⟩ := withNonce?_eq hd he hk hR
  have hr0 : r.isZero = true ↔ order ∣ x.val := by
    rw [Scalar.isZero_iff, hr, Nat.dvd_iff_mod_eq_zero]
  have hs0 : s.isZero = true ↔ order ∣ e.toNat + d.toNat * x.val := by
    rw [Scalar.isZero_iff_residue hs, mul_eq_zero, or_iff_right (inv_ne_zero (natCast_ne_zero hk hk0)),
      hr, ZMod.natCast_mod, ← Nat.cast_mul, ← Nat.cast_add, ZMod.natCast_eq_zero_iff]
  rw [heq]
  constructor
  · rintro ⟨signed, h⟩
    split at h
    · exact nomatch h
    · next hr1 =>
        split at h
        · exact nomatch h
        · next hs1 => exact ⟨x, y, hxy, hR, mt hr0.mpr hr1, mt hs0.mpr hs1⟩
  · rintro ⟨x', y', hxy', hR', hr1, hs1⟩
    rw [hR, WeierstrassCurve.Affine.Point.some.injEq] at hR'
    obtain ⟨rfl, rfl⟩ := hR'
    exact ⟨_, by rw [if_neg (mt hr0.mp hr1), if_neg (mt hs0.mp hs1)]⟩

/-- The loop gives what an attempt gives with one of its nonces; those before it are refused. -/
theorem exists_of_firstAccepted {α : Type} {nonce : Nat → Option Scalar}
    {attempt? : Scalar → Option α} {budget i : Nat} {signed : α}
    (h : firstAccepted nonce attempt? budget i = some signed) :
    ∃ j k, i ≤ j ∧ j < i + budget ∧ nonce j = some k ∧ attempt? k = some signed ∧
      ∀ l, i ≤ l → l < j → ∃ k', nonce l = some k' ∧ attempt? k' = none := by
  -- over the budget, for every first index: a refused nonce leaves one attempt less
  induction budget generalizing i with
  | zero => exact nomatch h
  | succ budget ih =>
      rw [firstAccepted] at h
      cases hn : nonce i with
      | none =>
          rw [hn] at h
          exact nomatch h
      | some k =>
          simp only [hn, Option.bind_eq_bind, Option.bind_some] at h
          cases ha : attempt? k with
          | some first =>
              rw [ha] at h
              exact ⟨i, k, le_rfl, by omega, hn, ha.trans h, fun l hl hi => by omega⟩
          | none =>
              rw [ha] at h
              obtain ⟨j, k', hij, hj, hk', hs, hbefore⟩ := ih h
              refine ⟨j, k', by omega, by omega, hk', hs, fun l hl hlj => ?_⟩
              rcases Nat.eq_or_lt_of_le hl with rfl | hlt
              · exact ⟨k, hn, ha⟩
              · exact hbefore l hlt hlj

/-- The loop comes to an end when it has a nonce for every turn up to one that is accepted. -/
theorem exists_firstAccepted {α : Type} {nonce : Nat → Option Scalar}
    {attempt? : Scalar → Option α} {budget i j : Nat} {k : Scalar} {signed : α} (hij : i ≤ j)
    (hj : j < i + budget) (hk : nonce j = some k) (hs : attempt? k = some signed)
    (hbefore : ∀ l ≤ j, ∃ k', nonce l = some k') :
    ∃ first, firstAccepted nonce attempt? budget i = some first := by
  induction budget generalizing i with
  | zero => omega
  | succ budget ih =>
      obtain ⟨k', hk'⟩ := hbefore i hij
      rw [firstAccepted]
      simp only [hk', Option.bind_eq_bind, Option.bind_some]
      cases ha : attempt? k' with
      | some first => exact ⟨first, rfl⟩
      | none =>
          rcases Nat.eq_or_lt_of_le hij with rfl | hlt
          · rw [hk, Option.some.injEq] at hk'
            rw [← hk', hs] at ha
            exact nomatch ha
          · exact ih hlt (by omega)

theorem hashInteger_eq {hash : Bytes} :
    hashInteger hash = Bytes.toNatBE (hash.window 32).toList := rfl

theorem hasNonce_verificationPoint {g : Signature} {id : RecoveryId} {d : SecretKey}
    {hash hash' : Bytes} (h : g.Solves id d.scalar (hashScalar hash))
    (hw : hash'.window 32 = hash.window 32) :
    g.HasNonce id (g.verificationPoint hash' (d.scalar.toNat • generator)) := by
  have hs : g.s.toNat < order := lt_of_le_of_lt h.s_le (by decide)
  obtain ⟨R, hR, heq⟩ := h.equation
  -- the equation solved for the multiple of the secret
  have hQ : g.recoveredPoint hash' R = d.scalar.toNat • generator := by
    rw [recoveredPoint, inv_smul_eq_iff₀ (natCast_ne_zero h.r_lt h.r_ne_zero), heq,
      ← natCast_smul (hashScalar hash).toNat, (denotes_hashScalar hash).residue, natCast_smul,
      natCast_smul, hashInteger_eq, hashInteger_eq, hw, add_sub_cancel_left]
  rw [(verificationPoint_eq_iff h.r_lt hs h.r_ne_zero h.s_ne_zero hash' _ R).mpr hQ]
  exact hR

/-- What is true of a signature and an identifier that a secret key made on a hash. Only the window
of the hash matters afterwards. -/
structure Genuine (g : Signature) (id : RecoveryId) (d : SecretKey) (hash : Bytes) : Prop where
  r_range : g.r.toNat ≠ 0 ∧ g.r.toNat < order
  s_range : g.s.toNat ≠ 0 ∧ g.s.toNat ≤ order / 2
  verify {hash' : Bytes} : hash'.window 32 = hash.window 32 → g.verify hash' d.publicKey = true
  recover {hash' : Bytes} :
    hash'.window 32 = hash.window 32 → g.recover hash' id = .ok d.publicKey
  recoverCompact {hash' : Bytes} (compressed : Bool) : hash'.window 32 = hash.window 32 →
    recoverCompact (g.toCompact id compressed) hash' = .ok (d.publicKey, compressed)

theorem Solves.genuine {g : Signature} {id : RecoveryId} {d : SecretKey} {hash : Bytes}
    (hd : d.scalar.toNat < order) (hd0 : d.scalar.toNat ≠ 0)
    (h : g.Solves id d.scalar (hashScalar hash)) : g.Genuine id d hash := by
  have hr := h.r_lt
  have hs : g.s.toNat < order := lt_of_le_of_lt h.s_le (by decide)
  have hkey := SecretKey.denotes_publicKey hd hd0
  have hrec {hash' : Bytes} (hw : hash'.window 32 = hash.window 32) :
      g.recover hash' id = .ok d.publicKey :=
    (recover_eq_ok_iff hr hs hkey hash' id).mpr
      ⟨h.r_ne_zero, h.s_ne_zero, hasNonce_verificationPoint h hw⟩
  refine ⟨⟨h.r_ne_zero, hr⟩, ⟨h.s_ne_zero, h.s_le⟩, ?_, hrec, ?_⟩
  · intro hash' hw
    rw [verify_eq_true_iff hr hs hkey, valid_iff_exists_id hr]
    exact ⟨h.r_ne_zero, h.s_ne_zero, id, hasNonce_verificationPoint h hw⟩
  · intro hash' compressed hw
    rw [recoverCompact_toCompact hr hs h.r_ne_zero h.s_ne_zero, hrec hw, ok_bind]

theorem genuine_of_signWith {nonce : Nat → Option Scalar} {d : SecretKey} {hash : Bytes}
    {budget i : Nat} {g : Signature} {id : RecoveryId}
    (hnonce : ∀ j k, nonce j = some k → k.toNat ≠ 0 ∧ k.toNat < order)
    (hd : d.scalar.toNat < order) (hd0 : d.scalar.toNat ≠ 0)
    (h : signWith nonce d.scalar (hashScalar hash) budget i = some (g, id)) :
    g.Genuine id d hash := by
  obtain ⟨j, k, -, -, hk, hsigned, -⟩ := exists_of_firstAccepted h
  obtain ⟨hk0, hklt⟩ := hnonce j k hk
  exact (solves_of_withNonce? hd (denotes_hashScalar hash).reduced hklt hk0 hsigned).genuine hd hd0

end Signature

namespace SecretKey
open Scalar (order)
open Signature (hashInteger hashScalar Suits)

/-- Some block of the nonce stream of RFC 6979 is usable and suits, with fewer than `2 ^ 32 - 1`
usable blocks before it. The search does not look beyond `2 ^ 64` blocks. -/
def CanSign (key : SecretKey) (hash : Bytes) (mac : Mac) : Prop :=
  let blocks := Nonce.stream mac (key.toBytes.toList ++ Nonce.pad32 hash)
  ∃ j < 2 ^ 64, Nonce.Usable (blocks j) ∧
    Nat.count (fun i => Nonce.Usable (blocks i)) j < 2 ^ 32 - 1 ∧
    Suits key.scalar.toNat (hashInteger hash) (Bytes.toNatBE (blocks j).toList)

/-- A keyed hash that always gives 1 suits the secret 1 on a hash of zeros. -/
theorem canSign_one : CanSign ⟨Scalar.one⟩ (List.replicate 32 0) fun _ _ => Bytes.window 32 [1] := by
  have hblock : Bytes.toNatBE (Bytes.window 32 [1]).toList = 1 := by decide
  have hhash : hashInteger (List.replicate 32 0) = 0 := by decide
  refine ⟨0, by decide, ?_, by rw [Nat.count_zero]; decide, ?_⟩
  · rw [Nonce.Usable, Nonce.stream, hblock]
    decide
  · rw [Scalar.toNat_one, hhash, Nonce.stream, hblock]
    exact Signature.suits_one

theorem suits_hashScalar_iff (d k : Nat) (hash : Bytes) :
    Suits d (hashScalar hash).toNat k ↔ Suits d (hashInteger hash) k := by
  have hmod : (hashScalar hash).toNat ≡ hashInteger hash [MOD order] :=
    (ZMod.natCast_eq_natCast_iff _ _ _).mp (Signature.denotes_hashScalar hash).residue
  have hdvd (v : Nat) : order ∣ (hashScalar hash).toNat + v ↔ order ∣ hashInteger hash + v :=
    (hmod.add_right v).dvd_iff dvd_rfl
  simp only [Suits, hdvd]

theorem deterministic_eq_some_iff {key : SecretKey} {hash : Bytes} {mac : Mac} {i : Nat}
    {k : Scalar} : Nonce.deterministic key.toBytes.toList hash [] [] i mac = some k ↔
      ∃ j < 2 ^ 64,
        Nonce.IsNonce (Nonce.stream mac (key.toBytes.toList ++ Nonce.pad32 hash)) i j k := by
  have hbudget : 0x10000000000000000 = 2 ^ 64 := rfl
  rw [Nonce.deterministic, Nonce.generate_eq_some_iff, Nonce.seed_of_key, hbudget]

/-- Signing returns a signature exactly when a block of the stream suits. -/
theorem exists_signRecoverable_iff {key : SecretKey} (hd : key.scalar.toNat < order) (hash : Bytes)
    (mac : Mac) : (∃ signed, key.signRecoverable hash mac = some signed) ↔ key.CanSign hash mac := by
  have he := (Signature.denotes_hashScalar hash).reduced
  constructor
  · rintro ⟨signed, h⟩
    obtain ⟨i, k, -, hi, hk, hs, -⟩ := Signature.exists_of_firstAccepted h
    obtain ⟨hk0, hklt⟩ := Nonce.deterministic_range hk
    have hsuits := (Signature.exists_withNonce?_iff hd he hklt hk0).mp ⟨signed, hs⟩
    obtain ⟨j, hj, hnonce⟩ := deterministic_eq_some_iff.mp hk
    rw [suits_hashScalar_iff, hnonce.value] at hsuits
    exact ⟨j, hj, hnonce.usable, by rw [hnonce.index]; omega, hsuits⟩
  · rintro ⟨j, hj, husable, hcount, hsuits⟩
    obtain ⟨k, hnonce⟩ := Nonce.exists_isNonce husable
    have hk := deterministic_eq_some_iff.mpr ⟨j, hj, hnonce⟩
    obtain ⟨hk0, hklt⟩ := Nonce.deterministic_range hk
    rw [← hnonce.value, ← suits_hashScalar_iff] at hsuits
    obtain ⟨signed, hs⟩ := (Signature.exists_withNonce?_iff hd he hklt hk0).mpr hsuits
    exact Signature.exists_firstAccepted (Nat.zero_le _) (by omega) hk hs fun l hl =>
      Nonce.exists_deterministic_of_le hk hl

theorem exists_sign_iff {key : SecretKey} (hd : key.scalar.toNat < order) (hash : Bytes)
    (mac : Mac) : (∃ g, key.sign hash mac = some g) ↔ key.CanSign hash mac := by
  rw [← exists_signRecoverable_iff hd]
  simp only [sign, Option.map_eq_some_iff]
  exact ⟨fun ⟨_, signed, h, _⟩ => ⟨signed, h⟩, fun ⟨signed, h⟩ => ⟨_, signed, h, rfl⟩⟩

end SecretKey

namespace Signature
open Scalar (order)

/-- Everything signed verifies and recovers, whatever usable nonces there are; the deterministic
nonces are usable, whatever the keyed hash is, and one of them signs exactly when a block of their
stream suits. What is signed has a compact form, which recovers too. -/
theorem signed_verifies_and_recovers {d : SecretKey} (hd : d.scalar.toNat < order)
    (hd0 : d.scalar.toNat ≠ 0) (hash : Bytes) :
    (∀ (nonce : Nat → Option Scalar) (budget i : Nat) (g : Signature) (id : RecoveryId),
      (∀ j k, nonce j = some k → k.toNat ≠ 0 ∧ k.toNat < order) →
      signWith nonce d.scalar (hashScalar hash) budget i = some (g, id) → g.Genuine id d hash) ∧
    (∀ mac : Mac, (∃ signed, d.signRecoverable hash mac = some signed) ↔ d.CanSign hash mac) ∧
    (∀ (mac : Mac) (g : Signature) (id : RecoveryId),
      d.signRecoverable hash mac = some (g, id) → g.Genuine id d hash ∧
        ∀ compressed : Bool, ∃ compact, d.signCompact hash compressed mac = some compact ∧
          ∀ hash' : Bytes, hash'.window 32 = hash.window 32 →
            recoverCompact compact hash' = .ok (d.publicKey, compressed)) ∧
    ∀ (mac : Mac) (compressed : Bool) (compact : Bytes),
      d.signCompact hash compressed mac = some compact →
        ∃ g id, d.signRecoverable hash mac = some (g, id) ∧
          ∀ hash' : Bytes, hash'.window 32 = hash.window 32 →
            recoverCompact compact hash' = .ok (d.publicKey, compressed) := by
  have hsign (mac : Mac) (g : Signature) (id : RecoveryId)
      (h : d.signRecoverable hash mac = some (g, id)) : g.Genuine id d hash :=
    genuine_of_signWith (fun _ _ hk => Nonce.deterministic_range hk) hd hd0 h
  refine ⟨fun nonce budget i g id hn h => genuine_of_signWith hn hd hd0 h,
    SecretKey.exists_signRecoverable_iff hd hash,
    fun mac g id h => ⟨hsign mac g id h, fun compressed => ?_⟩, fun mac compressed compact h => ?_⟩
  · refine ⟨g.toCompact id compressed, ?_, fun hash' => (hsign mac g id h).recoverCompact compressed⟩
    rw [SecretKey.signCompact, h, Option.map_some]
  · rw [SecretKey.signCompact, Option.map_eq_some_iff] at h
    obtain ⟨⟨g, id⟩, hg, rfl⟩ := h
    exact ⟨g, id, hg, fun hash' => (hsign mac g id hg).recoverCompact compressed⟩

/-- The secret 1 signs a hash of zeros when the keyed hash always gives 1. -/
theorem signed_with_one :
    let hash : Bytes := List.replicate 32 0
    let mac : Mac := fun _ _ => Bytes.window 32 [1]
    let d : SecretKey := ⟨Scalar.one⟩
    ∃ g id compact, d.signRecoverable hash mac = some (g, id) ∧ g.verify hash d.publicKey = true ∧
      g.recover hash id = .ok d.publicKey ∧ d.signCompact hash true mac = some compact ∧
      recoverCompact compact hash = .ok (d.publicKey, true) := by
  intro hash mac d
  have h1 : d.scalar.toNat < order := by decide
  obtain ⟨-, hreturns, hvalid, -⟩ := signed_verifies_and_recovers h1 (by decide) hash
  obtain ⟨⟨g, id⟩, hsigned⟩ := (hreturns mac).mpr SecretKey.canSign_one
  obtain ⟨hgenuine, hcompact⟩ := hvalid mac g id hsigned
  obtain ⟨compact, hwritten, hrecovers⟩ := hcompact true
  exact ⟨g, id, compact, hsigned, hgenuine.verify rfl, hgenuine.recover rfl, hwritten,
    hrecovers hash rfl⟩

end Signature

end CurveKeys.Secp256k1
