import CurveKeys.Proofs.Secp256k1.Field.Encoding
import CurveKeys.Proofs.Secp256k1.Multiple
import CurveKeys.Secp256k1.SecretKey

/-!
Public keys stand for points of the curve other than infinity, whichever way they were made.
-/

namespace CurveKeys.Secp256k1

theorem ok_bind {ε α β : Type} (a : α) (f : α → Except ε β) : (.ok a >>= f) = f a := rfl

theorem error_bind {ε α β : Type} (e : ε) (f : α → Except ε β) :
    (.error e >>= f) = (.error e : Except ε β) := rfl

theorem bind_eq_ok_iff {ε α β : Type} {a : Except ε α} {f : α → Except ε β} {b : β} :
    (a >>= f) = .ok b ↔ ∃ x, a = .ok x ∧ f x = .ok b := by
  cases a with
  | error e => exact ⟨fun h => (nomatch h), fun ⟨_, h, _⟩ => (nomatch h)⟩
  | ok x => exact ⟨fun h => ⟨x, rfl, h⟩, fun ⟨_, h, hf⟩ => Except.ok.inj h ▸ hf⟩

theorem bind_eq_error_iff {ε α β : Type} {a : Except ε α} {f : α → Except ε β} {e : ε} :
    (a >>= f) = .error e ↔ a = .error e ∨ ∃ x, a = .ok x ∧ f x = .error e := by
  cases a with
  | error e' =>
      rw [error_bind]
      exact ⟨fun h => Or.inl (congrArg _ (Except.error.inj h)),
        fun h => h.elim (fun h => congrArg _ (Except.error.inj h)) fun ⟨_, h, _⟩ => nomatch h⟩
  | ok x =>
      exact ⟨fun h => Or.inr ⟨x, rfl, h⟩,
        fun h => h.elim (fun h => nomatch h) fun ⟨_, h, hf⟩ => Except.ok.inj h ▸ hf⟩

namespace PublicKey
open FieldElement Curve

structure Denotes (key : PublicKey) (Q : Point) : Prop where
  point : key.point.Denotes Q
  ne_zero : Q ≠ 0

theorem denotes_toJacobian {key : PublicKey} {Q : Point} (h : key.Denotes Q) :
    key.toJacobian.Denotes Q :=
  JacobianPoint.denotes_ofAffine h.point

theorem eq_of_denotes {k l : PublicKey} {Q : Point} (hk : k.Denotes Q) (hl : l.Denotes Q) :
    k = l := by
  have h := AffinePoint.eq_of_denotes hk.point hl.point
  cases k
  cases l
  rw [mk.injEq]
  exact h

theorem denotes_of_ofAffine {p : AffinePoint} {P : Point} (h : p.Denotes P) (hP : P ≠ 0) :
    ∃ key, ofAffine p = .ok key ∧ key.Denotes P := by
  refine ⟨⟨p⟩, ?_, h, hP⟩
  rw [ofAffine, if_neg fun e => hP ((AffinePoint.isIdentity_iff h).mp e)]

theorem coordinate_canonical {b : Bytes} {x : FieldElement} (h : coordinate b = .ok x) :
    x.Canonical := by
  have hc : (reduceSlice b).1.Canonical := canonical_reduceBytes _
  unfold coordinate at h
  generalize reduceSlice b = r at h hc
  obtain ⟨v, overflow⟩ := r
  cases overflow with
  | true => exact nomatch h
  | false =>
      obtain rfl := Except.ok.inj h
      exact hc

theorem ofCompressed_eq_ok_iff {tag : UInt8} {b : Bytes} {key : PublicKey} :
    ofCompressed tag b = .ok key ↔ (tag = 2 ∨ tag = 3) ∧
      ∃ x, coordinate b = .ok x ∧ AffinePoint.decompress? x (tag = 3) = some key.point := by
  unfold ofCompressed
  split
  · next htag =>
      rw [bind_eq_ok_iff, and_iff_right htag]
      refine exists_congr fun x => and_congr_right fun _ => ?_
      cases AffinePoint.decompress? x (tag = 3) with
      | none => exact iff_of_false (fun e => nomatch e) fun e => nomatch e
      | some p =>
          rw [Except.ok.injEq, Option.some.injEq]
          exact ⟨fun e => e ▸ rfl, fun e => e ▸ rfl⟩
  · next htag => exact iff_of_false (fun e => nomatch e) fun e => htag e.1

theorem ofUncompressed_eq_ok_iff {tag : UInt8} {a b : Bytes} {key : PublicKey} :
    ofUncompressed tag a b = .ok key ↔ (tag = 4 ∨ tag = 6 ∨ tag = 7) ∧
      ∃ x y, coordinate a = .ok x ∧ coordinate b = .ok y ∧
        (tag = 4 ∨ y.isOdd = decide (tag = 7)) ∧
        AffinePoint.ofCoordinates? x y = some key.point := by
  unfold ofUncompressed
  split
  · next htag =>
      simp only [bind_eq_ok_iff, and_iff_right htag, exists_and_left]
      refine exists_congr fun x => and_congr_right fun _ => exists_congr fun y =>
        and_congr_right fun _ => ?_
      by_cases hparity : tag = 4 ∨ y.isOdd = decide (tag = 7)
      · rw [if_neg (by rwa [← not_or, not_not]), and_iff_right hparity]
        cases AffinePoint.ofCoordinates? x y with
        | none => exact iff_of_false (fun e => nomatch e) fun e => nomatch e
        | some p =>
            rw [Except.ok.injEq, Option.some.injEq]
            exact ⟨fun e => e ▸ rfl, fun e => e ▸ rfl⟩
      · rw [if_pos (not_or.mp hparity)]
        exact iff_of_false (fun e => nomatch e) fun e => hparity e.1
  · next htag => exact iff_of_false (fun e => nomatch e) fun e => htag e.1

theorem ofBytes_cons_eq_ok_iff {tag : UInt8} {body : Bytes} {key : PublicKey} :
    ofBytes (tag :: body) = .ok key ↔
      body.length = 32 ∧ ofCompressed tag body = .ok key ∨
      body.length = 64 ∧ ofUncompressed tag (body.take 32) (body.drop 32) = .ok key := by
  rw [ofBytes]
  split
  · next h => simp [h]
  · next h =>
      rw [or_iff_right fun e => h e.1]
      split
      · next h => exact (and_iff_right h).symm
      · next h => exact iff_of_false (fun e => nomatch e) fun e => h e.1

theorem exists_denotes_of_ofCompressed {tag : UInt8} {b : Bytes} {key : PublicKey}
    (h : ofCompressed tag b = .ok key) : ∃ Q, key.Denotes Q := by
  obtain ⟨-, x, hx, hp⟩ := ofCompressed_eq_ok_iff.mp h
  obtain ⟨y, e, hd, -⟩ := AffinePoint.denotes_of_decompress?
    (coordinate_canonical hx).denotes (by decide) hp
  exact ⟨_, hd, WeierstrassCurve.Affine.Point.some_ne_zero _⟩

theorem exists_denotes_of_ofUncompressed {tag : UInt8} {a b : Bytes} {key : PublicKey}
    (h : ofUncompressed tag a b = .ok key) : ∃ Q, key.Denotes Q := by
  obtain ⟨-, x, y, hx, hy, -, hp⟩ := ofUncompressed_eq_ok_iff.mp h
  obtain ⟨e, hd⟩ := AffinePoint.denotes_ofCoordinates? (coordinate_canonical hx).denotes
    (coordinate_canonical hy).denotes (by decide) (by decide) hp
  exact ⟨_, hd, WeierstrassCurve.Affine.Point.some_ne_zero _⟩

/-- Every key that is read from bytes is a point other than infinity. -/
theorem exists_denotes_of_ofBytes {b : Bytes} {key : PublicKey} (h : ofBytes b = .ok key) :
    ∃ Q, key.Denotes Q := by
  cases b with
  | nil => exact nomatch h
  | cons tag body =>
      rcases ofBytes_cons_eq_ok_iff.mp h with ⟨-, h⟩ | ⟨-, h⟩
      · exact exists_denotes_of_ofCompressed h
      · exact exists_denotes_of_ofUncompressed h

end PublicKey

namespace SecretKey
open Curve

theorem denotes_publicKey {d : SecretKey} (h : d.scalar.toNat < Scalar.order)
    (h0 : d.scalar.toNat ≠ 0) : d.publicKey.Denotes (d.scalar.toNat • generator) := by
  refine ⟨JacobianPoint.denotes_toAffine (JacobianPoint.denotes_mulBase h), ?_⟩
  rw [← natCast_smul, Ne, smul_generator_eq_zero_iff, ZMod.natCast_eq_zero_iff]
  exact fun hdvd => h0 (Nat.eq_zero_of_dvd_of_lt hdvd h)

end SecretKey

end CurveKeys.Secp256k1
