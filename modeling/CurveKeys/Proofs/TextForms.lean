import CurveKeys.Proofs.Edwards25519.Forms
import CurveKeys.Proofs.Secp256k1.Der.Reading
import CurveKeys.Proofs.Secp256k1.Sec1
import CurveKeys.Proofs.Text

/-!
Keys and signatures as text. Each has a form of fixed width, which gives back the bytes that were
read and accepts exactly the bytes that stand for a value; the text is that form in hexadecimal, so
a text is decided by the value up to the case of its letters, and the value by the text.
-/

namespace CurveKeys
open Hex (Spells)

/-- Of the strings of `n` bytes the accepted ones are read, and are written back as they were. -/
structure FixedForm {ε α : Type} (n : Nat) (Accepted : Bytes → Prop) (write : α → Bytes)
    (read : Bytes → Except ε α) : Prop where
  accepts : ∀ b, b.length = n → ((∃ x, read b = .ok x) ↔ Accepted b)
  writes : ∀ b x, b.length = n → read b = .ok x → write x = b

/-- The texts of the accepted strings of `n` bytes are read, in either letter case, and are written
back in one letter case. -/
structure TextForm {ε α : Type} (c : Hex.Case) (n : Nat) (Accepted : Bytes → Prop)
    (bytes : α → Bytes) (write : α → String) (read : String → Except (TextError ε) α) : Prop where
  accepts : ∀ text, (∃ x, read text = .ok x) ↔
    ∃ b, Spells text.toList b ∧ text.length = 2 * n ∧ Accepted b
  spells : ∀ text x, read text = .ok x → Spells text.toList (bytes x)
  writes : ∀ text x, read text = .ok x → write x = c.foldText text

/-- The text form of a form of fixed width. -/
theorem FixedForm.text {ε α : Type} {n : Nat} {Accepted : Bytes → Prop} {bytes : α → Bytes}
    {decode : Bytes → Except ε α} (h : FixedForm n Accepted bytes decode) (c : Hex.Case) :
    TextForm c n Accepted bytes (fun x => Hex.encode c (bytes x)) (TextError.read n decode) where
  accepts text := by
    constructor
    · rintro ⟨x, hx⟩
      obtain ⟨b, hb, hn, hx⟩ := TextError.read_eq_ok_iff.mp hx
      refine ⟨b, hb, ?_, (h.accepts b hn).mp ⟨x, hx⟩⟩
      rw [← String.length_toList, hb.length_eq, hn]
    · rintro ⟨b, hb, hlength, haccepted⟩
      rw [← String.length_toList, hb.length_eq] at hlength
      have hn : b.length = n := by omega
      obtain ⟨x, hx⟩ := (h.accepts b hn).mpr haccepted
      exact ⟨x, TextError.read_eq_ok_iff.mpr ⟨b, hb, hn, hx⟩⟩
  spells text x hx := by
    obtain ⟨b, hb, hn, hx⟩ := TextError.read_eq_ok_iff.mp hx
    rwa [h.writes b x hn hx]
  writes text x hx := by
    obtain ⟨b, hb, hn, hx⟩ := TextError.read_eq_ok_iff.mp hx
    rw [h.writes b x hn hx, Hex.encode_eq_foldText hb]

namespace Secp256k1

namespace Signature
open Scalar (order)

/-- Both components of a fixed-width form are in range. -/
def AcceptedBytes (b : Bytes) : Prop :=
  InRange (Bytes.toNatBE (b.take 32)) ∧ InRange (Bytes.toNatBE (b.drop 32))

theorem ofBytes_eq_ok_iff {b : Bytes} (hb : b.length = 64) {g : Signature} :
    ofBytes b = .ok g ↔
      component .r (b.take 32) = .ok g.r ∧ component .s (b.drop 32) = .ok g.s := by
  rw [ofBytes, if_pos hb]
  simp only [bind_eq_ok_iff, Except.ok.injEq]
  constructor
  · rintro ⟨r, hr, s, hs, rfl⟩
    exact ⟨hr, hs⟩
  · rintro ⟨hr, hs⟩
    exact ⟨g.r, hr, g.s, hs, rfl⟩

/-- A component of 32 bytes is written as it was read. -/
theorem toBytes_of_component {c : Component} {b : Bytes} {k : Scalar} (hb : b.length = 32)
    (h : component c b = .ok k) : k.toBytes.toList = b := by
  obtain ⟨-, -, hk⟩ := component_eq_ok_iff.mp h
  refine Bytes.eq_of_toNatBE_eq (by rw [k.toBytes.length_toList, hb]) ?_
  rw [Scalar.toNatBE_toBytes, hk]

theorem fixedForm : FixedForm 64 AcceptedBytes toBytes ofBytes where
  accepts b hb := by
    obtain ⟨-, -, hr⟩ := component_spec .r (b.take 32)
    obtain ⟨-, -, hs⟩ := component_spec .s (b.drop 32)
    simp only [ofBytes_eq_ok_iff hb]
    constructor
    · rintro ⟨g, hgr, hgs⟩
      exact ⟨(component_eq_ok_iff.mp hgr).2.1, (component_eq_ok_iff.mp hgs).2.1⟩
    · rintro ⟨hbr, hbs⟩
      obtain ⟨r, -, hr⟩ := hr (by simp [hb]) hbr
      obtain ⟨s, -, hs⟩ := hs (by simp [hb]) hbs
      exact ⟨⟨r, s⟩, hr, hs⟩
  writes b g hb h := by
    obtain ⟨hr, hs⟩ := (ofBytes_eq_ok_iff hb).mp h
    rw [toBytes, toBytes_of_component (by simp [hb]) hr, toBytes_of_component (by simp [hb]) hs,
      List.take_append_drop]

end Signature

namespace PublicKey

theorem fixedForm : FixedForm 33 IsSec1 toCompressed ofBytes where
  accepts _ _ := ⟨fun ⟨_, h⟩ => isSec1_of_ofBytes h, exists_ofBytes_of_isSec1⟩
  writes _ _ hb h := toCompressed_of_ofBytes h hb

theorem length_toCompressed (key : PublicKey) : key.toCompressed.length = 33 := by
  rw [toCompressed, List.length_cons, Vector.length_toList]

end PublicKey

end Secp256k1

namespace Edwards25519

namespace Signature

theorem length_toBytes (g : Signature) : g.toBytes.length = 64 := by
  rw [toBytes, List.length_append, Vector.length_toList, Vector.length_toList]

/-- Every string of the right length is a signature. -/
theorem fixedForm : FixedForm 64 (fun _ => True) toBytes ofBytes where
  accepts b hb := by
    rw [ofBytes, if_pos hb]
    exact iff_of_true ⟨_, rfl⟩ trivial
  writes _ _ _ h := toBytes_of_ofBytes h

end Signature

namespace VerifyingKey
open Curve (Decodes)

/-- The bytes stand for a point, whether they are its canonical encoding or not. -/
def AcceptedBytes (b : Bytes) : Prop := ∃ P, Decodes (b.window 32) P

theorem fixedForm : FixedForm 32 AcceptedBytes (·.bytes.toList) ofSlice where
  accepts b hb := by
    obtain ⟨v, rfl⟩ := Bytes.exists_eq_toList hb
    rw [AcceptedBytes, Bytes.window_toList]
    constructor
    · rintro ⟨key, h⟩
      obtain ⟨w, hw, h⟩ := ofSlice_eq_ok_iff.mp h
      obtain ⟨hbytes, P, hP⟩ := represents_of_ofBytes h
      rw [← Vector.toList_inj.mp hw, ← hbytes]
      exact ⟨P, hP.bytes⟩
    · rintro ⟨P, hP⟩
      obtain ⟨p, hp, -⟩ := Point.exists_ofBytes_of_decodes hP
      refine ⟨⟨v, p⟩, ofSlice_eq_ok_iff.mpr ⟨v, rfl, ?_⟩⟩
      rw [ofBytes, hp]
      rfl
  writes b key _ h := by
    obtain ⟨v, rfl, hv⟩ := ofSlice_eq_ok_iff.mp h
    exact congrArg Vector.toList (represents_of_ofBytes hv).1

theorem obtained_of_ofText {text : String} {key : VerifyingKey} (h : ofText text = .ok key) :
    key.Obtained := by
  obtain ⟨b, -, -, hb⟩ := TextError.read_eq_ok_iff.mp h
  obtain ⟨v, -, hv⟩ := ofSlice_eq_ok_iff.mp hb
  exact .read hv

/-- A key is read back from its own encoding with the same bytes, as the same point. -/
theorem exists_ofText_toText {key : VerifyingKey} (h : key.Obtained) :
    ∃ again, ofText key.toText = .ok again ∧ (again == key) = true ∧
      again.point.same key.point = true := by
  obtain ⟨P, hP⟩ := h.represents
  obtain ⟨again, hread, hbytes, hagain⟩ := exists_ofBytes hP
  have hbeq : (again.bytes == key.bytes) = true := beq_iff_eq.mpr hbytes
  exact ⟨again, TextError.read_encode .lower key.bytes.length_toList
    (ofSlice_eq_ok_iff.mpr ⟨_, rfl, hread⟩), hbeq, (Point.same_iff hagain.point hP.point).mpr rfl⟩

end VerifyingKey

end Edwards25519

open Secp256k1.Signature (InRange)

/-- The texts of the four kinds of values: what is written is read as an equal value, and what is
read is written as the text was, in upper case on the one curve and in lower case on the other. -/
theorem text_forms_exact :
    (FixedForm 64 Secp256k1.Signature.AcceptedBytes Secp256k1.Signature.toBytes
        Secp256k1.Signature.ofBytes ∧
      TextForm .upper 64 Secp256k1.Signature.AcceptedBytes Secp256k1.Signature.toBytes
        Secp256k1.Signature.toText Secp256k1.Signature.ofText ∧
      ∀ g : Secp256k1.Signature, InRange g.r.toNat → InRange g.s.toNat →
        Secp256k1.Signature.ofText g.toText = .ok g) ∧
    (FixedForm 33 Secp256k1.IsSec1 Secp256k1.PublicKey.toCompressed
        Secp256k1.PublicKey.ofBytes ∧
      TextForm .upper 33 Secp256k1.IsSec1 Secp256k1.PublicKey.toCompressed
        Secp256k1.PublicKey.toText Secp256k1.PublicKey.ofText ∧
      ∀ key : Secp256k1.PublicKey, key.Obtained →
        Secp256k1.PublicKey.ofText key.toText = .ok key) ∧
    (FixedForm 64 (fun _ => True) Edwards25519.Signature.toBytes Edwards25519.Signature.ofBytes ∧
      TextForm .lower 64 (fun _ => True) Edwards25519.Signature.toBytes
        Edwards25519.Signature.toText Edwards25519.Signature.ofText ∧
      ∀ g : Edwards25519.Signature, Edwards25519.Signature.ofText g.toText = .ok g) ∧
    (FixedForm 32 Edwards25519.VerifyingKey.AcceptedBytes (·.bytes.toList)
        Edwards25519.VerifyingKey.ofSlice ∧
      TextForm .lower 32 Edwards25519.VerifyingKey.AcceptedBytes (·.bytes.toList)
        Edwards25519.VerifyingKey.toText Edwards25519.VerifyingKey.ofText ∧
      ∀ key : Edwards25519.VerifyingKey, key.Obtained →
        ∃ again, Edwards25519.VerifyingKey.ofText key.toText = .ok again ∧
          (again == key) = true ∧ again.point.same key.point = true) := by
  have secpSignature := Secp256k1.Signature.fixedForm
  have secpKey := Secp256k1.PublicKey.fixedForm
  have edSignature := Edwards25519.Signature.fixedForm
  have edKey := Edwards25519.VerifyingKey.fixedForm
  refine ⟨⟨secpSignature, secpSignature.text .upper, fun g hr hs => ?_⟩,
    ⟨secpKey, secpKey.text .upper, fun key hkey => ?_⟩,
    ⟨edSignature, edSignature.text .lower, fun g => ?_⟩,
    ⟨edKey, edKey.text .lower,
      fun key hkey => Edwards25519.VerifyingKey.exists_ofText_toText hkey⟩⟩
  · exact TextError.read_encode .upper g.length_toBytes
      (Secp256k1.Signature.ofBytes_toBytes hr.2 hs.2 (Nat.one_le_iff_ne_zero.mp hr.1)
        (Nat.one_le_iff_ne_zero.mp hs.1))
  · obtain ⟨Q, hQ⟩ := hkey.denotes
    exact TextError.read_encode .upper key.length_toCompressed
      (Secp256k1.PublicKey.ofBytes_toCompressed hQ)
  · exact TextError.read_encode .lower g.length_toBytes (Edwards25519.Signature.ofBytes_toBytes g)

/-- The identity with a second coordinate that is not reduced. -/
def unreducedIdentity : Bytes := Bytes.ofNatLE 32 (Edwards25519.FieldElement.prime + 1)

theorem acceptedBytes_unreducedIdentity :
    Edwards25519.VerifyingKey.AcceptedBytes unreducedIdentity := by
  have hvalue : Bytes.toNatLE (unreducedIdentity.window 32).toList =
      Edwards25519.FieldElement.prime + 1 := Bytes.toNatLE_window_ofNatLE (by decide)
  have hlow : (Edwards25519.FieldElement.prime + 1) % 2 ^ 255 =
      Edwards25519.FieldElement.prime + 1 := by decide
  refine ⟨0, ?_, Or.inl rfl⟩
  rw [hvalue, hlow, Nat.cast_add, ZMod.natCast_self, zero_add, Nat.cast_one]
  rfl

/-- The key of the unreduced identity keeps its bytes, and its text in upper case is written in
lower case. -/
theorem text_forms_of_unreduced :
    (∃ key, Edwards25519.VerifyingKey.ofText (Hex.encode .upper unreducedIdentity) = .ok key ∧
      key.bytes.toList = unreducedIdentity ∧
      key.toText = (Hex.encode .upper unreducedIdentity).toLower ∧ key.Obtained ∧
      ∃ again, Edwards25519.VerifyingKey.ofText key.toText = .ok again ∧ (again == key) = true) ∧
    Secp256k1.PublicKey.Obtained ⟨.generator⟩ ∧
    Secp256k1.PublicKey.ofText (Secp256k1.PublicKey.toText ⟨.generator⟩) = .ok ⟨.generator⟩ ∧
    InRange Secp256k1.Scalar.one.toNat ∧
    Secp256k1.Signature.ofText (Secp256k1.Signature.toText ⟨.one, .one⟩) = .ok ⟨.one, .one⟩ := by
  obtain ⟨⟨-, -, hsignature⟩, ⟨-, -, hpublic⟩, -, -, hform, hkey⟩ := text_forms_exact
  have hone : InRange Secp256k1.Scalar.one.toNat := by decide
  have hgenerator : Secp256k1.PublicKey.Obtained ⟨.generator⟩ :=
    .ofAffine .affineGenerator (by decide)
  refine ⟨?_, hgenerator, hpublic _ hgenerator, hone, hsignature ⟨.one, .one⟩ hone hone⟩
  have hspells : Spells (Hex.encode .upper unreducedIdentity).toList unreducedIdentity :=
    Hex.decode_eq_some_iff.mp (Hex.decode_encode _ _)
  have hlength : (Hex.encode .upper unreducedIdentity).length = 2 * 32 := by
    rw [← String.length_toList, hspells.length_eq, unreducedIdentity, Bytes.length_ofNatLE]
  obtain ⟨key, hread⟩ :=
    (hform.accepts _).mpr ⟨_, hspells, hlength, acceptedBytes_unreducedIdentity⟩
  have hobtained := Edwards25519.VerifyingKey.obtained_of_ofText hread
  obtain ⟨again, hagain, hbeq, -⟩ := hkey key hobtained
  exact ⟨key, hread, (hform.spells _ key hread).unique hspells, hform.writes _ key hread,
    hobtained, again, hagain, hbeq⟩

end CurveKeys
