/-
  Store/ResultId.lean --- `StoreResultId` of `prep-store/src/lib.rs`, and how far
  it agrees with the `ResultId` of `prep-core`.

  The two crates parse one format with two pieces of code.  The core hands the
  text after the tag to `Sha256Digest::parse`, which folds case and then drops a
  second tag; the store looks at the text after the tag directly.
-/
import Prep.Core.ResultId
import Prep.Store.Error

set_option autoImplicit false

namespace Prep.Store

open Prep.Text
open Prep.Manifest
open Prep.Core (ResultId IdentityError)

/-- `StoreResultId`: sixty-four hexadecimal digits in lower case. -/
structure StoreResultId where
  hex : Bytes
  length : hex.length = 64
  hexdigits : hex.all isLowerHexdigit = true

namespace StoreResultId

@[ext] theorem ext {left right : StoreResultId} (h : left.hex = right.hex) :
    left = right := by
  cases left
  cases right
  cases h
  rfl

instance : DecidableEq StoreResultId := fun left right =>
  decidable_of_iff (left.hex = right.hex) ⟨ext, congrArg hex⟩

/-- `StoreResultId::parse`. -/
def parse (value : Bytes) : Except StoreError StoreResultId :=
  match stripPrefix (ascii "sha256:") value with
  | none => .error (.invalidResultId "result identity must use sha256:<64 hex> form")
  | some hex =>
      if h : hex.length = 64 ∧ hex.all isAsciiHexdigit = true then
        .ok ⟨toAsciiLowercase hex, by rw [length_toAsciiLowercase]; exact h.1,
          (all_isLowerHexdigit_iff _).mpr
            ⟨by rw [all_isAsciiHexdigit_toAsciiLowercase]; exact h.2,
              toAsciiLowercase_toAsciiLowercase hex⟩⟩
      else
        .error (.invalidResultId
          "result identity must contain exactly 64 hexadecimal characters")

/-- `StoreResultId::as_string`. -/
def asString (id : StoreResultId) : Bytes := ascii "sha256:" ++ id.hex

theorem parse_eq_ok_iff {value : Bytes} {id : StoreResultId} :
    parse value = .ok id ↔
      ∃ hex, value = ascii "sha256:" ++ hex ∧
        hex.length = 64 ∧ hex.all isAsciiHexdigit = true ∧
        id.hex = toAsciiLowercase hex := by
  constructor
  · intro h
    unfold parse at h
    split at h
    · cases h
    · rename_i hex hvalue
      split at h
      · rename_i hhex
        cases h
        exact ⟨hex, stripPrefix_eq_some.mp hvalue, hhex.1, hhex.2, rfl⟩
      · cases h
  · rintro ⟨hex, rfl, hlength, hhex, hid⟩
    unfold parse
    rw [stripPrefix_append]
    simp only [hlength, hhex, and_self, dite_true]
    exact congrArg Except.ok (ext hid.symm)

theorem parse_isOk_iff {hex : Bytes} :
    (parse (ascii "sha256:" ++ hex)).isOk = true ↔
      hex.length = 64 ∧ hex.all isAsciiHexdigit = true := by
  unfold parse
  rw [stripPrefix_append]
  simp only
  split
  · rename_i h
    exact ⟨fun _ => h, fun _ => rfl⟩
  · rename_i h
    exact ⟨fun hfalse => absurd hfalse Bool.false_ne_true, fun hhex => absurd hhex h⟩

/-- An identifier is read back from its own text. -/
theorem parse_asString (id : StoreResultId) : parse id.asString = .ok id := by
  obtain ⟨hhex, hlower⟩ := (all_isLowerHexdigit_iff id.hex).mp id.hexdigits
  exact parse_eq_ok_iff.mpr ⟨id.hex, rfl, id.length, hhex, hlower.symm⟩

end StoreResultId

/-! ## Agreement of the two parsers -/

/-- The shape both crates document: `sha256:` and sixty-four lower-case
hexadecimal digits. -/
def IsCanonicalId (text : Bytes) : Prop :=
  ∃ hex : Bytes, text = ascii "sha256:" ++ hex ∧ hex.length = 64 ∧
    hex.all isLowerHexdigit = true

/-- On `s` the two parsers give the same verdict, and when they accept they
produce one canonical text, which both read back unchanged. -/
def ParsersAgree (s : Bytes) : Prop :=
  ((ResultId.parse s).isOk = (StoreResultId.parse s).isOk) ∧
  ∀ core store, ResultId.parse s = .ok core → StoreResultId.parse s = .ok store →
    core.asStr = store.asString ∧ IsCanonicalId core.asStr ∧
    ResultId.parse core.asStr = .ok core ∧ StoreResultId.parse core.asStr = .ok store

/-- The tag, the tag again in any letter case, and sixty-four hexadecimal
digits. -/
def DoublyTagged (s : Bytes) : Prop :=
  ∃ tag hex : Bytes, s = ascii "sha256:" ++ (tag ++ hex) ∧
    toAsciiLowercase tag = ascii "sha256:" ∧ hex.length = 64 ∧
    hex.all isAsciiHexdigit = true

/-- The two parsers agree on a string exactly when it is not doubly tagged. -/
theorem parsersAgree_iff (s : Bytes) : ParsersAgree s ↔ ¬ DoublyTagged s := by
  constructor
  · rintro ⟨hverdict, _⟩ ⟨tag, hex, rfl, htag, hlength, hhex⟩
    have hcore : (ResultId.parse (ascii "sha256:" ++ (tag ++ hex))).isOk = true := by
      obtain ⟨id, hid, _⟩ := ResultId.parse_of_isOk
        (Sha256Digest.parse_isOk_iff.mpr (Or.inr ⟨tag, hex, rfl, htag, hlength, hhex⟩))
      rw [hid]
      rfl
    rw [hcore] at hverdict
    obtain ⟨hlong, _⟩ := StoreResultId.parse_isOk_iff.mp hverdict.symm
    rw [List.length_append, Sha256Digest.length_of_folds_to_tag htag, hlength] at hlong
    omega
  · intro hsingle
    constructor
    · rw [Bool.eq_iff_iff]
      constructor
      · intro hcore
        cases hparse : ResultId.parse s with
        | error e => rw [hparse] at hcore; exact absurd hcore Bool.false_ne_true
        | ok id =>
            obtain ⟨digest, rfl, hok, _⟩ := ResultId.parse_eq_ok_iff.mp hparse
            cases Sha256Digest.parse_isOk_iff.mp hok with
            | inl h => exact StoreResultId.parse_isOk_iff.mpr h
            | inr h =>
                obtain ⟨tag, hex, rfl, hrest⟩ := h
                exact absurd ⟨tag, hex, rfl, hrest⟩ hsingle
      · intro hstore
        cases hparse : StoreResultId.parse s with
        | error e => rw [hparse] at hstore; exact absurd hstore Bool.false_ne_true
        | ok id =>
            obtain ⟨hex, rfl, hlength, hhex, _⟩ := StoreResultId.parse_eq_ok_iff.mp hparse
            obtain ⟨core, hcore, _⟩ := ResultId.parse_of_isOk
              (Sha256Digest.parse_isOk_iff.mpr (Or.inl ⟨hlength, hhex⟩))
            rw [hcore]
            rfl
    · intro core store hcore hstore
      obtain ⟨digest, hs, _, hcoreText⟩ := ResultId.parse_eq_ok_iff.mp hcore
      obtain ⟨hex, hs', hlength, hhex, hstoreHex⟩ := StoreResultId.parse_eq_ok_iff.mp hstore
      have hdigest : digest = hex := List.append_cancel_left (hs.symm.trans hs')
      subst hdigest
      have htext : core.asStr = store.asString := by
        rw [hcoreText, StoreResultId.asString, hstoreHex]
      refine ⟨htext, ⟨store.hex, htext, store.length, store.hexdigits⟩, ?_, ?_⟩
      · rw [htext]
        obtain ⟨hstoreHexdigits, hlower⟩ := (all_isLowerHexdigit_iff store.hex).mp store.hexdigits
        exact ResultId.parse_eq_ok_iff.mpr ⟨store.hex, rfl,
          Sha256Digest.parse_isOk_iff.mpr (Or.inl ⟨store.length, hstoreHexdigits⟩),
          by rw [htext, hlower, StoreResultId.asString]⟩
      · rw [htext]
        exact StoreResultId.parse_asString store

/-- `sha256:sha256:` and sixty-four zeros: the core takes it, the store does not. -/
theorem parsers_disagree_on_doubled_tag :
    ¬ ParsersAgree (ascii "sha256:sha256:" ++ List.replicate 64 48) := by
  intro h
  exact absurd h.1 (by decide +kernel)

end Prep.Store
