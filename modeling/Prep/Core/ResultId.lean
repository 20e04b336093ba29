/-
  Core/ResultId.lean --- `ResultId` of `prep-core/src/identity.rs`.
-/
import Prep.Manifest.Types

set_option autoImplicit false

namespace Prep.Core

open Prep.Text
open Prep.Manifest

/-- `IdentityError`. -/
inductive IdentityError where
  | nonCacheableSource
  | invalid (message : String)
  | duplicateDependency (package : Bytes)
  | duplicateToolRole (role : Bytes)
  deriving DecidableEq, Repr

/-- `ResultId`: the tag and, in lower case, a text that `Sha256Digest::parse`
accepts. -/
structure ResultId where
  asStr : Bytes
  tagged : ∃ digest, (Sha256Digest.parse digest).isOk = true ∧
    asStr = ascii "sha256:" ++ toAsciiLowercase digest

namespace ResultId

@[ext] theorem ext {left right : ResultId} (h : left.asStr = right.asStr) : left = right := by
  cases left
  cases right
  cases h
  rfl

instance : DecidableEq ResultId := fun left right =>
  decidable_of_iff (left.asStr = right.asStr) ⟨ext, congrArg asStr⟩

/-- `ResultId::parse`.  The digest is checked by `Sha256Digest::parse` and then
kept as it was written, but for its letter case. -/
def parse (value : Bytes) : Except IdentityError ResultId :=
  match stripPrefix (ascii "sha256:") value with
  | none => .error (.invalid "result identity must use sha256:<hex> form")
  | some digest =>
      match h : Sha256Digest.parse digest with
      | .error e => .error (.invalid e.message)
      | .ok _ => .ok ⟨ascii "sha256:" ++ toAsciiLowercase digest,
          digest, by rw [h]; rfl, rfl⟩

theorem parse_of_isOk {digest : Bytes} (h : (Sha256Digest.parse digest).isOk = true) :
    ∃ id, parse (ascii "sha256:" ++ digest) = .ok id ∧
      id.asStr = ascii "sha256:" ++ toAsciiLowercase digest := by
  unfold parse
  rw [stripPrefix_append]
  simp only
  split
  · rename_i e he
    rw [he] at h
    exact absurd h Bool.false_ne_true
  · exact ⟨_, rfl, rfl⟩

/-- `parse` accepts the tag followed by what `Sha256Digest::parse` accepts. -/
theorem parse_eq_ok_iff {value : Bytes} {id : ResultId} :
    parse value = .ok id ↔
      ∃ digest, value = ascii "sha256:" ++ digest ∧
        (Sha256Digest.parse digest).isOk = true ∧
        id.asStr = ascii "sha256:" ++ toAsciiLowercase digest := by
  constructor
  · intro h
    unfold parse at h
    split at h
    · cases h
    · rename_i digest hvalue
      split at h
      · cases h
      · rename_i parsed hparsed
        cases h
        exact ⟨digest, stripPrefix_eq_some.mp hvalue, by rw [hparsed]; rfl, rfl⟩
  · rintro ⟨digest, rfl, hok, hid⟩
    obtain ⟨parsed, hparsed, htext⟩ := parse_of_isOk hok
    rw [hparsed, show parsed = id from ext (htext.trans hid.symm)]

end ResultId

end Prep.Core
