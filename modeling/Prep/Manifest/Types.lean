/-
  Manifest/Types.lean --- the validated value types of `prep-manifest` and the
  locked source they build.

  Every value type keeps the check its `parse` makes as a field, so a value that
  its validator rejects cannot be built.
-/
import Prep.Text.Utf8

set_option autoImplicit false

namespace Prep.Manifest

open Prep.Text

/-- `ModelError`. -/
structure ModelError where
  message : String
  deriving DecidableEq, Repr

/-! ## Validators -/

/-- `validate_name`. -/
def validateName (value : Bytes) : Except ModelError Unit :=
  if value.isEmpty then .error ⟨"identifier must not be empty"⟩
  else if value.length > 128 then .error ⟨"identifier exceeds 128 bytes"⟩
  else if value = ascii "." ∨ value = ascii ".." then
    .error ⟨"identifier must not be '.' or '..'"⟩
  else if !value.all fun b => isAsciiAlphanumeric b || b == 46 || b == 95 || b == 45 then
    .error ⟨"identifier may contain only ASCII letters, digits, '.', '_' and '-'"⟩
  else if !(value.head?.any isAsciiAlphanumeric) then
    .error ⟨"identifier must begin with an ASCII letter or digit"⟩
  else .ok ()

/-- `validate_version`. -/
def validateVersion (value : Bytes) : Except ModelError Unit :=
  if value.isEmpty then .error ⟨"version must not be empty"⟩
  else if value.length > 128 then .error ⟨"version exceeds 128 bytes"⟩
  else if value = ascii "." ∨ value = ascii ".." then
    .error ⟨"version must not be '.' or '..'"⟩
  else if !value.all fun b =>
      isAsciiAlphanumeric b || b == 46 || b == 95 || b == 45 || b == 43 then
    .error ⟨"version contains unsupported characters"⟩
  else .ok ()

/-- `validate_reference`. -/
def validateReference (value : Bytes) : Except ModelError Unit :=
  if value.isEmpty then .error ⟨"source reference must not be empty"⟩
  else if value.length > 512 then .error ⟨"source reference exceeds 512 bytes"⟩
  else if (Utf8.codePoints value).any Utf8.isControl then
    .error ⟨"source reference contains control characters"⟩
  else .ok ()

/-- `validate_url`. -/
def validateUrl (value : Bytes) : Except ModelError Unit :=
  if value.isEmpty then .error ⟨"source URL must not be empty"⟩
  else if value.length > 4096 then .error ⟨"source URL exceeds 4096 bytes"⟩
  else if (Utf8.codePoints value).any fun c => Utf8.isControl c || Utf8.isWhitespace c then
    .error ⟨"source URL contains whitespace or control characters"⟩
  else
    let hasScheme := (splitOnce (ascii "://") value).any fun p =>
      !p.1.isEmpty && !p.2.isEmpty
    let isSshScpForm := (stripPrefix (ascii "git@") value).isSome && value.contains 58
    if !hasScheme && !isSshScpForm then
      .error ⟨"source URL must have a scheme or Git SSH scp form"⟩
    else .ok ()

/-- `validate_local_path`. -/
def validateLocalPath (value : Bytes) : Except ModelError Unit :=
  if value.isEmpty then .error ⟨"local source path must not be empty"⟩
  else if value.length > 4096 then .error ⟨"local source path exceeds 4096 bytes"⟩
  else if value.contains 0 then .error ⟨"local source path contains NUL"⟩
  else .ok ()

/-! ## Validated strings -/

/-- `validated_string_type!`: a string its validator accepts. -/
structure Validated (validator : Bytes → Except ModelError Unit) where
  asStr : Bytes
  accepted : validator asStr = .ok ()

namespace Validated

variable {validator : Bytes → Except ModelError Unit}

/-- `parse` of a validated string type. -/
def parse (validator : Bytes → Except ModelError Unit) (value : Bytes) :
    Except ModelError (Validated validator) :=
  match h : validator value with
  | .ok () => .ok ⟨value, h⟩
  | .error e => .error e

@[ext] theorem ext {left right : Validated validator} (h : left.asStr = right.asStr) :
    left = right := by
  cases left
  cases right
  cases h
  rfl

instance : DecidableEq (Validated validator) := fun left right =>
  decidable_of_iff (left.asStr = right.asStr) ⟨ext, congrArg asStr⟩

end Validated

abbrev PackageName : Type := Validated validateName
abbrev PluginName : Type := Validated validateName
abbrev PackageVersion : Type := Validated validateVersion
abbrev SourceReference : Type := Validated validateReference
abbrev SourceUrl : Type := Validated validateUrl
abbrev LocalSourcePath : Type := Validated validateLocalPath

/-! A validated string is short: each validator bounds its length. -/

theorem PackageName.length_le (name : PackageName) : name.asStr.length ≤ 128 := by
  have h := name.accepted
  unfold validateName at h
  split at h
  · cases h
  · split at h
    · cases h
    · omega

theorem PackageVersion.length_le (version : PackageVersion) : version.asStr.length ≤ 128 := by
  have h := version.accepted
  unfold validateVersion at h
  split at h
  · cases h
  · split at h
    · cases h
    · omega

theorem SourceUrl.length_le (url : SourceUrl) : url.asStr.length ≤ 4096 := by
  have h := url.accepted
  unfold validateUrl at h
  split at h
  · cases h
  · split at h
    · cases h
    · omega

/-! ## Object identities -/

/-- `GitCommit`: a 40- or 64-digit object name in lower case. -/
structure GitCommit where
  asStr : Bytes
  length : asStr.length = 40 ∨ asStr.length = 64
  hexdigits : asStr.all isLowerHexdigit = true
  deriving DecidableEq

/-- `GitCommit::parse`. -/
def GitCommit.parse (value : Bytes) : Except ModelError GitCommit :=
  let lowered := toAsciiLowercase value
  if h : (lowered.length = 40 ∨ lowered.length = 64) ∧
      lowered.all isAsciiHexdigit = true then
    .ok ⟨lowered, h.1, (all_isLowerHexdigit_iff _).mpr
      ⟨h.2, toAsciiLowercase_toAsciiLowercase value⟩⟩
  else
    .error ⟨"Git commit identity must be a 40- or 64-character hexadecimal object ID"⟩

/-- `Sha256Digest`: sixty-four hexadecimal digits in lower case. -/
structure Sha256Digest where
  asStr : Bytes
  length : asStr.length = 64
  hexdigits : asStr.all isLowerHexdigit = true
  deriving DecidableEq

namespace Sha256Digest

/-- The text `Sha256Digest::parse` checks: the value in lower case, less one
leading `sha256:`. -/
def digits (value : Bytes) : Bytes :=
  (stripPrefix (ascii "sha256:") (toAsciiLowercase value)).getD (toAsciiLowercase value)

theorem toAsciiLowercase_digits (value : Bytes) :
    toAsciiLowercase (digits value) = digits value := by
  unfold digits
  cases h : stripPrefix (ascii "sha256:") (toAsciiLowercase value) with
  | none => exact toAsciiLowercase_toAsciiLowercase value
  | some rest =>
      have hvalue : toAsciiLowercase value = ascii "sha256:" ++ rest := stripPrefix_eq_some.mp h
      have hlower := congrArg toAsciiLowercase hvalue
      rw [toAsciiLowercase_toAsciiLowercase, hvalue, toAsciiLowercase_append] at hlower
      have htag : toAsciiLowercase (ascii "sha256:") = ascii "sha256:" := by decide
      rw [htag] at hlower
      exact (List.append_cancel_left hlower).symm

/-- `Sha256Digest::parse`. -/
def parse (value : Bytes) : Except ModelError Sha256Digest :=
  if h : (digits value).length = 64 ∧ (digits value).all isAsciiHexdigit = true then
    .ok ⟨digits value, h.1, (all_isLowerHexdigit_iff _).mpr
      ⟨h.2, toAsciiLowercase_digits value⟩⟩
  else
    .error ⟨"SHA-256 digest must contain exactly 64 hexadecimal characters"⟩

theorem length_of_folds_to_tag {tag : Bytes}
    (h : toAsciiLowercase tag = ascii "sha256:") : tag.length = 7 := by
  have hlength := congrArg List.length h
  rwa [length_toAsciiLowercase] at hlength

/-- A text that folds to the tag and more splits into a spelling of the tag and
the rest. -/
theorem split_of_folds_to_tag {digest rest : Bytes}
    (h : toAsciiLowercase digest = ascii "sha256:" ++ rest) :
    ∃ tag hex : Bytes, digest = tag ++ hex ∧
      toAsciiLowercase tag = ascii "sha256:" ∧ toAsciiLowercase hex = rest := by
  refine ⟨digest.take 7, digest.drop 7, (List.take_append_drop 7 digest).symm, ?_, ?_⟩
  · have htake := congrArg (List.take 7) h
    rw [show (7 : Nat) = (ascii "sha256:").length from rfl, List.take_left] at htake
    rw [toAsciiLowercase, List.map_take]
    exact htake
  · have hdrop := congrArg (List.drop 7) h
    rw [show (7 : Nat) = (ascii "sha256:").length from rfl, List.drop_left] at hdrop
    rw [toAsciiLowercase, List.map_drop]
    exact hdrop

/-- What `Sha256Digest::parse` accepts: sixty-four hexadecimal digits, or the
same after one tag in any letter case. -/
theorem parse_isOk_iff {digest : Bytes} :
    (parse digest).isOk = true ↔
      (digest.length = 64 ∧ digest.all isAsciiHexdigit = true) ∨
      ∃ tag hex : Bytes, digest = tag ++ hex ∧
        toAsciiLowercase tag = ascii "sha256:" ∧ hex.length = 64 ∧
        hex.all isAsciiHexdigit = true := by
  have hverdict : (parse digest).isOk = true ↔
      (digits digest).length = 64 ∧
        (digits digest).all isAsciiHexdigit = true := by
    unfold parse
    split
    · rename_i h
      exact ⟨fun _ => h, fun _ => rfl⟩
    · rename_i h
      exact ⟨fun hfalse => absurd hfalse Bool.false_ne_true, fun hdigits => absurd hdigits h⟩
  rw [hverdict]
  unfold digits
  cases hstrip : stripPrefix (ascii "sha256:") (toAsciiLowercase digest) with
  | none =>
      simp only [Option.getD_none, length_toAsciiLowercase, all_isAsciiHexdigit_toAsciiLowercase]
      refine ⟨Or.inl, ?_⟩
      rintro (h | ⟨tag, hex, rfl, htag, _, _⟩)
      · exact h
      · rw [toAsciiLowercase_append, htag, stripPrefix_append] at hstrip
        cases hstrip
  | some rest =>
      obtain ⟨tag, hex, rfl, htag, rfl⟩ :=
        split_of_folds_to_tag (stripPrefix_eq_some.mp hstrip)
      simp only [Option.getD_some, length_toAsciiLowercase, all_isAsciiHexdigit_toAsciiLowercase]
      constructor
      · rintro ⟨hlength, hhex⟩
        exact Or.inr ⟨tag, hex, rfl, htag, hlength, hhex⟩
      · rintro (⟨_, hall⟩ | ⟨tag', hex', heq, htag', hlength, hhex⟩)
        · -- a spelling of the tag is not made of hexadecimal digits
          rw [List.all_append, Bool.and_eq_true,
            ← all_isAsciiHexdigit_toAsciiLowercase tag, htag] at hall
          exact absurd hall.1 (by decide)
        · have hlengths : tag.length = tag'.length := by
            rw [length_of_folds_to_tag htag, length_of_folds_to_tag htag']
          obtain ⟨_, rfl⟩ := List.append_inj heq hlengths
          exact ⟨hlength, hhex⟩

/-- `Sha256Digest::tagged`. -/
def tagged (digest : Sha256Digest) : Bytes := ascii "sha256:" ++ digest.asStr

end Sha256Digest

/-! ## Locked sources -/

/-- `ProviderIdentity`. -/
structure ProviderIdentity where
  name : PluginName
  version : PackageVersion
  deriving DecidableEq

/-- `LockedSource`. -/
inductive LockedSource where
  | git (url : SourceUrl) (commit : GitCommit) (requestedRef : Option SourceReference)
      (provider : ProviderIdentity)
  | archive (url : SourceUrl) (sha256 : Sha256Digest) (provider : ProviderIdentity)
  | path (path : LocalSourcePath)
  deriving DecidableEq

namespace LockedSource

/-- `LockedSource::is_immutable`. -/
def isImmutable : LockedSource → Bool
  | .path _ => false
  | _ => true

/-- `LockedSource::is_globally_cacheable`. -/
def isGloballyCacheable (source : LockedSource) : Bool := source.isImmutable

/-- `LockedSource::canonical_identity`. -/
def canonicalIdentity : LockedSource → Bytes
  | .git url commit _ _ => ascii "git:" ++ url.asStr ++ ascii "@" ++ commit.asStr
  | .archive url sha256 _ => ascii "archive:" ++ url.asStr ++ ascii "#" ++ sha256.tagged
  | .path localPath => ascii "local:" ++ localPath.asStr

end LockedSource

end Prep.Manifest
