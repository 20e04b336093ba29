/-
  Manifest/Codecs.lean --- how the types of `prep-manifest` are written as TOML and read.

  Every type has a codec that follows its serde attributes: the fields with their names in
  their order, `default`, `rename`, `tag` and `deny_unknown_fields`.  A value type is read
  through its `parse`.
-/
import Prep.Manifest.Model
import Prep.Serde.Toml

set_option autoImplicit false
set_option linter.dupNamespace false

namespace Prep.Manifest

open Prep.Data
open Prep.Serde
open Prep.Text

/-! ## Value types -/

namespace Validated

variable {validator : Bytes → Except ModelError Unit}

theorem parse_asStr (value : Validated validator) :
    parse validator value.asStr = .ok value := by
  have haccepted := value.accepted
  unfold parse
  split
  · rfl
  · rename_i e he
    rw [haccepted] at he
    cases he

/-- `validated_string_type!`: written as it is, read through `parse`. -/
def codec (validator : Bytes → Except ModelError Unit) : Codec tomlData (Validated validator) :=
  .text asStr (fun value => (parse validator value).toOption)
    (fun value => by rw [parse_asStr]; rfl) fun _ => trivial

theorem codec_ne_null (value : Validated validator) : (codec validator).write value ≠ .null :=
  nofun

end Validated

/-- Digits in lower case are left alone by the parsers. -/
theorem toAsciiLowercase_of_lower {s : Bytes} (h : s.all isLowerHexdigit = true) :
    toAsciiLowercase s = s := ((all_isLowerHexdigit_iff s).mp h).2

namespace GitCommit

theorem parse_asStr (commit : GitCommit) : parse commit.asStr = .ok commit := by
  have hlower := toAsciiLowercase_of_lower commit.hexdigits
  have hhex := ((all_isLowerHexdigit_iff commit.asStr).mp commit.hexdigits).1
  unfold parse
  dsimp only
  rw [dif_pos (by rw [hlower]; exact ⟨commit.length, hhex⟩)]
  cases commit
  simp only [hlower]

def codec : Codec tomlData GitCommit :=
  .text asStr (fun value => (parse value).toOption) (fun commit => by rw [parse_asStr]; rfl)
    fun _ => trivial

end GitCommit

namespace Sha256Digest

theorem digits_asStr (digest : Sha256Digest) : digits digest.asStr = digest.asStr := by
  have hlower := toAsciiLowercase_of_lower digest.hexdigits
  unfold digits
  rw [hlower]
  cases hstrip : stripPrefix (ascii "sha256:") digest.asStr with
  | none => rfl
  | some rest =>
      -- a digest does not begin with an `s`
      have hdigits := digest.hexdigits
      rw [stripPrefix_eq_some.mp hstrip, List.all_append, Bool.and_eq_true] at hdigits
      exact absurd hdigits.1 (by decide)

theorem parse_asStr (digest : Sha256Digest) : parse digest.asStr = .ok digest := by
  have hhex := ((all_isLowerHexdigit_iff digest.asStr).mp digest.hexdigits).1
  unfold parse
  rw [dif_pos (by rw [digits_asStr]; exact ⟨digest.length, hhex⟩)]
  have hdigits := digits_asStr digest
  obtain ⟨asStr, length, hexdigits⟩ := digest
  have hdigits : digits asStr = asStr := hdigits
  simp only [hdigits]

def codec : Codec tomlData Sha256Digest :=
  .text asStr (fun value => (parse value).toOption) (fun digest => by rw [parse_asStr]; rfl)
    fun _ => trivial

theorem codec_ne_null (digest : Sha256Digest) : codec.write digest ≠ .null := nofun

end Sha256Digest

theorem eq_of_some_eq {left right : Bytes} (h : some left = some right) : right = left :=
  (Option.some.inj h).symm

theorem some_id (value : Bytes) : some (id value) = some value :=
  rfl

/-- `BTreeMap<String, String>`. -/
def optionsCodec : Codec tomlData (SortedMap Bytes Bytes) :=
  .sortedMap id some some_id eq_of_some_eq (fun _ => trivial) Toml.string

/-! ## `prep.toml` -/

namespace PackageMetadata

def record : Record tomlData PackageMetadata :=
  .map (.cons (.required "name" (Validated.codec validateName)) <|
      .cons (.required "version" (Validated.codec validateVersion)) .nil)
    (fun (name, version, ()) => ⟨name, version⟩) (fun x => (x.name, x.version, ())) fun _ => rfl

def codec : Codec tomlData PackageMetadata := Toml.record record (by decide)

end PackageMetadata

namespace BuildDeclaration

/-- `BuildDeclaration::default`. -/
def default : BuildDeclaration := ⟨[], .empty⟩

def record : Record tomlData BuildDeclaration :=
  .map (.cons (.defaulted "systems" (.list (Validated.codec validateName)) []) <|
      .cons (.defaulted "options" optionsCodec .empty) .nil)
    (fun (systems, options, ()) => ⟨systems, options⟩) (fun x => (x.systems, x.options, ()))
    fun _ => rfl

def codec : Codec tomlData BuildDeclaration := Toml.record record (by decide)

end BuildDeclaration

namespace SourceDeclaration

/-- The variant `Git`. -/
def gitVariant : Variant tomlData SourceDeclaration where
  payload := SourceUrl × Option SourceReference × Unit
  tag := ascii "git"
  record := .cons (.required "url" (Validated.codec validateUrl)) <|
    .cons (.omitted "ref" (Validated.codec validateReference) Validated.codec_ne_null) .nil
  build := fun (url, reference, ()) => .git url reference
  parts
    | .git url reference => some (url, reference, ())
    | _ => none
  parts_build {x p} h := by
    cases x with
    | git url reference =>
        cases h
        rfl
    | _ => cases h

/-- The variant `Archive`. -/
def archiveVariant : Variant tomlData SourceDeclaration where
  payload := SourceUrl × Option Sha256Digest × Unit
  tag := ascii "archive"
  record := .cons (.required "url" (Validated.codec validateUrl)) <|
    .cons (.omitted "sha256" Sha256Digest.codec Sha256Digest.codec_ne_null) .nil
  build := fun (url, sha256, ()) => .archive url sha256
  parts
    | .archive url sha256 => some (url, sha256, ())
    | _ => none
  parts_build {x p} h := by
    cases x with
    | archive url sha256 =>
        cases h
        rfl
    | _ => cases h

/-- The variant `Path`. -/
def pathVariant : Variant tomlData SourceDeclaration where
  payload := LocalSourcePath × Unit
  tag := ascii "path"
  record := .cons (.required "path" (Validated.codec validateLocalPath)) .nil
  build := fun (localPath, ()) => .path localPath
  parts
    | .path localPath => some (localPath, ())
    | _ => none
  parts_build {x p} h := by
    cases x with
    | path localPath =>
        cases h
        rfl
    | _ => cases h

theorem tagged : Variant.Tagged (ascii "kind") [gitVariant, archiveVariant, pathVariant] where
  covers x := by
    cases x with
    | git => exact ⟨gitVariant, by simp, rfl⟩
    | archive => exact ⟨archiveVariant, by simp, rfl⟩
    | path => exact ⟨pathVariant, by simp, rfl⟩
  distinct := show [ascii "git", ascii "archive", ascii "path"].Nodup by decide
  named := by
    intro v hv
    simp only [List.mem_cons, List.not_mem_nil, or_false] at hv
    rcases hv with rfl | rfl | rfl <;> exact ⟨by decide, by decide, by decide⟩
  key_ascii := by decide

/-- `#[serde(tag = "kind", rename_all = "snake_case", deny_unknown_fields)]`. -/
def codec : Codec tomlData SourceDeclaration :=
  .tagged (ascii "kind") [gitVariant, archiveVariant, pathVariant] tagged Toml.string_of_ascii

end SourceDeclaration

namespace DependencyDeclaration

def record : Record tomlData DependencyDeclaration :=
  .map (.cons (.required "name" (Validated.codec validateName)) <|
      .cons (.required "version" (Validated.codec validateVersion)) <|
      .cons (.required "source" SourceDeclaration.codec) .nil)
    (fun (name, version, source, ()) => ⟨name, version, source⟩)
    (fun x => (x.name, x.version, x.source, ())) fun _ => rfl

def codec : Codec tomlData DependencyDeclaration := Toml.record record (by decide)

end DependencyDeclaration

namespace Manifest

def record : Record tomlData Manifest :=
  .map (.cons (.required "schema" Toml.string) <|
      .cons (.required "package" PackageMetadata.codec) <|
      .cons (.defaulted "build" BuildDeclaration.codec .default) <|
      .cons (.defaulted "dependencies" (.list DependencyDeclaration.codec) []) .nil)
    (fun (schema, package, build, dependencies, ()) => ⟨schema, package, build, dependencies⟩)
    (fun x => (x.schema, x.package, x.build, x.dependencies, ())) fun _ => rfl

def codec : Codec tomlData Manifest := Toml.record record (by decide)

end Manifest

/-! ## `prep.lock` -/

namespace ProviderIdentity

def record : Record tomlData ProviderIdentity :=
  .map (.cons (.required "name" (Validated.codec validateName)) <|
      .cons (.required "version" (Validated.codec validateVersion)) .nil)
    (fun (name, version, ()) => ⟨name, version⟩) (fun x => (x.name, x.version, ())) fun _ => rfl

def codec : Codec tomlData ProviderIdentity := Toml.record record (by decide)

end ProviderIdentity

namespace LockedSource

/-- The variant `Git`. -/
def gitVariant : Variant tomlData LockedSource where
  payload := SourceUrl × GitCommit × Option SourceReference × ProviderIdentity × Unit
  tag := ascii "git"
  record := .cons (.required "url" (Validated.codec validateUrl)) <|
    .cons (.required "commit" GitCommit.codec) <|
    .cons (.omitted "requested_ref" (Validated.codec validateReference) Validated.codec_ne_null) <|
    .cons (.required "provider" ProviderIdentity.codec) .nil
  build := fun (url, commit, requestedRef, provider, ()) => .git url commit requestedRef provider
  parts
    | .git url commit requestedRef provider => some (url, commit, requestedRef, provider, ())
    | _ => none
  parts_build {x p} h := by
    cases x with
    | git url commit requestedRef provider =>
        cases h
        rfl
    | _ => cases h

/-- The variant `Archive`. -/
def archiveVariant : Variant tomlData LockedSource where
  payload := SourceUrl × Sha256Digest × ProviderIdentity × Unit
  tag := ascii "archive"
  record := .cons (.required "url" (Validated.codec validateUrl)) <|
    .cons (.required "sha256" Sha256Digest.codec) <|
    .cons (.required "provider" ProviderIdentity.codec) .nil
  build := fun (url, sha256, provider, ()) => .archive url sha256 provider
  parts
    | .archive url sha256 provider => some (url, sha256, provider, ())
    | _ => none
  parts_build {x p} h := by
    cases x with
    | archive url sha256 provider =>
        cases h
        rfl
    | _ => cases h

/-- The variant `Path`. -/
def pathVariant : Variant tomlData LockedSource where
  payload := LocalSourcePath × Unit
  tag := ascii "path"
  record := .cons (.required "path" (Validated.codec validateLocalPath)) .nil
  build := fun (localPath, ()) => .path localPath
  parts
    | .path localPath => some (localPath, ())
    | _ => none
  parts_build {x p} h := by
    cases x with
    | path localPath =>
        cases h
        rfl
    | _ => cases h

theorem tagged : Variant.Tagged (ascii "kind") [gitVariant, archiveVariant, pathVariant] where
  covers x := by
    cases x with
    | git => exact ⟨gitVariant, by simp, rfl⟩
    | archive => exact ⟨archiveVariant, by simp, rfl⟩
    | path => exact ⟨pathVariant, by simp, rfl⟩
  distinct := show [ascii "git", ascii "archive", ascii "path"].Nodup by decide
  named := by
    intro v hv
    simp only [List.mem_cons, List.not_mem_nil, or_false] at hv
    rcases hv with rfl | rfl | rfl <;> exact ⟨by decide, by decide, by decide⟩
  key_ascii := by decide

/-- `#[serde(tag = "kind", rename_all = "snake_case", deny_unknown_fields)]`. -/
def codec : Codec tomlData LockedSource :=
  .tagged (ascii "kind") [gitVariant, archiveVariant, pathVariant] tagged Toml.string_of_ascii

end LockedSource

namespace LockedRoot

def record : Record tomlData LockedRoot :=
  .map (.cons (.required "name" (Validated.codec validateName)) <|
      .cons (.required "version" (Validated.codec validateVersion)) <|
      .cons (.defaulted "dependencies" (.list (Validated.codec validateName)) []) .nil)
    (fun (name, version, dependencies, ()) => ⟨name, version, dependencies⟩)
    (fun x => (x.name, x.version, x.dependencies, ())) fun _ => rfl

def codec : Codec tomlData LockedRoot := Toml.record record (by decide)

end LockedRoot

namespace LockedPackage

def record : Record tomlData LockedPackage :=
  .map (.cons (.required "name" (Validated.codec validateName)) <|
      .cons (.required "version" (Validated.codec validateVersion)) <|
      .cons (.defaulted "dependencies" (.list (Validated.codec validateName)) []) <|
      .cons (.required "source" LockedSource.codec) .nil)
    (fun (name, version, dependencies, source, ()) => ⟨name, version, dependencies, source⟩)
    (fun x => (x.name, x.version, x.dependencies, x.source, ())) fun _ => rfl

def codec : Codec tomlData LockedPackage := Toml.record record (by decide)

end LockedPackage

namespace Lockfile

def record : Record tomlData Lockfile :=
  .map (.cons (.required "schema" Toml.string) <|
      .cons (.required "root" LockedRoot.codec) <|
      .cons (.defaulted "package" (.list LockedPackage.codec) []) .nil)
    (fun (schema, root, packages, ()) => ⟨schema, root, packages⟩)
    (fun x => (x.schema, x.root, x.packages, ())) fun _ => rfl

def codec : Codec tomlData Lockfile := Toml.record record (by decide)

end Lockfile

theorem Manifest.depth_codec : Manifest.codec.depth ≤ tomlDepth := by decide

theorem Lockfile.depth_codec : Lockfile.codec.depth ≤ tomlDepth := by decide

end Prep.Manifest
