/-
  Manifest/Model.lean --- `prep.toml` and `prep.lock` and what they are checked for.

  Each `validate` is a loop over a list that checks an element, refuses a name that has
  come before, and checks the element again.  The loop is written once.
-/
import Prep.Data.Except
import Prep.Data.SortedMap
import Prep.Manifest.Types
import Prep.Text.Display

set_option autoImplicit false
set_option linter.dupNamespace false

namespace Prep.Manifest

open Prep.Data
open Prep.Text

/-! ## Names in order -/

section Order

variable {validator : Bytes → Except ModelError Unit}

/-- `derive(PartialOrd, Ord)` of a validated string. -/
instance : Ord (Validated validator) where
  compare left right := compare left.asStr right.asStr

instance : Std.TransOrd (Validated validator) where
  eq_swap {left right} :=
    show compare left.asStr right.asStr = (compare right.asStr left.asStr).swap from
      Std.OrientedOrd.eq_swap
  isLE_trans {left mid right} h h' :=
    show (compare left.asStr right.asStr).isLE = true from
      Std.TransOrd.isLE_trans
        (show (compare left.asStr mid.asStr).isLE = true from h)
        (show (compare mid.asStr right.asStr).isLE = true from h')

instance : Std.LawfulEqOrd (Validated validator) where
  compare_self {value} := show compare value.asStr value.asStr = .eq from Std.ReflOrd.compare_self
  eq_of_compare {left right} h :=
    Validated.ext (Std.LawfulEqOrd.eq_of_compare
      (show compare left.asStr right.asStr = .eq from h))

end Order

/-! ## The files -/

/-- `PackageMetadata`. -/
structure PackageMetadata where
  name : PackageName
  version : PackageVersion

/-- `BuildDeclaration`. -/
structure BuildDeclaration where
  systems : List PluginName
  options : SortedMap Bytes Bytes

/-- `SourceDeclaration`. -/
inductive SourceDeclaration where
  | git (url : SourceUrl) (reference : Option SourceReference)
  | archive (url : SourceUrl) (sha256 : Option Sha256Digest)
  | path (path : LocalSourcePath)

/-- `DependencyDeclaration`. -/
structure DependencyDeclaration where
  name : PackageName
  version : PackageVersion
  source : SourceDeclaration

/-- `Manifest`. -/
structure Manifest where
  schema : Bytes
  package : PackageMetadata
  build : BuildDeclaration
  dependencies : List DependencyDeclaration

/-- `LockedRoot`. -/
structure LockedRoot where
  name : PackageName
  version : PackageVersion
  dependencies : List PackageName

/-- `LockedPackage`. -/
structure LockedPackage where
  name : PackageName
  version : PackageVersion
  dependencies : List PackageName
  source : LockedSource

/-- `Lockfile`. -/
structure Lockfile where
  schema : Bytes
  root : LockedRoot
  packages : List LockedPackage

/-- `MANIFEST_SCHEMA_V1`. -/
def manifestSchemaV1 : Bytes := ascii "prep/1"

/-- `LOCK_SCHEMA_V1`. -/
def lockSchemaV1 : Bytes := ascii "prep.lock/1"

/-! ## Lists without repetition -/

section Distinct

variable {α κ : Type} [DecidableEq κ] (key : α → κ) (before after : α → Except ModelError Unit)
  (duplicate : α → ModelError)

/-- A loop that checks every element, before and after it refuses a key that it has
`seen`. -/
def validateDistinct : List κ → List α → Except ModelError Unit
  | _, [] => .ok ()
  | seen, a :: rest => do
      before a
      if key a ∈ seen then throw (duplicate a)
      after a
      validateDistinct (key a :: seen) rest

variable {key before after duplicate}

theorem validateDistinct_eq_ok_iff {values : List α} : ∀ {seen : List κ},
    validateDistinct key before after duplicate seen values = .ok () ↔
      (∀ a ∈ values, before a = .ok () ∧ after a = .ok ()) ∧ (values.map key).Nodup ∧
        ∀ a ∈ values, key a ∉ seen := by
  induction values with
  | nil => exact fun {seen} => by simp [validateDistinct]
  | cons a values ih =>
      intro seen
      rw [validateDistinct, check_bind_eq_ok_iff]
      by_cases hseen : key a ∈ seen
      · rw [if_pos hseen]
        refine ⟨?_, fun h => absurd hseen (h.2.2 a List.mem_cons_self)⟩
        rintro ⟨_, h⟩
        cases h
      · rw [if_neg hseen, List.forall_mem_cons, List.forall_mem_cons]
        simp only [check_bind_eq_ok_iff, ih, List.map_cons, List.nodup_cons, List.mem_map,
          List.mem_cons, not_or]
        constructor
        · rintro ⟨hbefore, hafter, hall, hnodup, hnew⟩
          exact ⟨⟨⟨hbefore, hafter⟩, hall⟩,
            ⟨fun ⟨b, hb, heq⟩ => (hnew b hb).1 heq, hnodup⟩, hseen, fun b hb => (hnew b hb).2⟩
        · rintro ⟨⟨⟨hbefore, hafter⟩, hall⟩, ⟨hnot, hnodup⟩, _, hnew⟩
          exact ⟨hbefore, hafter, hall, hnodup,
            fun b hb => ⟨fun heq => hnot ⟨b, hb, heq⟩, hnew b hb⟩⟩

end Distinct

/-! ## Validation -/

/-- A source of an archive is fetched over `https`. -/
def requireHttps (url : SourceUrl) (message : String) : Except ModelError Unit :=
  if (stripPrefix (ascii "https://") url.asStr).isSome then .ok () else .error ⟨message⟩

/-- `SourceDeclaration::validate`. -/
def SourceDeclaration.validate : SourceDeclaration → Except ModelError Unit
  | .archive url _ => requireHttps url "archive sources require an https:// URL in Prep 2 v1"
  | _ => .ok ()

/-- `LockedSource::validate`. -/
def LockedSource.validate : LockedSource → Except ModelError Unit
  | .archive url _ _ =>
      requireHttps url "locked archive sources require an https:// URL in Prep 2 v1"
  | _ => .ok ()

/-- `Manifest::validate`. -/
def Manifest.validate (manifest : Manifest) : Except ModelError Unit :=
  if manifest.schema ≠ manifestSchemaV1 then
    .error ⟨s!"unsupported manifest schema {debug manifest.schema}; expected {display manifestSchemaV1}"⟩
  else
    validateDistinct (·.name) (·.source.validate) (fun _ => .ok ())
      (fun dependency => ⟨s!"duplicate dependency {display dependency.name.asStr}"⟩) []
      manifest.dependencies

/-- The check of `Lockfile::validate` on the dependencies of a package. -/
def LockedPackage.validateDependencies (package : LockedPackage) : Except ModelError Unit :=
  validateDistinct id (fun _ => .ok ()) (fun _ => .ok ())
    (fun dependency =>
      ⟨s!"package {display package.name.asStr} has duplicate dependency {display dependency.asStr}"⟩)
    [] package.dependencies

/-- `Lockfile::validate`. -/
def Lockfile.validate (lockfile : Lockfile) : Except ModelError Unit :=
  if lockfile.schema ≠ lockSchemaV1 then
    .error ⟨s!"unsupported lock schema {debug lockfile.schema}; expected {display lockSchemaV1}"⟩
  else do
    validateDistinct (·.name) (·.source.validate) LockedPackage.validateDependencies
      (fun package => ⟨s!"duplicate locked package {display package.name.asStr}"⟩) []
      lockfile.packages
    validateDistinct id (fun _ => .ok ()) (fun _ => .ok ())
      (fun dependency => ⟨s!"root has duplicate dependency {display dependency.asStr}"⟩) []
      lockfile.root.dependencies

/-- A manifest is valid when it has the schema, its archives come over `https`, and it
names no dependency twice. -/
theorem Manifest.validate_eq_ok_iff {manifest : Manifest} :
    manifest.validate = .ok () ↔ manifest.schema = manifestSchemaV1 ∧
      (∀ dependency ∈ manifest.dependencies, dependency.source.validate = .ok ()) ∧
      (manifest.dependencies.map (·.name)).Nodup := by
  unfold validate
  by_cases hschema : manifest.schema = manifestSchemaV1
  · rw [if_neg (not_not.mpr hschema), validateDistinct_eq_ok_iff]
    simp [hschema]
  · rw [if_pos hschema]
    exact ⟨fun h => (by cases h), fun h => absurd h.1 hschema⟩

theorem LockedPackage.validateDependencies_eq_ok_iff {package : LockedPackage} :
    package.validateDependencies = .ok () ↔ package.dependencies.Nodup := by
  unfold validateDependencies
  rw [validateDistinct_eq_ok_iff]
  simp

/-- A lockfile is valid when it has the schema, its archives come over `https`, it locks
no package twice, and no package and not the root names a dependency twice. -/
theorem Lockfile.validate_eq_ok_iff {lockfile : Lockfile} :
    lockfile.validate = .ok () ↔ lockfile.schema = lockSchemaV1 ∧
      (∀ package ∈ lockfile.packages,
        package.source.validate = .ok () ∧ package.dependencies.Nodup) ∧
      (lockfile.packages.map (·.name)).Nodup ∧ lockfile.root.dependencies.Nodup := by
  unfold validate
  by_cases hschema : lockfile.schema = lockSchemaV1
  · rw [if_neg (not_not.mpr hschema), check_bind_eq_ok_iff, validateDistinct_eq_ok_iff,
      validateDistinct_eq_ok_iff]
    simp [hschema, LockedPackage.validateDependencies_eq_ok_iff, and_assoc]
  · rw [if_pos hschema]
    exact ⟨fun h => (by cases h), fun h => absurd h.1 hschema⟩

/-! ## A lockfile against a manifest -/

/-- `validate_source_match`. -/
def validateSourceMatch (declaration : SourceDeclaration) (locked : LockedSource) :
    Except ModelError Unit :=
  let differs : Except ModelError Unit := .error ⟨"source kind or declared identity differs"⟩
  match declaration, locked with
  | .git url reference, .git lockedUrl _ requestedRef _ =>
      if url = lockedUrl ∧ reference = requestedRef then .ok () else differs
  | .archive url sha256, .archive lockedUrl lockedDigest _ =>
      if url = lockedUrl ∧ sha256.all (· = lockedDigest) then .ok () else differs
  | .path path, .path lockedPath => if path = lockedPath then .ok () else differs
  | _, _ => differs

/-- The check of `validate_against` on one declared dependency. -/
def validateLocked (locked : SortedMap PackageName LockedPackage)
    (declared : PackageName × DependencyDeclaration) : Except ModelError Unit :=
  match locked.get? declared.1 with
  | none =>
      .error ⟨s!"manifest dependency {display declared.1.asStr} is missing from lockfile"⟩
  | some package =>
      if package.version ≠ declared.2.version then
        .error ⟨s!"locked version for {display declared.1.asStr} does not match manifest"⟩
      else
        match validateSourceMatch declared.2.source package.source with
        | .ok () => .ok ()
        | .error e => .error
            ⟨s!"locked source for {display declared.1.asStr} does not match manifest: {e.message}"⟩

/-- `Lockfile::validate_against`. -/
def Lockfile.validateAgainst (lockfile : Lockfile) (manifest : Manifest) :
    Except ModelError Unit := do
  lockfile.validate
  manifest.validate
  if lockfile.root.name ≠ manifest.package.name ∨
      lockfile.root.version ≠ manifest.package.version then
    throw ⟨"lock root package identity does not match manifest"⟩
  let declared := SortedMap.ofEntries (manifest.dependencies.map fun d => (d.name, d))
  let locked := SortedMap.ofEntries (lockfile.packages.map fun p => (p.name, p))
  let rootDependencies := SortedMap.ofEntries (lockfile.root.dependencies.map fun n => (n, ()))
  if rootDependencies.keys ≠ declared.keys then
    throw ⟨"lock root dependency set does not match manifest dependencies"⟩
  declared.entries.forM (validateLocked locked)

end Prep.Manifest
