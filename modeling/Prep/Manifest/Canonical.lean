/-
  Manifest/Canonical.lean --- `parse` and `to_toml` of `prep.toml` and `prep.lock`.

  Each file has one canonical text: the text of the value with its lists in order.
  Sorting forgets exactly the order of the lists, and what a check says does not depend
  on it.

  Scope: values that are valid, and their texts.  The crate `toml` is a parameter
  (`Serde/Toml.lean`); texts that nobody has written with it are read as it reads them, and are
  not described here.
-/
import Prep.Manifest.Codecs
import Prep.Manifest.Match

set_option autoImplicit false
set_option linter.dupNamespace false

namespace Prep.Manifest

open Prep.Data
open Prep.Serde
open Prep.Text

/-! ## Reading and writing -/

/-- The clone that `Manifest::to_toml` sorts. -/
def Manifest.normalized (manifest : Manifest) : Manifest :=
  { manifest with
    build := { manifest.build with systems := sortByKey id manifest.build.systems }
    dependencies := sortByKey (·.name) manifest.dependencies }

/-- `Manifest::to_toml`. -/
def Manifest.toToml (crate : TomlCrate) (manifest : Manifest) : Except ModelError Bytes := do
  manifest.validate
  match crate.toStringPretty (Manifest.codec.write manifest.normalized) with
  | .ok text => .ok text
  | .error error => .error ⟨s!"failed to serialize prep.toml: {error}"⟩

/-- `Manifest::parse`. -/
def Manifest.parse (crate : TomlCrate) (input : Bytes) : Except ModelError Manifest :=
  match crate.fromStr Manifest.codec.read input with
  | .error error => .error ⟨s!"invalid prep.toml: {error}"⟩
  | .ok manifest => do
      manifest.validate
      return manifest

/-- `package.dependencies.sort()`. -/
def LockedPackage.normalized (package : LockedPackage) : LockedPackage :=
  { package with dependencies := sortByKey id package.dependencies }

/-- The clone that `Lockfile::to_toml` sorts. -/
def Lockfile.normalized (lockfile : Lockfile) : Lockfile :=
  { lockfile with
    root := { lockfile.root with dependencies := sortByKey id lockfile.root.dependencies }
    packages := (sortByKey (·.name) lockfile.packages).map LockedPackage.normalized }

/-- `Lockfile::to_toml`. -/
def Lockfile.toToml (crate : TomlCrate) (lockfile : Lockfile) : Except ModelError Bytes := do
  lockfile.validate
  match crate.toStringPretty (Lockfile.codec.write lockfile.normalized) with
  | .ok text => .ok text
  | .error error => .error ⟨s!"failed to serialize prep.lock: {error}"⟩

/-- `Lockfile::parse`. -/
def Lockfile.parse (crate : TomlCrate) (input : Bytes) : Except ModelError Lockfile :=
  match crate.fromStr Lockfile.codec.read input with
  | .error error => .error ⟨s!"invalid prep.lock: {error}"⟩
  | .ok lockfile => do
      lockfile.validate
      return lockfile

/-! ## Strings are UTF-8 -/

/-- `String`s are UTF-8. -/
def IsUtf8 (s : Bytes) : Prop := Utf8.valid s = true

/-- The strings of a declared source that a check does not keep to ASCII. -/
def SourceDeclaration.IsText : SourceDeclaration → Prop
  | .git url reference => IsUtf8 url.asStr ∧ ∀ found, reference = some found → IsUtf8 found.asStr
  | .archive url _ => IsUtf8 url.asStr
  | .path localPath => IsUtf8 localPath.asStr

/-- The strings of a locked source that a check does not keep to ASCII. -/
def LockedSource.IsText : LockedSource → Prop
  | .git url _ requestedRef _ =>
      IsUtf8 url.asStr ∧ ∀ found, requestedRef = some found → IsUtf8 found.asStr
  | .archive url _ _ => IsUtf8 url.asStr
  | .path localPath => IsUtf8 localPath.asStr

/-- Every string of the manifest is UTF-8, as every `String` is. -/
structure Manifest.IsText (manifest : Manifest) : Prop where
  schema : IsUtf8 manifest.schema
  options : ∀ entry ∈ manifest.build.options.entries, IsUtf8 entry.1 ∧ IsUtf8 entry.2
  sources : ∀ dependency ∈ manifest.dependencies, dependency.source.IsText

/-- Every string of the lockfile is UTF-8, as every `String` is. -/
structure Lockfile.IsText (lockfile : Lockfile) : Prop where
  schema : IsUtf8 lockfile.schema
  sources : ∀ package ∈ lockfile.packages, package.source.IsText

section Strings

theorem isUtf8_ascii {text : String} (h : (ascii text).all isAscii = true) : IsUtf8 (ascii text) :=
  Utf8.valid_of_isAscii h

theorem PackageName.isUtf8 (name : PackageName) : IsUtf8 name.asStr := by
  have haccepted := name.accepted
  unfold validateName at haccepted
  split at haccepted
  · cases haccepted
  · split at haccepted
    · cases haccepted
    · split at haccepted
      · cases haccepted
      · split at haccepted
        · cases haccepted
        · rename_i hchars
          rw [Bool.not_eq_true, Bool.not_eq_false'] at hchars
          have hascii : ∀ b : UInt8,
              (isAsciiAlphanumeric b || b == 46 || b == 95 || b == 45) = true →
                isAscii b = true := by decide +kernel
          refine Utf8.valid_of_isAscii (List.all_eq_true.mpr fun b hb => ?_)
          exact hascii b (List.all_eq_true.mp hchars b hb)

theorem PackageVersion.isUtf8 (version : PackageVersion) : IsUtf8 version.asStr := by
  have haccepted := version.accepted
  unfold validateVersion at haccepted
  split at haccepted
  · cases haccepted
  · split at haccepted
    · cases haccepted
    · split at haccepted
      · cases haccepted
      · split at haccepted
        · cases haccepted
        · rename_i hchars
          rw [Bool.not_eq_true, Bool.not_eq_false'] at hchars
          have hascii : ∀ b : UInt8,
              (isAsciiAlphanumeric b || b == 46 || b == 95 || b == 45 || b == 43) = true →
                isAscii b = true := by decide +kernel
          refine Utf8.valid_of_isAscii (List.all_eq_true.mpr fun b hb => ?_)
          exact hascii b (List.all_eq_true.mp hchars b hb)

theorem isUtf8_of_hex {s : Bytes} (h : s.all isLowerHexdigit = true) : IsUtf8 s := by
  have hascii : ∀ b : UInt8, isLowerHexdigit b = true → isAscii b = true := by decide +kernel
  refine Utf8.valid_of_isAscii (List.all_eq_true.mpr fun b hb => ?_)
  exact hascii b (List.all_eq_true.mp h b hb)

theorem allStrings_string {s : Bytes} (h : IsUtf8 s) (depth : Nat) :
    (Serde.Tree.string s).AllStrings IsUtf8 depth := by
  cases depth <;> exact h

theorem allStrings_list {α : Type} {c : Codec tomlData α} {values : List α} {depth : Nat}
    (h : ∀ a ∈ values, (c.write a).AllStrings IsUtf8 depth) :
    ((Codec.list c).write values).AllStrings IsUtf8 (depth + 1) := by
  intro item hitem
  obtain ⟨a, ha, rfl⟩ := List.mem_map.mp hitem
  exact h a ha

theorem allStrings_names (names : List PackageName) (depth : Nat) :
    ((Codec.list (Validated.codec validateName)).write names).AllStrings IsUtf8 (depth + 1) :=
  allStrings_list fun name _ => allStrings_string (PackageName.isUtf8 name) depth

/-- The strings of a variant, under its tag. -/
theorem allStrings_variant {σ : Type} (v : Variant tomlData σ) {p : v.payload} {depth : Nat}
    (htag : IsUtf8 v.tag) (h : v.record.Strings IsUtf8 depth p) :
    (Serde.Tree.map ((ascii "kind", .string v.tag) :: v.record.write p)).AllStrings IsUtf8
      (depth + 1) :=
  List.forall_mem_cons.mpr ⟨⟨isUtf8_ascii (by decide), allStrings_string htag depth⟩, h⟩

theorem PackageMetadata.allStrings (package : PackageMetadata) (depth : Nat) :
    (PackageMetadata.codec.write package).AllStrings IsUtf8 (depth + 1) :=
  Record.strings_required (isUtf8_ascii (by decide))
    (allStrings_string (PackageName.isUtf8 package.name) depth) <|
  Record.strings_required (isUtf8_ascii (by decide))
    (allStrings_string (PackageVersion.isUtf8 package.version) depth) (Record.strings_nil ())

theorem ProviderIdentity.allStrings (provider : ProviderIdentity) (depth : Nat) :
    (ProviderIdentity.codec.write provider).AllStrings IsUtf8 (depth + 1) :=
  Record.strings_required (isUtf8_ascii (by decide))
    (allStrings_string (PackageName.isUtf8 provider.name) depth) <|
  Record.strings_required (isUtf8_ascii (by decide))
    (allStrings_string (PackageVersion.isUtf8 provider.version) depth) (Record.strings_nil ())

theorem BuildDeclaration.allStrings {build : BuildDeclaration}
    (h : ∀ entry ∈ build.options.entries, IsUtf8 entry.1 ∧ IsUtf8 entry.2) (depth : Nat) :
    (BuildDeclaration.codec.write build).AllStrings IsUtf8 (depth + 2) := by
  have hoptions : (optionsCodec.write build.options).AllStrings IsUtf8 (depth + 1) := by
    intro entry hentry
    obtain ⟨option, hoption, rfl⟩ := List.mem_map.mp hentry
    exact ⟨(h option hoption).1, allStrings_string (h option hoption).2 depth⟩
  exact Record.strings_defaulted (isUtf8_ascii (by decide)) (allStrings_names build.systems depth)
    (Record.strings_defaulted (isUtf8_ascii (by decide)) hoptions (Record.strings_nil ()))

theorem SourceDeclaration.allStrings {source : SourceDeclaration} (h : source.IsText)
    (depth : Nat) : (SourceDeclaration.codec.write source).AllStrings IsUtf8 (depth + 1) := by
  cases source with
  | git url reference =>
      refine allStrings_variant gitVariant (isUtf8_ascii (by decide)) ?_
      exact Record.strings_required (isUtf8_ascii (by decide)) (allStrings_string h.1 depth) <|
        Record.strings_omitted (isUtf8_ascii (by decide))
          (fun found hfound => allStrings_string (h.2 found hfound) depth) (Record.strings_nil ())
  | archive url sha256 =>
      refine allStrings_variant archiveVariant (isUtf8_ascii (by decide)) ?_
      exact Record.strings_required (isUtf8_ascii (by decide)) (allStrings_string h depth) <|
        Record.strings_omitted (isUtf8_ascii (by decide))
          (fun found _ => allStrings_string (isUtf8_of_hex found.hexdigits) depth)
          (Record.strings_nil ())
  | path localPath =>
      refine allStrings_variant pathVariant (isUtf8_ascii (by decide)) ?_
      exact Record.strings_required (isUtf8_ascii (by decide)) (allStrings_string h depth)
        (Record.strings_nil ())

theorem LockedSource.allStrings {source : LockedSource} (h : source.IsText) (depth : Nat) :
    (LockedSource.codec.write source).AllStrings IsUtf8 (depth + 2) := by
  cases source with
  | git url commit requestedRef provider =>
      refine allStrings_variant gitVariant (isUtf8_ascii (by decide)) ?_
      exact Record.strings_required (isUtf8_ascii (by decide)) (allStrings_string h.1 _) <|
        Record.strings_required (isUtf8_ascii (by decide))
          (allStrings_string (isUtf8_of_hex commit.hexdigits) _) <|
        Record.strings_omitted (isUtf8_ascii (by decide))
          (fun found hfound => allStrings_string (h.2 found hfound) _) <|
        Record.strings_required (isUtf8_ascii (by decide)) (provider.allStrings depth)
          (Record.strings_nil ())
  | archive url sha256 provider =>
      refine allStrings_variant archiveVariant (isUtf8_ascii (by decide)) ?_
      exact Record.strings_required (isUtf8_ascii (by decide)) (allStrings_string h _) <|
        Record.strings_required (isUtf8_ascii (by decide))
          (allStrings_string (isUtf8_of_hex sha256.hexdigits) _) <|
        Record.strings_required (isUtf8_ascii (by decide)) (provider.allStrings depth)
          (Record.strings_nil ())
  | path localPath =>
      refine allStrings_variant pathVariant (isUtf8_ascii (by decide)) ?_
      exact Record.strings_required (isUtf8_ascii (by decide)) (allStrings_string h _)
        (Record.strings_nil ())

theorem DependencyDeclaration.allStrings {dependency : DependencyDeclaration}
    (h : dependency.source.IsText) (depth : Nat) :
    (DependencyDeclaration.codec.write dependency).AllStrings IsUtf8 (depth + 2) :=
  Record.strings_required (isUtf8_ascii (by decide))
    (allStrings_string (PackageName.isUtf8 dependency.name) _) <|
  Record.strings_required (isUtf8_ascii (by decide))
    (allStrings_string (PackageVersion.isUtf8 dependency.version) _) <|
  Record.strings_required (isUtf8_ascii (by decide)) (SourceDeclaration.allStrings h depth)
    (Record.strings_nil ())

theorem LockedPackage.allStrings {package : LockedPackage} (h : package.source.IsText)
    (depth : Nat) : (LockedPackage.codec.write package).AllStrings IsUtf8 (depth + 3) :=
  Record.strings_required (isUtf8_ascii (by decide))
    (allStrings_string (PackageName.isUtf8 package.name) _) <|
  Record.strings_required (isUtf8_ascii (by decide))
    (allStrings_string (PackageVersion.isUtf8 package.version) _) <|
  Record.strings_defaulted (isUtf8_ascii (by decide))
    (allStrings_names package.dependencies (depth + 1)) <|
  Record.strings_required (isUtf8_ascii (by decide)) (LockedSource.allStrings h depth)
    (Record.strings_nil ())

theorem LockedRoot.allStrings (root : LockedRoot) (depth : Nat) :
    (LockedRoot.codec.write root).AllStrings IsUtf8 (depth + 2) :=
  Record.strings_required (isUtf8_ascii (by decide))
    (allStrings_string (PackageName.isUtf8 root.name) _) <|
  Record.strings_required (isUtf8_ascii (by decide))
    (allStrings_string (PackageVersion.isUtf8 root.version) _) <|
  Record.strings_defaulted (isUtf8_ascii (by decide)) (allStrings_names root.dependencies depth)
    (Record.strings_nil ())

/-- The text of a manifest is written from UTF-8 strings alone. -/
theorem Manifest.IsText.allStrings {manifest : Manifest} (h : manifest.IsText) :
    (Manifest.codec.write manifest).AllStrings IsUtf8 tomlDepth :=
  Record.strings_required (isUtf8_ascii (by decide)) (allStrings_string h.schema 79) <|
  Record.strings_required (isUtf8_ascii (by decide)) (manifest.package.allStrings 78) <|
  Record.strings_defaulted (isUtf8_ascii (by decide))
    (BuildDeclaration.allStrings h.options 77) <|
  Record.strings_defaulted (isUtf8_ascii (by decide))
    (allStrings_list fun dependency hdependency =>
      DependencyDeclaration.allStrings (h.sources dependency hdependency) 76)
    (Record.strings_nil ())

theorem Lockfile.IsText.allStrings {lockfile : Lockfile} (h : lockfile.IsText) :
    (Lockfile.codec.write lockfile).AllStrings IsUtf8 tomlDepth :=
  Record.strings_required (isUtf8_ascii (by decide)) (allStrings_string h.schema 79) <|
  Record.strings_required (isUtf8_ascii (by decide)) (lockfile.root.allStrings 77) <|
  Record.strings_defaulted (isUtf8_ascii (by decide))
    (allStrings_list fun package hpackage =>
      LockedPackage.allStrings (h.sources package hpackage) 75)
    (Record.strings_nil ())

end Strings

/-! ## Sorting forgets the order -/

section Order

theorem sortByKey_id_eq_of_perm {α : Type} [Ord α] [Std.TransOrd α] [Std.LawfulEqOrd α]
    {left right : List α} (h : left.Perm right) : sortByKey id left = sortByKey id right :=
  sortByKey_eq_of_perm (fun _ _ _ _ heq => heq) h

namespace Manifest

variable {manifest other : Manifest}

theorem reordered_normalized (manifest : Manifest) : manifest.Reordered manifest.normalized where
  schema := rfl
  package := rfl
  options := rfl
  systems := (sortByKey_perm id _).symm
  dependencies := (sortByKey_perm _ _).symm

theorem Reordered.refl (manifest : Manifest) : manifest.Reordered manifest :=
  ⟨rfl, rfl, rfl, .refl _, .refl _⟩

theorem normalized_normalized (manifest : Manifest) :
    manifest.normalized.normalized = manifest.normalized := by
  unfold normalized
  dsimp only
  rw [sortByKey_sortByKey, sortByKey_sortByKey]

/-- Manifests are sorted alike exactly when they differ in the order of their lists. -/
theorem normalized_eq_iff (h : manifest.validate = .ok ()) :
    manifest.normalized = other.normalized ↔ manifest.Reordered other := by
  constructor
  · intro heq
    have hback := reordered_normalized other
    rw [← heq] at hback
    have hforth := reordered_normalized manifest
    exact ⟨hforth.schema.trans hback.schema.symm, hforth.package.trans hback.package.symm,
      hforth.options.trans hback.options.symm, hforth.systems.trans hback.systems.symm,
      hforth.dependencies.trans hback.dependencies.symm⟩
  · rintro ⟨hschema, hpackage, hoptions, hsystems, hdependencies⟩
    have hdistinct := (Manifest.validate_eq_ok_iff.mp h).2.2
    have hbuild : (⟨sortByKey id manifest.build.systems, manifest.build.options⟩ :
        BuildDeclaration) = ⟨sortByKey id other.build.systems, other.build.options⟩ := by
      rw [sortByKey_id_eq_of_perm hsystems, hoptions]
    unfold normalized
    rw [hschema, hpackage, hbuild, (sortByKey_eq_iff_perm hdistinct).mpr hdependencies]

theorem validate_normalized : manifest.normalized.validate = .ok () ↔ manifest.validate = .ok () :=
  (reordered_normalized manifest).validate_iff.symm

theorem IsText.normalized (h : manifest.IsText) : manifest.normalized.IsText where
  schema := h.schema
  options := h.options
  sources dependency hdependency :=
    h.sources dependency ((sortByKey_perm _ _).mem_iff.mp hdependency)

end Manifest

namespace LockedPackage

theorem reordered_normalized (package : LockedPackage) : package.Reordered package.normalized where
  name := rfl
  version := rfl
  dependencies := (sortByKey_perm id _).symm
  source := rfl

theorem Reordered.refl (package : LockedPackage) : package.Reordered package :=
  ⟨rfl, rfl, .refl _, rfl⟩

theorem Reordered.symm {left right : LockedPackage} (h : left.Reordered right) :
    right.Reordered left :=
  ⟨h.name.symm, h.version.symm, h.dependencies.symm, h.source.symm⟩

theorem Reordered.trans {left mid right : LockedPackage} (h : left.Reordered mid)
    (h' : mid.Reordered right) : left.Reordered right :=
  ⟨h.name.trans h'.name, h.version.trans h'.version, h.dependencies.trans h'.dependencies,
    h.source.trans h'.source⟩

theorem Reordered.normalized {left right : LockedPackage} (h : left.Reordered right) :
    left.normalized = right.normalized := by
  obtain ⟨hname, hversion, hdependencies, hsource⟩ := h
  unfold LockedPackage.normalized
  rw [hname, hversion, hsource, sortByKey_id_eq_of_perm hdependencies]

theorem normalized_normalized (package : LockedPackage) :
    package.normalized.normalized = package.normalized := by
  unfold LockedPackage.normalized
  dsimp only
  rw [sortByKey_sortByKey]

end LockedPackage

namespace Lockfile

variable {lockfile other : Lockfile}

/-- Packages may be sorted before or after their dependencies are. -/
theorem normalized_packages (lockfile : Lockfile) : lockfile.normalized.packages =
    sortByKey (·.name) (lockfile.packages.map LockedPackage.normalized) := by
  have hname : ∀ package : LockedPackage, package.normalized.name = package.name := fun _ => rfl
  exact map_sortByKey hname lockfile.packages

theorem reordered_normalized (lockfile : Lockfile) : lockfile.Reordered lockfile.normalized where
  schema := rfl
  name := rfl
  version := rfl
  roots := (sortByKey_perm id _).symm
  packages := by
    refine ⟨sortByKey (·.name) lockfile.packages, (sortByKey_perm _ _).symm, ?_⟩
    exact List.forall₂_map_right_iff.mpr
      (List.forall₂_same.mpr fun package _ => package.reordered_normalized)

theorem Reordered.refl (lockfile : Lockfile) : lockfile.Reordered lockfile :=
  ⟨rfl, rfl, rfl, .refl _, lockfile.packages, .refl _,
    List.forall₂_same.mpr fun package _ => .refl package⟩

theorem normalized_normalized (lockfile : Lockfile) :
    lockfile.normalized.normalized = lockfile.normalized := by
  have hpackages : lockfile.normalized.normalized.packages = lockfile.normalized.packages := by
    have hmap : (lockfile.packages.map LockedPackage.normalized).map LockedPackage.normalized =
        lockfile.packages.map LockedPackage.normalized := by
      rw [List.map_map]
      exact List.map_congr_left fun package _ => package.normalized_normalized
    have hname : ∀ package : LockedPackage, package.normalized.name = package.name := fun _ => rfl
    rw [normalized_packages lockfile.normalized, normalized_packages, map_sortByKey hname, hmap,
      sortByKey_sortByKey]
  have hroot : sortByKey id (sortByKey id lockfile.root.dependencies) =
      sortByKey id lockfile.root.dependencies := sortByKey_sortByKey _
  have heta : ∀ l : Lockfile, l = ⟨l.schema, l.root, l.packages⟩ := fun _ => rfl
  rw [heta lockfile.normalized.normalized, hpackages]
  unfold normalized
  dsimp only
  rw [hroot]

/-- Lockfiles are sorted alike exactly when they differ in the order of their lists. -/
theorem normalized_eq_iff (h : lockfile.validate = .ok ()) :
    lockfile.normalized = other.normalized ↔ lockfile.Reordered other := by
  constructor
  · intro heq
    have hforth := reordered_normalized lockfile
    have hback := reordered_normalized other
    rw [← heq] at hback
    refine ⟨hforth.schema.trans hback.schema.symm, hforth.name.trans hback.name.symm,
      hforth.version.trans hback.version.symm, hforth.roots.trans hback.roots.symm, ?_⟩
    have hsame : List.Forall₂ LockedPackage.Reordered (sortByKey (·.name) lockfile.packages)
        (sortByKey (·.name) other.packages) := by
      have hmap : List.Forall₂ (· = ·)
          ((sortByKey (·.name) lockfile.packages).map LockedPackage.normalized)
          ((sortByKey (·.name) other.packages).map LockedPackage.normalized) :=
        List.forall₂_eq_eq_eq ▸ congrArg Lockfile.packages heq
      rw [List.forall₂_map_left_iff, List.forall₂_map_right_iff] at hmap
      refine hmap.imp fun left right hnormalized => ?_
      have hright := right.reordered_normalized.symm
      rw [← hnormalized] at hright
      exact left.reordered_normalized.trans hright
    -- a permutation may come before or after the packages are reordered one by one
    have hcomp : Relation.Comp (List.Forall₂ LockedPackage.Reordered) List.Perm
        (sortByKey (·.name) lockfile.packages) other.packages :=
      ⟨_, hsame, sortByKey_perm _ _⟩
    rw [List.forall₂_comp_perm_eq_perm_comp_forall₂] at hcomp
    obtain ⟨packages, hperm, hpackages⟩ := hcomp
    exact ⟨packages, (sortByKey_perm _ _).symm.trans hperm, hpackages⟩
  · rintro ⟨hschema, hname, hversion, hroots, packages, hperm, hsame⟩
    have hmap : (lockfile.packages.map LockedPackage.normalized).Perm
        (other.packages.map LockedPackage.normalized) := by
      rw [← map_eq_of_forall₂ hsame fun _ _ _ hreordered => hreordered.normalized]
      exact hperm.map _
    have hdistinct : ((lockfile.packages.map LockedPackage.normalized).map (·.name)).Nodup := by
      rw [List.map_map]
      exact (Lockfile.validate_eq_ok_iff.mp h).2.2.1
    have hpackages : lockfile.normalized.packages = other.normalized.packages := by
      rw [normalized_packages, normalized_packages, (sortByKey_eq_iff_perm hdistinct).mpr hmap]
    have heta : ∀ l : Lockfile, l = ⟨l.schema, l.root, l.packages⟩ := fun _ => rfl
    rw [heta lockfile.normalized, heta other.normalized, hpackages]
    unfold normalized
    dsimp only
    rw [hschema, hname, hversion, sortByKey_id_eq_of_perm hroots]

theorem validate_normalized : lockfile.normalized.validate = .ok () ↔ lockfile.validate = .ok () :=
  (reordered_normalized lockfile).validate_iff.symm

theorem IsText.normalized (h : lockfile.IsText) : lockfile.normalized.IsText where
  schema := h.schema
  sources package hpackage := by
    obtain ⟨found, hfound, rfl⟩ := List.mem_map.mp hpackage
    exact h.sources found ((sortByKey_perm _ _).mem_iff.mp hfound)

end Lockfile

end Order

/-! ## Texts -/

section Texts

variable {crate : TomlCrate}

theorem Manifest.toToml_eq {manifest : Manifest} (h : manifest.validate = .ok ()) {text : Bytes}
    (htext : crate.toStringPretty (Manifest.codec.write manifest.normalized) = .ok text) :
    manifest.toToml crate = .ok text := by
  rw [Manifest.toToml, h]
  show (match crate.toStringPretty _ with | .ok text => _ | .error error => _) = _
  rw [htext]

/-- Only a valid manifest is written. -/
theorem Manifest.validate_of_toToml {manifest : Manifest} {text : Bytes}
    (h : manifest.toToml crate = .ok text) : manifest.validate = .ok () := by
  obtain ⟨_, hvalid, _⟩ := bind_eq_ok_iff.mp h
  exact hvalid

theorem Manifest.toToml_normalized {manifest : Manifest} (h : manifest.validate = .ok ()) :
    manifest.normalized.toToml crate = manifest.toToml crate := by
  unfold Manifest.toToml
  rw [normalized_normalized, validate_normalized.mpr h, h]

/-- A valid manifest is written, and read as it is when its lists are sorted. -/
theorem Manifest.toToml_parse (crate : TomlCrate) {manifest : Manifest} (htext : manifest.IsText)
    (hvalid : manifest.validate = .ok ()) :
    ∃ text, manifest.toToml crate = .ok text ∧
      Manifest.parse crate text = .ok manifest.normalized := by
  obtain ⟨text, hwrite, hread⟩ := crate.fromStr_toStringPretty Manifest.codec
    Manifest.depth_codec rfl htext.normalized.allStrings
  refine ⟨text, toToml_eq hvalid hwrite, ?_⟩
  rw [Manifest.parse, hread]
  show (manifest.normalized.validate >>= _) = _
  rw [validate_normalized.mpr hvalid]
  rfl

theorem Lockfile.toToml_eq {lockfile : Lockfile} (h : lockfile.validate = .ok ()) {text : Bytes}
    (htext : crate.toStringPretty (Lockfile.codec.write lockfile.normalized) = .ok text) :
    lockfile.toToml crate = .ok text := by
  rw [Lockfile.toToml, h]
  show (match crate.toStringPretty _ with | .ok text => _ | .error error => _) = _
  rw [htext]

/-- Only a valid lockfile is written. -/
theorem Lockfile.validate_of_toToml {lockfile : Lockfile} {text : Bytes}
    (h : lockfile.toToml crate = .ok text) : lockfile.validate = .ok () := by
  obtain ⟨_, hvalid, _⟩ := bind_eq_ok_iff.mp h
  exact hvalid

theorem Lockfile.toToml_normalized {lockfile : Lockfile} (h : lockfile.validate = .ok ()) :
    lockfile.normalized.toToml crate = lockfile.toToml crate := by
  unfold Lockfile.toToml
  rw [normalized_normalized, validate_normalized.mpr h, h]

/-- A valid lockfile is written, and read as it is when its lists are sorted. -/
theorem Lockfile.toToml_parse (crate : TomlCrate) {lockfile : Lockfile} (htext : lockfile.IsText)
    (hvalid : lockfile.validate = .ok ()) :
    ∃ text, lockfile.toToml crate = .ok text ∧
      Lockfile.parse crate text = .ok lockfile.normalized := by
  obtain ⟨text, hwrite, hread⟩ := crate.fromStr_toStringPretty Lockfile.codec
    Lockfile.depth_codec rfl htext.normalized.allStrings
  refine ⟨text, toToml_eq hvalid hwrite, ?_⟩
  rw [Lockfile.parse, hread]
  show (lockfile.normalized.validate >>= _) = _
  rw [validate_normalized.mpr hvalid]
  rfl

end Texts

/-- Each file has one canonical text.  A valid value is written, and its text is read as the
value with its lists sorted, which has the same text.  Two values have the same text exactly
when they differ in the order of those lists.  Whether a lockfile is accepted for a manifest
does not change when either of them is written and read again.  The strings of the values are
UTF-8 (`IsText`), as every `String` is, and the crate reads what it has written. -/
theorem toml_canonical (crate : TomlCrate) :
    (∀ manifest : Manifest, manifest.IsText → manifest.validate = .ok () →
      ∃ text, manifest.toToml crate = .ok text ∧
        Manifest.parse crate text = .ok manifest.normalized ∧
        manifest.normalized.toToml crate = .ok text) ∧
    (∀ manifest other : Manifest, manifest.IsText → other.IsText → manifest.validate = .ok () →
      other.validate = .ok () →
      (manifest.toToml crate = other.toToml crate ↔ manifest.Reordered other)) ∧
    (∀ lockfile : Lockfile, lockfile.IsText → lockfile.validate = .ok () →
      ∃ text, lockfile.toToml crate = .ok text ∧
        Lockfile.parse crate text = .ok lockfile.normalized ∧
        lockfile.normalized.toToml crate = .ok text) ∧
    (∀ lockfile other : Lockfile, lockfile.IsText → other.IsText → lockfile.validate = .ok () →
      other.validate = .ok () →
      (lockfile.toToml crate = other.toToml crate ↔ lockfile.Reordered other)) ∧
    ∀ (lockfile lockfile' : Lockfile) (manifest manifest' : Manifest) (lockText text : Bytes),
      lockfile.IsText → manifest.IsText →
      lockfile.toToml crate = .ok lockText → Lockfile.parse crate lockText = .ok lockfile' →
      manifest.toToml crate = .ok text → Manifest.parse crate text = .ok manifest' →
      (lockfile'.validateAgainst manifest = .ok () ↔ lockfile.validateAgainst manifest = .ok ()) ∧
      (lockfile.validateAgainst manifest' = .ok () ↔ lockfile.validateAgainst manifest = .ok ()) ∧
      (lockfile'.validateAgainst manifest' = .ok () ↔
        lockfile.validateAgainst manifest = .ok ()) := by
  refine ⟨?_, ?_, ?_, ?_, ?_⟩
  · intro manifest htext hvalid
    obtain ⟨text, hwrite, hread⟩ := Manifest.toToml_parse crate htext hvalid
    refine ⟨text, hwrite, hread, ?_⟩
    rw [← hwrite, Manifest.toToml_normalized hvalid]
  · intro manifest other htext htext' hvalid hvalid'
    rw [← Manifest.normalized_eq_iff hvalid]
    obtain ⟨text, hwrite, hread⟩ := Manifest.toToml_parse crate htext hvalid
    obtain ⟨text', hwrite', hread'⟩ := Manifest.toToml_parse crate htext' hvalid'
    constructor
    · intro h
      obtain rfl := Except.ok.inj (hwrite.symm.trans (h.trans hwrite'))
      exact Except.ok.inj (hread.symm.trans hread')
    · intro h
      rw [← Manifest.toToml_normalized hvalid, ← Manifest.toToml_normalized hvalid', h]
  · intro lockfile htext hvalid
    obtain ⟨text, hwrite, hread⟩ := Lockfile.toToml_parse crate htext hvalid
    refine ⟨text, hwrite, hread, ?_⟩
    rw [← hwrite, Lockfile.toToml_normalized hvalid]
  · intro lockfile other htext htext' hvalid hvalid'
    rw [← Lockfile.normalized_eq_iff hvalid]
    obtain ⟨text, hwrite, hread⟩ := Lockfile.toToml_parse crate htext hvalid
    obtain ⟨text', hwrite', hread'⟩ := Lockfile.toToml_parse crate htext' hvalid'
    constructor
    · intro h
      obtain rfl := Except.ok.inj (hwrite.symm.trans (h.trans hwrite'))
      exact Except.ok.inj (hread.symm.trans hread')
    · intro h
      rw [← Lockfile.toToml_normalized hvalid, ← Lockfile.toToml_normalized hvalid', h]
  · intro lockfile lockfile' manifest manifest' lockText text hlockText htext hlock hlock'
      hman hman'
    obtain ⟨lockText', hwrite, hread⟩ :=
      Lockfile.toToml_parse crate hlockText (Lockfile.validate_of_toToml hlock)
    obtain rfl := Except.ok.inj (hlock.symm.trans hwrite)
    obtain rfl := Except.ok.inj (hlock'.symm.trans hread)
    obtain ⟨text', hwrite', hread'⟩ :=
      Manifest.toToml_parse crate htext (Manifest.validate_of_toToml hman)
    obtain rfl := Except.ok.inj (hman.symm.trans hwrite')
    obtain rfl := Except.ok.inj (hman'.symm.trans hread')
    have hlockfile := Lockfile.reordered_normalized lockfile
    have hmanifest := Manifest.reordered_normalized manifest
    exact ⟨(validateAgainst_reordered hlockfile (Manifest.Reordered.refl manifest)).symm,
      (validateAgainst_reordered (Lockfile.Reordered.refl lockfile) hmanifest).symm,
      (validateAgainst_reordered hlockfile hmanifest).symm⟩

/-! ## A manifest of two dependencies and its lock -/

def sampleXzPath : LocalSourcePath := ⟨ascii "vendor/xz", by decide +kernel⟩

def sampleCurlPath : LocalSourcePath := ⟨ascii "vendor/curl", by decide +kernel⟩

def sampleXz : DependencyDeclaration where
  name := ⟨ascii "xz", by decide +kernel⟩
  version := ⟨ascii "5.8", by decide +kernel⟩
  source := .path sampleXzPath

def sampleCurl : DependencyDeclaration where
  name := ⟨ascii "curl", by decide +kernel⟩
  version := ⟨ascii "8.0", by decide +kernel⟩
  source := .path sampleCurlPath

def sampleManifest : Manifest where
  schema := manifestSchemaV1
  package := ⟨⟨ascii "app", by decide +kernel⟩, ⟨ascii "1.0", by decide +kernel⟩⟩
  build := ⟨[], SortedMap.ofEntries [(ascii "static", ascii "on")]⟩
  dependencies := [sampleXz, sampleCurl]

def sampleManifestText : Bytes := ascii <| "\n".intercalate
  ["schema = \"prep/1\"", "",
    "[package]", "name = \"app\"", "version = \"1.0\"", "",
    "[build]", "systems = []", "",
    "[build.options]", "static = \"on\"", "",
    "[[dependencies]]", "name = \"curl\"", "version = \"8.0\"", "",
    "[dependencies.source]", "kind = \"path\"", "path = \"vendor/curl\"", "",
    "[[dependencies]]", "name = \"xz\"", "version = \"5.8\"", "",
    "[dependencies.source]", "kind = \"path\"", "path = \"vendor/xz\"", ""]

def sampleLockfile : Lockfile where
  schema := lockSchemaV1
  root := ⟨sampleManifest.package.name, sampleManifest.package.version,
    [sampleXz.name, sampleCurl.name]⟩
  packages := [⟨sampleXz.name, sampleXz.version, [], .path sampleXzPath⟩,
    ⟨sampleCurl.name, sampleCurl.version, [], .path sampleCurlPath⟩]

def sampleLockText : Bytes := ascii <| "\n".intercalate
  ["schema = \"prep.lock/1\"", "",
    "[root]", "name = \"app\"", "version = \"1.0\"",
    "dependencies = [", "    \"curl\",", "    \"xz\",", "]", "",
    "[[package]]", "name = \"curl\"", "version = \"8.0\"", "dependencies = []", "",
    "[package.source]", "kind = \"path\"", "path = \"vendor/curl\"", "",
    "[[package]]", "name = \"xz\"", "version = \"5.8\"", "dependencies = []", "",
    "[package.source]", "kind = \"path\"", "path = \"vendor/xz\"", ""]

def sampleManifestTree : Serde.Tree := Manifest.codec.write sampleManifest.normalized

def sampleLockTree : Serde.Tree := Lockfile.codec.write sampleLockfile.normalized

theorem sampleManifest_isText : sampleManifest.IsText where
  schema := show Utf8.valid _ = true by decide +kernel
  options := by
    show ∀ entry ∈ [(ascii "static", ascii "on")],
      Utf8.valid entry.1 = true ∧ Utf8.valid entry.2 = true
    decide +kernel
  sources := by
    intro dependency hdependency
    rcases List.mem_pair.mp hdependency with rfl | rfl
    · show Utf8.valid _ = true
      decide +kernel
    · show Utf8.valid _ = true
      decide +kernel

theorem sampleLockfile_isText : sampleLockfile.IsText where
  schema := show Utf8.valid _ = true by decide +kernel
  sources := by
    intro package hpackage
    rcases List.mem_pair.mp hpackage with rfl | rfl
    · show Utf8.valid _ = true
      decide +kernel
    · show Utf8.valid _ = true
      decide +kernel

theorem sampleManifestTree_fits : sampleManifestTree.Fits toml tomlDepth :=
  ((Manifest.codec.fits _).mono Manifest.depth_codec |>.withStrings
    sampleManifest_isText.normalized.allStrings).imp id (fun _ => id) fun _ hs => hs.2

theorem sampleLockTree_fits : sampleLockTree.Fits toml tomlDepth :=
  ((Lockfile.codec.fits _).mono Lockfile.depth_codec |>.withStrings
    sampleLockfile_isText.normalized.allStrings).imp id (fun _ => id) fun _ hs => hs.2

/-- What TOML carries is read back from JSON. -/
theorem ofText_writeAt {t : Serde.Tree} (h : t.Fits toml tomlDepth) :
    compactJson.ofText (Compact.writeAt jsonDepth t) = .ok t := by
  have hinteger : ∀ n : Int, toml.integer n → json.integer n := by
    intro n hn
    obtain ⟨hlow, hhigh⟩ : -2 ^ 63 ≤ n ∧ n < 2 ^ 63 := hn
    exact ⟨hlow, by omega⟩
  have hjson : t.Fits json tomlDepth := h.imp (fun hnull => hnull.elim) hinteger fun _ hs => hs
  have hdepth : tomlDepth ≤ jsonDepth := by decide
  obtain ⟨text, htext, hread, _⟩ := compactJson.reads_back t (hjson.mono hdepth)
  obtain rfl := Except.ok.inj htext
  exact hread

theorem eq_of_writeAt_eq {left right : Serde.Tree} (hleft : left.Fits toml tomlDepth)
    (hright : right.Fits toml tomlDepth)
    (h : Compact.writeAt jsonDepth left = Compact.writeAt jsonDepth right) : left = right := by
  have hread := ofText_writeAt hleft
  rw [h, ofText_writeAt hright] at hread
  exact (Except.ok.inj hread).symm

/-- The sample files as the crate writes them, and JSON for every other table. -/
def sampleCrate : TomlCrate where
  toStringPretty t :=
    if Compact.writeAt jsonDepth t = Compact.writeAt jsonDepth sampleManifestTree then
      .ok sampleManifestText
    else if Compact.writeAt jsonDepth t = Compact.writeAt jsonDepth sampleLockTree then
      .ok sampleLockText
    else .ok (Compact.writeAt jsonDepth t)
  ofText text :=
    if text = sampleManifestText then .ok sampleManifestTree
    else if text = sampleLockText then .ok sampleLockTree
    else compactJson.ofText text
  mismatch _ := "invalid type"
  reads_back entries h := by
    have hother : sampleLockText ≠ sampleManifestText := by decide +kernel
    by_cases hmanifest : Compact.writeAt jsonDepth (.map entries) =
        Compact.writeAt jsonDepth sampleManifestTree
    · refine ⟨sampleManifestText, sampleManifestTree, if_pos hmanifest, if_pos rfl, ?_⟩
      rw [eq_of_writeAt_eq h sampleManifestTree_fits hmanifest]
      exact Tree.Same.refl _ _
    · by_cases hlock : Compact.writeAt jsonDepth (.map entries) =
          Compact.writeAt jsonDepth sampleLockTree
      · refine ⟨sampleLockText, sampleLockTree, by rw [if_neg hmanifest, if_pos hlock],
          by rw [if_neg hother, if_pos rfl], ?_⟩
        rw [eq_of_writeAt_eq h sampleLockTree_fits hlock]
        exact Tree.Same.refl _ _
      · -- JSON of a table begins with a brace, TOML of a file with a name
        have hbrace : (Compact.writeAt jsonDepth (.map entries)).head? = some 123 := rfl
        have hne : Compact.writeAt jsonDepth (.map entries) ≠ sampleManifestText := by
          intro heq
          rw [heq] at hbrace
          exact absurd hbrace (by decide +kernel)
        have hne' : Compact.writeAt jsonDepth (.map entries) ≠ sampleLockText := by
          intro heq
          rw [heq] at hbrace
          exact absurd hbrace (by decide +kernel)
        refine ⟨_, .map entries, by rw [if_neg hmanifest, if_neg hlock], ?_, Tree.Same.refl _ _⟩
        rw [if_neg hne, if_neg hne']
        exact ofText_writeAt h

theorem toml_canonical_sample :
    (∃ text, sampleManifest.toToml sampleCrate = .ok text ∧
      Manifest.parse sampleCrate text = .ok sampleManifest.normalized) ∧
    sampleManifest.toToml sampleCrate = sampleManifest.normalized.toToml sampleCrate ∧
    (∃ text, sampleLockfile.toToml sampleCrate = .ok text ∧
      Lockfile.parse sampleCrate text = .ok sampleLockfile.normalized) ∧
    sampleLockfile.toToml sampleCrate = sampleLockfile.normalized.toToml sampleCrate ∧
    sampleLockfile.normalized.validateAgainst sampleManifest.normalized = .ok () := by
  have hvalid : sampleManifest.validate = .ok () := by decide +kernel
  have hlock : sampleLockfile.validate = .ok () := by decide +kernel
  obtain ⟨hread, htext, hreadLock, htextLock, haccepted⟩ := toml_canonical sampleCrate
  obtain ⟨text, hwrite, hparse, _⟩ := hread sampleManifest sampleManifest_isText hvalid
  obtain ⟨lockText, hwriteLock, hparseLock, _⟩ :=
    hreadLock sampleLockfile sampleLockfile_isText hlock
  refine ⟨⟨text, hwrite, hparse⟩, ?_, ⟨lockText, hwriteLock, hparseLock⟩, ?_, ?_⟩
  · exact (htext _ _ sampleManifest_isText sampleManifest_isText.normalized hvalid
      (Manifest.validate_normalized.mpr hvalid)).mpr (Manifest.reordered_normalized _)
  · exact (htextLock _ _ sampleLockfile_isText sampleLockfile_isText.normalized hlock
      (Lockfile.validate_normalized.mpr hlock)).mpr (Lockfile.reordered_normalized _)
  · exact (haccepted _ _ _ _ _ _ sampleLockfile_isText sampleManifest_isText hwriteLock hparseLock
      hwrite hparse).2.2.mpr (by decide +kernel)

end Prep.Manifest
