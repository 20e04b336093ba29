/-
  Store/Environment.lean --- the search paths of an activated environment, from
  `ActivationPlan::environment_overrides` of `prep-store/src/lib.rs`.

  Values are lists of paths with a colon between.  A list of no paths and a list of one
  empty path are the same value, and the empty path is the current directory.

  The base is any environment, and a plan any value of its type.  That there are such
  directories is not asked, neither by the source nor here.
-/
import Prep.Store.Activation
import Prep.Text.Str

set_option autoImplicit false

namespace Prep.Store

open Prep.Data
open Prep.Text

/-- `OsString`. -/
abbrev OsString : Type := Bytes

/-- `std::env::split_paths` on Unix. -/
def splitPaths (value : OsString) : List PathBuf := value.splitOn 58

/-- `std::env::join_paths` on Unix. -/
def joinPaths (paths : List PathBuf) : Except String OsString :=
  if paths.any fun path => path.contains 58 then
    .error "path segment contains separator `:`"
  else .ok (List.intercalate [58] paths)

/-- `compose_path_value`. -/
def composePathValue (entries : List PathBuf) (base : Option OsString) :
    Except StoreError OsString :=
  let paths := match base with
    | some base => entries ++ splitPaths base
    | none => entries
  match joinPaths paths with
  | .ok value => .ok value
  | .error error => .error (.activation s!"cannot compose activation path list: {error}")

theorem isAscii_pathVariable : (ascii "PATH").all isAscii = true := by decide

theorem isAscii_cmakeVariable : (ascii "CMAKE_PREFIX_PATH").all isAscii = true := by decide

theorem isAscii_pkgConfigVariable : (ascii "PKG_CONFIG_PATH").all isAscii = true := by decide

def pathVariable : Str := .ofAscii "PATH" isAscii_pathVariable

def cmakeVariable : Str := .ofAscii "CMAKE_PREFIX_PATH" isAscii_cmakeVariable

def pkgConfigVariable : Str := .ofAscii "PKG_CONFIG_PATH" isAscii_pkgConfigVariable

/-- `BTreeMap<String, OsString>`. -/
abbrev Environment : Type := SortedMap Str OsString

/-- `ActivationPlan::environment_overrides`. -/
def ActivationPlan.environmentOverrides (plan : ActivationPlan) (base : Environment) :
    Except StoreError Environment := do
  let path ← composePathValue plan.pathEntries (base.get? pathVariable)
  let cmake ← composePathValue plan.cmakePrefixes (base.get? cmakeVariable)
  let pkgConfig ← composePathValue plan.pkgConfigPaths (base.get? pkgConfigVariable)
  return ((SortedMap.empty.insert pathVariable path).insert cmakeVariable cmake).insert
    pkgConfigVariable pkgConfig

/-! ## Joining and splitting -/

/-- What is joined is split again, but for no paths at all. -/
theorem splitPaths_joinPaths {paths : List PathBuf} {value : OsString}
    (h : joinPaths paths = .ok value) :
    splitPaths value = if paths = [] then [[]] else paths := by
  unfold joinPaths at h
  split at h
  · cases h
  · rename_i hseparated
    cases h
    split
    · rename_i hnone
      rw [hnone]
      rfl
    · rename_i hsome
      refine List.splitOn_intercalate 58 (fun path hpath hcolon => hseparated ?_) hsome
      exact List.any_eq_true.mpr ⟨path, hpath, List.contains_iff_mem.mpr hcolon⟩

theorem splitPaths_ne_nil (value : OsString) : splitPaths value ≠ [] :=
  List.splitOn_ne_nil 58 value

/-- The components of a value that may not be set. -/
def baseComponents (base : Option OsString) : List PathBuf := (base.map splitPaths).getD []

theorem baseComponents_eq_nil_iff {base : Option OsString} :
    baseComponents base = [] ↔ base = none := by
  cases base with
  | none => exact iff_of_true rfl rfl
  | some value => exact iff_of_false (splitPaths_ne_nil value) nofun

/-- What is composed is joined of the entries and what was there. -/
theorem joinPaths_of_composePathValue {entries : List PathBuf} {base : Option OsString}
    {value : OsString} (h : composePathValue entries base = .ok value) :
    joinPaths (entries ++ baseComponents base) = .ok value := by
  unfold composePathValue at h
  dsimp only at h
  split at h
  · rename_i found hfound
    cases h
    cases base with
    | none => exact (congrArg joinPaths (List.append_nil entries)).trans hfound
    | some base => exact hfound
  · cases h

theorem splitPaths_composePathValue {entries : List PathBuf} {base : Option OsString}
    {value : OsString} (h : composePathValue entries base = .ok value) :
    splitPaths value = entries ++ baseComponents base ↔ entries ≠ [] ∨ base ≠ none := by
  have hempty : entries ++ baseComponents base = [] ↔ ¬ (entries ≠ [] ∨ base ≠ none) := by
    rw [List.append_eq_nil_iff, baseComponents_eq_nil_iff, not_or, not_not, not_not]
  rw [splitPaths_joinPaths (joinPaths_of_composePathValue h)]
  split
  · rename_i hnone
    rw [hnone]
    exact iff_of_false (List.cons_ne_nil _ _) (hempty.mp hnone)
  · rename_i hsome
    exact iff_of_true rfl (not_not.mp fun h => hsome (hempty.mpr h))

/-! ## What the environment says -/

/-- A variable holds the entries and then what it held before. -/
def Composes (base output : Environment) (name : Str) (entries : List PathBuf) : Prop :=
  ∃ value, output.get? name = some value ∧
    splitPaths value = entries ++ baseComponents (base.get? name)

/-- A plan has entries for a variable, or the variable is set. -/
def HasComponents (base : Environment) (name : Str) (entries : List PathBuf) : Prop :=
  entries ≠ [] ∨ base.get? name ≠ none

theorem composes_iff {base output : Environment} {name : Str} {entries : List PathBuf}
    {value : OsString} (hvalue : composePathValue entries (base.get? name) = .ok value)
    (houtput : output.get? name = some value) :
    Composes base output name entries ↔ HasComponents base name entries := by
  refine Iff.trans ⟨?_, fun h => ⟨value, houtput, h⟩⟩ (splitPaths_composePathValue hvalue)
  rintro ⟨found, hfound, h⟩
  obtain rfl : found = value := Option.some.inj (hfound.symm.trans houtput)
  exact h

/-- The three search paths are composed without loss and without a component of their own
exactly where each has a component, of the plan or of what was there: from no components a value
is made that has one.  A plan for which nothing can be composed (a path with a colon) is left to
its error. -/
theorem ActivationPlan.environmentOverrides_composes_iff {plan : ActivationPlan}
    {base output : Environment} (h : plan.environmentOverrides base = .ok output) :
    (Composes base output pathVariable plan.pathEntries ∧
      Composes base output cmakeVariable plan.cmakePrefixes ∧
      Composes base output pkgConfigVariable plan.pkgConfigPaths) ↔
    HasComponents base pathVariable plan.pathEntries ∧
      HasComponents base cmakeVariable plan.cmakePrefixes ∧
      HasComponents base pkgConfigVariable plan.pkgConfigPaths := by
  unfold environmentOverrides at h
  obtain ⟨path, hpath, h⟩ := Data.bind_eq_ok_iff.mp h
  obtain ⟨cmake, hcmake, h⟩ := Data.bind_eq_ok_iff.mp h
  obtain ⟨pkgConfig, hpkgConfig, h⟩ := Data.bind_eq_ok_iff.mp h
  obtain rfl := Except.ok.inj h
  have hpathCmake : pathVariable ≠ cmakeVariable := by decide
  have hpathPkg : pathVariable ≠ pkgConfigVariable := by decide
  have hcmakePkg : cmakeVariable ≠ pkgConfigVariable := by decide
  rw [composes_iff hpath, composes_iff hcmake, composes_iff hpkgConfig]
  · rw [SortedMap.get?_insert, if_pos rfl]
  · rw [SortedMap.get?_insert, if_neg hcmakePkg, SortedMap.get?_insert, if_pos rfl]
  · rw [SortedMap.get?_insert, if_neg hpathPkg, SortedMap.get?_insert, if_neg hpathCmake,
      SortedMap.get?_insert, if_pos rfl]

/-- A result without programs, in an environment without a search path: the value is there,
and is one empty component. -/
theorem ActivationPlan.environmentOverrides_unset :
    ∃ output, ActivationPlan.environmentOverrides ⟨[], [ascii "/d"], [], []⟩ SortedMap.empty =
        .ok output ∧
      output.get? pathVariable = some [] ∧ splitPaths [] = [[]] ∧
      ¬ Composes SortedMap.empty output pathVariable [] := by
  refine ⟨_, rfl, by decide, rfl, ?_⟩
  rintro ⟨value, hvalue, hsplit⟩
  exact splitPaths_ne_nil value hsplit

theorem ActivationPlan.environmentOverrides_sample :
    ∃ output, ActivationPlan.environmentOverrides
        ⟨[ascii "/d/bin"], [ascii "/d"], [ascii "/d/lib/pkgconfig"], []⟩
        (SortedMap.empty.insert pathVariable (ascii "/usr/bin:")) = .ok output ∧
      Composes (SortedMap.empty.insert pathVariable (ascii "/usr/bin:")) output pathVariable
        [ascii "/d/bin"] := by
  have hoverrides : ∃ output, ActivationPlan.environmentOverrides
      ⟨[ascii "/d/bin"], [ascii "/d"], [ascii "/d/lib/pkgconfig"], []⟩
      (SortedMap.empty.insert pathVariable (ascii "/usr/bin:")) = .ok output := ⟨_, rfl⟩
  obtain ⟨output, houtput⟩ := hoverrides
  refine ⟨output, houtput, ?_⟩
  refine ((ActivationPlan.environmentOverrides_composes_iff houtput).mpr ⟨?_, ?_, ?_⟩).1
  · exact .inl (List.cons_ne_nil _ _)
  · exact .inl (List.cons_ne_nil _ _)
  · exact .inl (List.cons_ne_nil _ _)

end Prep.Store
