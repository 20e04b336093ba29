/-
  Core/SameBuild.lean --- the stream fed to SHA-256 is the same for two build inputs
  exactly when they describe the same build.

  Two streams that differ may still have one digest.  That would be a collision of SHA-256, and
  is not denied here.
-/
import Prep.Core.IdentityEncoding

set_option autoImplicit false

namespace Prep.Core

open Prep.Data
open Prep.Manifest
open Prep.Text

/-! ## The same build -/

/-- The sources agree on kind, url and content.  The requested reference and the
provider are not part of an identity. -/
def SameSource : LockedSource → LockedSource → Prop
  | .git url commit _ _, .git url' commit' _ _ => url = url' ∧ commit = commit'
  | .archive url sha256 _, .archive url' sha256' _ => url = url' ∧ sha256 = sha256'
  | .path localPath, .path localPath' => localPath = localPath'
  | _, _ => False

/-- Two inputs describe the same build: they agree on every scalar, and their lists
and maps agree as maps. -/
structure SameBuild (left right : BuildInput) : Prop where
  source : SameSource left.source right.source
  target : left.target = right.target
  toolchain : left.toolchain = right.toolchain
  dependencies : ∀ package : PackageName,
    (valueAt (·.package) left.dependencies package).map (·.result) =
      (valueAt (·.package) right.dependencies package).map (·.result)
  buildTools : ∀ role : Bytes,
    (valueAt (·.role) left.buildTools role).map (fun tool => (tool.executable, tool.version)) =
      (valueAt (·.role) right.buildTools role).map fun tool => (tool.executable, tool.version)
  plugin : left.plugin = right.plugin
  configuration : ∀ key : Bytes, left.configuration[key]? = right.configuration[key]?
  environment : ∀ key : Bytes, left.environment[key]? = right.environment[key]?

/-- Two inputs that differ only in the order of their dependencies and tools. -/
structure Reordered (left right : BuildInput) : Prop where
  source : left.source = right.source
  dependencies : left.dependencies.Perm right.dependencies
  target : left.target = right.target
  toolchain : left.toolchain = right.toolchain
  buildTools : left.buildTools.Perm right.buildTools
  plugin : left.plugin = right.plugin
  configuration : left.configuration = right.configuration
  environment : left.environment = right.environment

/-! ## Sources -/

/-- A text is split at the last occurrence of a separator in one way. -/
theorem append_separator_inj {separator : UInt8} {left left' right right' : Bytes}
    (hright : separator ∉ right) (hright' : separator ∉ right')
    (h : left ++ [separator] ++ right = left' ++ [separator] ++ right') :
    left = left' ∧ right = right' := by
  have hlength : right.length = right'.length := by
    rw [List.append_assoc, List.append_assoc] at h
    rcases List.append_eq_append_iff.mp h with ⟨more, _, hmore⟩ | ⟨more, _, hmore⟩
    · cases more with
      | nil => exact congrArg List.length (List.cons.inj hmore).2
      | cons b more =>
          obtain ⟨_, rfl⟩ := List.cons.inj hmore
          exact absurd (List.mem_append_right more List.mem_cons_self) hright
    · cases more with
      | nil => exact congrArg List.length (List.cons.inj hmore).2.symm
      | cons b more =>
          obtain ⟨_, rfl⟩ := List.cons.inj hmore
          exact absurd (List.mem_append_right more List.mem_cons_self) hright'
  obtain ⟨hfront, hback⟩ := List.append_inj' h hlength
  exact ⟨List.append_cancel_right hfront, hback⟩

theorem notMem_of_all_isLowerHexdigit {digits : Bytes} {b : UInt8}
    (hdigits : digits.all isLowerHexdigit = true) (hb : isLowerHexdigit b = false) :
    b ∉ digits := by
  intro hmem
  rw [List.all_eq_true.mp hdigits b hmem] at hb
  exact Bool.false_ne_true hb.symm

theorem Sha256Digest.hash_notMem_tagged (digest : Sha256Digest) :
    (35 : UInt8) ∉ digest.tagged := by
  intro hmem
  rcases List.mem_append.mp hmem with htag | hdigits
  · exact absurd htag (by decide)
  · exact notMem_of_all_isLowerHexdigit digest.hexdigits (by decide) hdigits

/-- The canonical text of a source kept by content says its kind, url and content,
whatever separators the url contains. -/
theorem canonicalIdentity_eq_iff {left right : LockedSource}
    (hleft : left.isGloballyCacheable = true) (hright : right.isGloballyCacheable = true) :
    left.canonicalIdentity = right.canonicalIdentity ↔ SameSource left right := by
  cases left with
  | git url commit ref provider =>
      cases right with
      | git url' commit' ref' provider' =>
          constructor
          · intro h
            obtain ⟨htext, hcommit⟩ := append_separator_inj
              (notMem_of_all_isLowerHexdigit commit.hexdigits (by decide))
              (notMem_of_all_isLowerHexdigit commit'.hexdigits (by decide)) h
            refine ⟨Validated.ext (List.append_cancel_left htext), ?_⟩
            cases commit
            cases commit'
            cases hcommit
            rfl
          · rintro ⟨rfl, rfl⟩
            rfl
      | archive url' sha256' provider' =>
          refine ⟨fun h => ?_, False.elim⟩
          exact absurd (List.cons.inj h).1 (by decide)
      | path localPath' => cases hright
  | archive url sha256 provider =>
      cases right with
      | git url' commit' ref' provider' =>
          refine ⟨fun h => ?_, False.elim⟩
          exact absurd (List.cons.inj h).1 (by decide)
      | archive url' sha256' provider' =>
          constructor
          · intro h
            obtain ⟨htext, hdigest⟩ := append_separator_inj
              (Sha256Digest.hash_notMem_tagged sha256) (Sha256Digest.hash_notMem_tagged sha256') h
            refine ⟨Validated.ext (List.append_cancel_left htext), ?_⟩
            have hdigits := List.append_cancel_left hdigest
            cases sha256
            cases sha256'
            cases hdigits
            rfl
          · rintro ⟨rfl, rfl⟩
            rfl
      | path localPath' => cases hright
  | path localPath => cases hleft

theorem isGloballyCacheable_of_admitted {input : BuildInput} (h : Admitted input) :
    input.source.isGloballyCacheable = true := by
  have hcacheable := h.cacheable
  unfold requireCacheable at hcacheable
  split at hcacheable
  · assumption
  · cases hcacheable

/-! ## Every string is short -/

theorem length_le_of_validateScalar {label : String} {value : Bytes}
    (h : validateScalar label value = .ok ()) : value.length ≤ 16384 := by
  unfold validateScalar at h
  split at h
  · cases h
  · split at h
    · cases h
    · omega

theorem validateTool_eq_ok_iff {tool : ToolIdentity} :
    validateTool tool = .ok () ↔
      validateScalar "tool role" tool.role = .ok () ∧
        validateScalar "tool executable" tool.executable = .ok () ∧
        validateScalar "tool version" tool.version = .ok () := by
  unfold validateTool
  simp only [bind_eq_ok_iff]
  constructor
  · rintro ⟨_, hrole, _, hexecutable, hversion⟩
    exact ⟨hrole, hexecutable, hversion⟩
  · rintro ⟨hrole, hexecutable, hversion⟩
    exact ⟨(), hrole, (), hexecutable, hversion⟩

theorem ResultId.length_le (id : ResultId) : id.asStr.length ≤ 78 := by
  obtain ⟨digest, hdigest, htext⟩ := id.tagged
  rw [htext, List.length_append, length_toAsciiLowercase]
  rcases Sha256Digest.parse_isOk_iff.mp hdigest with ⟨hlength, _⟩ | ⟨tag, hex, rfl, htag, hlength, _⟩
  · rw [hlength]
    decide
  · rw [List.length_append, Sha256Digest.length_of_folds_to_tag htag, hlength]
    decide

theorem length_canonicalIdentity_le {source : LockedSource}
    (h : source.isGloballyCacheable = true) : source.canonicalIdentity.length ≤ 5000 := by
  cases source with
  | git url commit ref provider =>
      have hurl := SourceUrl.length_le url
      have hcommit := commit.length
      simp only [LockedSource.canonicalIdentity, List.length_append,
        show (ascii "git:").length = 4 from rfl, show (ascii "@").length = 1 from rfl]
      omega
  | archive url sha256 provider =>
      have hurl := SourceUrl.length_le url
      have hdigest := sha256.length
      simp only [LockedSource.canonicalIdentity, Sha256Digest.tagged, List.length_append,
        show (ascii "archive:").length = 8 from rfl, show (ascii "#").length = 1 from rfl,
        show (ascii "sha256:").length = 7 from rfl]
      omega
  | path localPath => cases h

/-- A length prefix of eight bytes suffices for every string of the list. -/
def AllShort (values : List Bytes) : Prop := ∀ value ∈ values, value.length < 2 ^ 64

theorem AllShort.append {left right : List Bytes} (hleft : AllShort left)
    (hright : AllShort right) : AllShort (left ++ right) :=
  List.forall_mem_append.mpr ⟨hleft, hright⟩

theorem AllShort.flatMap {α : Type} {strings : α → List Bytes} {values : List α}
    (h : ∀ a ∈ values, AllShort (strings a)) : AllShort (values.flatMap strings) := by
  intro value hvalue
  obtain ⟨a, ha, hmem⟩ := List.mem_flatMap.mp hvalue
  exact h a ha value hmem

theorem allShort_count {label : Bytes} {n : Nat} (hlabel : label.length < 2 ^ 64)
    (hn : n < 2 ^ 64) : AllShort [label, toDecimal n] := by
  have hdecimal := length_toDecimal_le hn
  simp only [AllShort, List.forall_mem_cons]
  exact ⟨hlabel, by omega, fun _ h => absurd h List.not_mem_nil⟩

theorem allShort_tool {label : Bytes} {tool : ToolIdentity} (hlabel : label.length ≤ 64)
    (h : validateTool tool = .ok ()) : AllShort (toolStrings label tool) := by
  obtain ⟨hrole, hexecutable, hversion⟩ := validateTool_eq_ok_iff.mp h
  have hrole := length_le_of_validateScalar hrole
  have hexecutable := length_le_of_validateScalar hexecutable
  have hversion := length_le_of_validateScalar hversion
  simp only [AllShort, toolStrings, List.forall_mem_cons, List.length_append,
    show (ascii ".role").length = 5 from rfl, show (ascii ".executable").length = 11 from rfl,
    show (ascii ".version").length = 8 from rfl]
  exact ⟨by omega, by omega, by omega, by omega, by omega, by omega,
    fun _ h => absurd h List.not_mem_nil⟩

theorem allShort_dependency (dependency : DependencyResult) :
    AllShort (dependencyStrings dependency) := by
  have hpackage := PackageName.length_le dependency.package
  have hresult := dependency.result.length_le
  simp only [AllShort, dependencyStrings, List.forall_mem_cons]
  exact ⟨by decide, by omega, by decide, by omega, fun _ h => absurd h List.not_mem_nil⟩

theorem allShort_plugin {plugin : PluginBuildIdentity}
    (h : validateScalar "plugin protocol" plugin.protocol = .ok ()) :
    AllShort (pluginStrings plugin) := by
  have hname := PackageName.length_le plugin.name
  have hversion := PackageVersion.length_le plugin.version
  have hdigest : plugin.contentDigest.tagged.length = 71 := by
    rw [Sha256Digest.tagged, List.length_append, plugin.contentDigest.length]
    rfl
  have hprotocol := length_le_of_validateScalar h
  simp only [AllShort, pluginStrings, List.forall_mem_cons]
  exact ⟨by decide, by omega, by decide, by omega, by decide, by omega, by decide, by omega,
    fun _ h => absurd h List.not_mem_nil⟩

theorem allShort_map {label : Bytes} {values : Std.TreeMap Bytes Bytes}
    (hlabel : label.length ≤ 64) (hsize : values.size < 2 ^ 64)
    (h : ∀ entry ∈ values.toList, validateScalar "build input key" entry.1 = .ok () ∧
      validateScalar "build input value" entry.2 = .ok ()) :
    AllShort (mapStrings label values) := by
  refine AllShort.append (allShort_count ?_ hsize) (AllShort.flatMap fun entry hentry => ?_)
  · rw [List.length_append, show (ascii ".count").length = 6 from rfl]
    omega
  · have hkey := length_le_of_validateScalar (h entry hentry).1
    have hvalue := length_le_of_validateScalar (h entry hentry).2
    simp only [AllShort, entryStrings, List.forall_mem_cons, List.length_append,
      show (ascii ".key").length = 4 from rfl, show (ascii ".value").length = 6 from rfl]
    exact ⟨by omega, by omega, by omega, by omega, fun _ h => absurd h List.not_mem_nil⟩

/-- The strings of an input that passes the checks are short. -/
theorem allShort_strings {input : BuildInput} (h : Admitted input) : AllShort input.strings := by
  have hdependencies : input.sortedDependencies.length = input.dependencies.length :=
    (sortByKey_perm _ _).length_eq
  have htools : input.sortedTools.Perm input.buildTools := sortByKey_perm _ _
  have hsource := length_canonicalIdentity_le (isGloballyCacheable_of_admitted h)
  have htarget := length_le_of_validateScalar h.target
  have hscalars := List.forall_mem_append.mp h.scalars
  have hdependencies_lt := input.dependencies_lt
  have hbuildTools_lt := input.buildTools_lt
  unfold BuildInput.strings
  refine AllShort.append (AllShort.append (AllShort.append (AllShort.append (AllShort.append
    (AllShort.append (AllShort.append (AllShort.append ?_ ?_) ?_) ?_) ?_) ?_) ?_) ?_) ?_
  · simp only [AllShort, List.forall_mem_cons]
    exact ⟨by decide, by decide, by decide, by omega, by decide, by omega,
      fun _ h => absurd h List.not_mem_nil⟩
  · exact allShort_tool (by decide) h.toolchain
  · exact allShort_count (by decide) (by omega)
  · exact AllShort.flatMap fun dependency _ => allShort_dependency dependency
  · exact allShort_count (by decide) (by rw [htools.length_eq]; omega)
  · exact AllShort.flatMap fun tool htool =>
      allShort_tool (by decide) (h.tools tool (htools.mem_iff.mp htool))
  · exact allShort_plugin h.protocol
  · exact allShort_map (by decide) input.configuration_lt hscalars.1
  · exact allShort_map (by decide) input.environment_lt hscalars.2

/-! ## The encoding is injective -/

/-- Maps list the same entries exactly when they answer every key alike. -/
theorem toList_eq_iff {left right : Std.TreeMap Bytes Bytes} :
    left.toList = right.toList ↔ ∀ key : Bytes, left[key]? = right[key]? := by
  rw [← Std.TreeMap.equiv_iff_toList_eq]
  exact ⟨fun h key => h.getElem?_eq, Std.TreeMap.Equiv.of_forall_constGet?_eq⟩

/-- Tools with distinct roles are hashed alike exactly when they stand for the same
map. -/
theorem sortedTools_eq_iff {left right : BuildInput} (hleft : Admitted left)
    (hright : Admitted right) :
    left.sortedTools = right.sortedTools ↔ ∀ role : Bytes,
      (valueAt (·.role) left.buildTools role).map (fun tool => (tool.executable, tool.version)) =
        (valueAt (·.role) right.buildTools role).map
          fun tool => (tool.executable, tool.version) := by
  unfold BuildInput.sortedTools
  rw [sortByKey_eq_iff_perm hleft.roles, perm_iff_valueAt_eq hleft.roles hright.roles]
  refine forall_congr' fun role => (valueAt_map_inj ?_).symm
  rintro ⟨role, executable, version⟩ ⟨role', executable', version'⟩ hrole hrest
  cases hrole
  cases hrest
  rfl

/-- Dependencies on distinct packages are hashed alike exactly when they stand for
the same map. -/
theorem sortedDependencies_eq_iff {left right : BuildInput} (hleft : Admitted left)
    (hright : Admitted right) :
    left.sortedDependencies = right.sortedDependencies ↔ ∀ package : PackageName,
      (valueAt (·.package) left.dependencies package).map (·.result) =
        (valueAt (·.package) right.dependencies package).map (·.result) := by
  have hpackages : ∀ {input : BuildInput}, Admitted input →
      (input.dependencies.map (·.package)).Nodup := by
    intro input h
    have hnames := h.packages
    rw [← Function.comp_def Validated.asStr, ← List.map_map] at hnames
    exact hnames.of_map
  unfold BuildInput.sortedDependencies
  rw [sortByKey_eq_iff_perm hleft.packages,
    perm_iff_valueAt_eq (hpackages hleft) (hpackages hright)]
  refine forall_congr' fun package => (valueAt_map_inj ?_).symm
  rintro ⟨package, result⟩ ⟨package', result'⟩ hpackage hresult
  cases hpackage
  cases hresult
  rfl

/-- Admitted inputs feed the same strings exactly when they describe the same
build. -/
theorem strings_eq_iff {left right : BuildInput} (hleft : Admitted left)
    (hright : Admitted right) : left.strings = right.strings ↔ SameBuild left right := by
  have hsource := canonicalIdentity_eq_iff (isGloballyCacheable_of_admitted hleft)
    (isGloballyCacheable_of_admitted hright)
  have hdependencies := sortedDependencies_eq_iff hleft hright
  have htools := sortedTools_eq_iff hleft hright
  constructor
  · intro h
    obtain ⟨hcanonical, htarget, htoolchain, hsorted, hsorted', hplugin, hconfiguration,
      henvironment⟩ := strings_inj h
    exact ⟨hsource.mp hcanonical, htarget, htoolchain, hdependencies.mp hsorted,
      htools.mp hsorted', hplugin, toList_eq_iff.mp hconfiguration,
      toList_eq_iff.mp henvironment⟩
  · intro h
    have hconfiguration := toList_eq_iff.mpr h.configuration
    have henvironment := toList_eq_iff.mpr h.environment
    unfold BuildInput.strings mapStrings
    rw [hsource.mpr h.source, h.target, h.toolchain, hdependencies.mpr h.dependencies,
      htools.mpr h.buildTools, h.plugin, ← Std.TreeMap.length_toList,
      ← Std.TreeMap.length_toList, hconfiguration, henvironment, Std.TreeMap.length_toList,
      Std.TreeMap.length_toList]

/-- The byte streams of admitted inputs are equal exactly for the same build. -/
theorem framedAll_strings_eq_iff {left right : BuildInput} (hleft : Admitted left)
    (hright : Admitted right) :
    framedAll left.strings = framedAll right.strings ↔ SameBuild left right := by
  rw [← strings_eq_iff hleft hright]
  exact ⟨framedAll_inj (allShort_strings hleft) (allShort_strings hright), congrArg framedAll⟩

/-! ## The encoding forgets the order of the lists -/

theorem Reordered.symm {left right : BuildInput} (h : Reordered left right) :
    Reordered right left :=
  ⟨h.source.symm, h.dependencies.symm, h.target.symm, h.toolchain.symm, h.buildTools.symm,
    h.plugin.symm, h.configuration.symm, h.environment.symm⟩

theorem Reordered.admitted {left right : BuildInput} (h : Reordered left right)
    (hleft : Admitted left) : Admitted right where
  cacheable := h.source ▸ hleft.cacheable
  target := h.target ▸ hleft.target
  toolchain := h.toolchain ▸ hleft.toolchain
  protocol := h.plugin ▸ hleft.protocol
  packages := (h.dependencies.map _).nodup_iff.mp hleft.packages
  tools tool htool := hleft.tools tool (h.buildTools.mem_iff.mpr htool)
  roles := (h.buildTools.map _).nodup_iff.mp hleft.roles
  scalars := h.configuration ▸ h.environment ▸ hleft.scalars

theorem Reordered.strings_eq {left right : BuildInput} (h : Reordered left right)
    (hleft : Admitted left) : left.strings = right.strings := by
  have hdependencies : left.sortedDependencies = right.sortedDependencies :=
    (sortByKey_eq_iff_perm hleft.packages).mpr h.dependencies
  have htools : left.sortedTools = right.sortedTools :=
    (sortByKey_eq_iff_perm hleft.roles).mpr h.buildTools
  unfold BuildInput.strings
  rw [h.source, h.target, h.toolchain, hdependencies, htools, h.plugin, h.configuration,
    h.environment]

/-! ## Identities -/

theorem resultIdentity_eq_ok_iff {sha256 : Bytes → Sha256Output} {input : BuildInput}
    {id : ResultId} :
    input.resultIdentity sha256 = .ok id ↔
      Admitted input ∧ id = ResultId.ofDigest (sha256 (framedAll input.strings)) := by
  unfold BuildInput.resultIdentity
  simp only [bind_eq_ok_iff, pure, Except.pure, Except.ok.injEq]
  constructor
  · rintro ⟨hasher, hhasher, rfl⟩
    obtain ⟨hadmitted, hfed⟩ := hashInput_eq_ok_iff.mp hhasher
    exact ⟨hadmitted, by rw [hfed]⟩
  · rintro ⟨hadmitted, rfl⟩
    exact ⟨⟨framedAll input.strings⟩, hashInput_eq_ok_iff.mpr ⟨hadmitted, rfl⟩, rfl⟩

theorem Reordered.resultIdentity_eq_ok {sha256 : Bytes → Sha256Output} {left right : BuildInput}
    (h : Reordered left right) {id : ResultId} (hleft : left.resultIdentity sha256 = .ok id) :
    right.resultIdentity sha256 = .ok id := by
  obtain ⟨hadmitted, rfl⟩ := resultIdentity_eq_ok_iff.mp hleft
  exact resultIdentity_eq_ok_iff.mpr ⟨h.admitted hadmitted, by rw [h.strings_eq hadmitted]⟩

/-- `result_identity` is SHA-256 of a stream that two inputs share exactly when they
describe the same build; reordering dependencies or build tools changes neither
whether there is an identity nor which one. -/
theorem resultIdentity_encodes_build (sha256 : Bytes → Sha256Output) :
    (∀ (left right : BuildInput) (leftId rightId : ResultId),
      left.resultIdentity sha256 = .ok leftId → right.resultIdentity sha256 = .ok rightId →
        ∃ leftHasher rightHasher : IdentityHasher,
          left.hashInput = .ok leftHasher ∧ right.hashInput = .ok rightHasher ∧
          leftId = ResultId.ofDigest (sha256 leftHasher.fed) ∧
          rightId = ResultId.ofDigest (sha256 rightHasher.fed) ∧
          (leftHasher.fed = rightHasher.fed ↔ SameBuild left right)) ∧
    ∀ left right : BuildInput, Reordered left right → ∀ id : ResultId,
      left.resultIdentity sha256 = .ok id ↔ right.resultIdentity sha256 = .ok id := by
  refine ⟨?_, ?_⟩
  · intro left right leftId rightId hleft hright
    obtain ⟨hadmitted, hid⟩ := resultIdentity_eq_ok_iff.mp hleft
    obtain ⟨hadmitted', hid'⟩ := resultIdentity_eq_ok_iff.mp hright
    exact ⟨⟨framedAll left.strings⟩, ⟨framedAll right.strings⟩,
      hashInput_eq_ok_iff.mpr ⟨hadmitted, rfl⟩, hashInput_eq_ok_iff.mpr ⟨hadmitted', rfl⟩,
      hid, hid', framedAll_strings_eq_iff hadmitted hadmitted'⟩
  · intro left right h id
    exact ⟨h.resultIdentity_eq_ok, h.symm.resultIdentity_eq_ok⟩

/-- A release build of a library with CMake and Ninja, the tools listed in the order
given. -/
def releaseBuild (buildTools : List ToolIdentity) (h : buildTools.length < 2 ^ 64) :
    BuildInput where
  source := .archive ⟨ascii "https://example.invalid/lib.tar", by decide +kernel⟩
    ⟨List.replicate 64 48, by decide, by decide⟩
    ⟨⟨ascii "builtin.archive", by decide⟩, ⟨ascii "0.1.0", by decide⟩⟩
  dependencies := []
  target := ascii "x86_64-unknown-linux-gnu"
  toolchain := ⟨ascii "compiler", ascii "/usr/bin/clang++", ascii "clang 20.1"⟩
  buildTools := buildTools
  plugin := ⟨⟨ascii "cmake", by decide⟩, ⟨ascii "0.1.0", by decide⟩,
    ⟨List.replicate 64 50, by decide, by decide⟩, ascii "prep.plugin/1"⟩
  configuration := ∅
  environment := ∅
  dependencies_lt := by decide
  buildTools_lt := h
  configuration_lt := by decide
  environment_lt := by decide

def cmakeTool : ToolIdentity := ⟨ascii "cmake", ascii "/usr/bin/cmake", ascii "cmake 4.1"⟩

def ninjaTool : ToolIdentity := ⟨ascii "ninja", ascii "/usr/bin/ninja", ascii "ninja 1.12"⟩

theorem admitted_releaseBuild : Admitted (releaseBuild [cmakeTool, ninjaTool] (by decide)) where
  cacheable := rfl
  target := by decide
  toolchain := by decide
  protocol := by decide
  packages := by decide
  tools := by decide
  roles := by decide
  scalars := by decide

theorem reordered_releaseBuild {tools tools' : List ToolIdentity} (h : tools.Perm tools')
    (htools : tools.length < 2 ^ 64) (htools' : tools'.length < 2 ^ 64) :
    Reordered (releaseBuild tools htools) (releaseBuild tools' htools') where
  source := rfl
  dependencies := List.Perm.refl _
  target := rfl
  toolchain := rfl
  buildTools := h
  plugin := rfl
  configuration := rfl
  environment := rfl

theorem resultIdentity_encodes_releaseBuild :
    (releaseBuild [cmakeTool, ninjaTool] (by decide)).resultIdentity (fun _ => zeroDigest) =
      .ok (ResultId.ofDigest zeroDigest) ∧
    (releaseBuild [ninjaTool, cmakeTool] (by decide)).resultIdentity (fun _ => zeroDigest) =
      .ok (ResultId.ofDigest zeroDigest) ∧
    ∃ leftHasher rightHasher : IdentityHasher,
      (releaseBuild [cmakeTool, ninjaTool] (by decide)).hashInput = .ok leftHasher ∧
      (releaseBuild [ninjaTool, cmakeTool] (by decide)).hashInput = .ok rightHasher ∧
      (leftHasher.fed = rightHasher.fed ↔
        SameBuild (releaseBuild [cmakeTool, ninjaTool] (by decide))
          (releaseBuild [ninjaTool, cmakeTool] (by decide))) := by
  have hleft : (releaseBuild [cmakeTool, ninjaTool] (by decide)).resultIdentity (fun _ => zeroDigest) =
      .ok (ResultId.ofDigest zeroDigest) :=
    resultIdentity_eq_ok_iff.mpr ⟨admitted_releaseBuild, rfl⟩
  obtain ⟨hencodes, hreordered⟩ := resultIdentity_encodes_build fun _ => zeroDigest
  have hright := (hreordered _ _ (reordered_releaseBuild (List.Perm.swap _ _ []) _ (by decide)) _).mp hleft
  obtain ⟨leftHasher, rightHasher, hleftHasher, hrightHasher, _, _, hfed⟩ :=
    hencodes _ _ _ _ hleft hright
  exact ⟨hleft, hright, leftHasher, rightHasher, hleftHasher, hrightHasher, hfed⟩

end Prep.Core
