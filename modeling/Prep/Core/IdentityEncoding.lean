/-
  Core/IdentityEncoding.lean --- the stream fed to SHA-256 says everything about a
  build input that its identity depends on, and nothing about the order its lists
  were written in.

  The stream is a list of length-prefixed strings.  It is read back piece by piece:
  labels and counts fix where every value stands.

  Lengths and counts are written in eight bytes.  No list of the source is longer than `usize`
  lets it be, and so none of them wraps.
-/
import Prep.Core.Identity

set_option autoImplicit false

namespace Prep.Core

open Prep.Data
open Prep.Manifest
open Prep.Text

/-! ## The strings of an input -/

/-- The strings `hash_tool` feeds. -/
def toolStrings (label : Bytes) (tool : ToolIdentity) : List Bytes :=
  [label ++ ascii ".role", tool.role, label ++ ascii ".executable", tool.executable,
    label ++ ascii ".version", tool.version]

/-- The strings one dependency feeds. -/
def dependencyStrings (dependency : DependencyResult) : List Bytes :=
  [ascii "dependency.package", dependency.package.asStr,
    ascii "dependency.result", dependency.result.asStr]

/-- The strings one entry of a map feeds. -/
def entryStrings (label : Bytes) (entry : Bytes × Bytes) : List Bytes :=
  [label ++ ascii ".key", entry.1, label ++ ascii ".value", entry.2]

/-- The strings `hash_map` feeds. -/
def mapStrings (label : Bytes) (values : Std.TreeMap Bytes Bytes) : List Bytes :=
  [label ++ ascii ".count", toDecimal values.size] ++ values.toList.flatMap (entryStrings label)

/-- The strings of the plugin. -/
def pluginStrings (plugin : PluginBuildIdentity) : List Bytes :=
  [ascii "plugin.name", plugin.name.asStr, ascii "plugin.version", plugin.version.asStr,
    ascii "plugin.digest", plugin.contentDigest.tagged,
    ascii "plugin.protocol", plugin.protocol]

namespace BuildInput

/-- The dependencies in the order they are hashed. -/
def sortedDependencies (input : BuildInput) : List DependencyResult :=
  sortByKey (·.package.asStr) input.dependencies

/-- The build tools in the order they are hashed. -/
def sortedTools (input : BuildInput) : List ToolIdentity := sortByKey (·.role) input.buildTools

/-- Everything a build input feeds to the hasher. -/
def strings (input : BuildInput) : List Bytes :=
  [ascii "schema", ascii "prep.result/1", ascii "source", input.source.canonicalIdentity,
    ascii "target", input.target] ++
  toolStrings (ascii "toolchain") input.toolchain ++
  [ascii "dependency.count", toDecimal input.sortedDependencies.length] ++
  input.sortedDependencies.flatMap dependencyStrings ++
  [ascii "build_tool.count", toDecimal input.sortedTools.length] ++
  input.sortedTools.flatMap (toolStrings (ascii "build_tool")) ++
  pluginStrings input.plugin ++
  mapStrings (ascii "configuration") input.configuration ++
  mapStrings (ascii "environment") input.environment

end BuildInput

/-! ## When an identity is produced -/

/-- The checks of `result_identity`, free of the order they are made in. -/
structure Admitted (input : BuildInput) : Prop where
  cacheable : requireCacheable input.source = .ok ()
  target : validateScalar "target" input.target = .ok ()
  toolchain : validateTool input.toolchain = .ok ()
  protocol : validateScalar "plugin protocol" input.plugin.protocol = .ok ()
  packages : (input.dependencies.map (·.package.asStr)).Nodup
  tools : ∀ tool ∈ input.buildTools, validateTool tool = .ok ()
  roles : (input.buildTools.map (·.role)).Nodup
  scalars : ∀ entry ∈ input.configuration.toList ++ input.environment.toList,
    validateScalar "build input key" entry.1 = .ok () ∧
      validateScalar "build input value" entry.2 = .ok ()

/-- A duplicate check passes when every element passes its own check and the names
are new and distinct. -/
theorem foldlM_insertName_isOk {α : Type} (name : α → Bytes) (duplicate : α → IdentityError)
    (check : α → Except IdentityError Unit) (values : List α) (names : Std.TreeSet Bytes) :
    (∃ result, values.foldlM (fun names a => do
        check a
        insertName (duplicate a) names (name a)) names = .ok result) ↔
      (∀ a ∈ values, check a = .ok ()) ∧ (values.map name).Nodup ∧
        ∀ a ∈ values, names.contains (name a) = false := by
  induction values generalizing names with
  | nil => simp [pure, Except.pure]
  | cons a values ih =>
      have hstep : (∃ result, (a :: values).foldlM (fun names a => do
            check a
            insertName (duplicate a) names (name a)) names = .ok result) ↔
          check a = .ok () ∧ names.contains (name a) = false ∧
            ∃ result, values.foldlM (fun names a => do
              check a
              insertName (duplicate a) names (name a)) (names.insert (name a)) = .ok result := by
        constructor
        · rintro ⟨result, h⟩
          rw [List.foldlM_cons, bind_eq_ok_iff] at h
          obtain ⟨next, hnext, hrest⟩ := h
          rw [bind_eq_ok_iff] at hnext
          obtain ⟨_, hcheck, hinsert⟩ := hnext
          unfold insertName at hinsert
          split at hinsert
          · cases hinsert
          · rename_i hnew
            cases hinsert
            exact ⟨hcheck, Bool.eq_false_iff.mpr hnew, result, hrest⟩
        · rintro ⟨hcheck, hnew, result, hrest⟩
          refine ⟨result, ?_⟩
          rw [List.foldlM_cons, bind_eq_ok_iff]
          refine ⟨names.insert (name a), ?_, hrest⟩
          rw [bind_eq_ok_iff]
          refine ⟨(), hcheck, ?_⟩
          rw [insertName, hnew, if_neg Bool.false_ne_true]
      rw [hstep, ih, List.forall_mem_cons, List.map_cons, List.nodup_cons, List.forall_mem_cons]
      have hinserted : (∀ b ∈ values, (names.insert (name a)).contains (name b) = false) ↔
          name a ∉ values.map name ∧ ∀ b ∈ values, names.contains (name b) = false := by
        simp only [Std.TreeSet.contains_insert, Bool.or_eq_false_iff, beq_eq_false_iff_ne, ne_eq,
          Std.LawfulEqCmp.compare_eq_iff_eq, List.mem_map, not_exists, not_and]
        constructor
        · intro h
          exact ⟨fun b hb heq => (h b hb).1 heq.symm, fun b hb => (h b hb).2⟩
        · rintro ⟨hname, hnames⟩ b hb
          exact ⟨fun heq => hname b hb heq.symm, hnames b hb⟩
      rw [hinserted]
      tauto

theorem hashTool_fed (hasher : IdentityHasher) (label : Bytes) (tool : ToolIdentity) :
    (hashTool hasher label tool).fed = hasher.fed ++ framedAll (toolStrings label tool) := by
  simp [hashTool, toolStrings, List.append_assoc]

theorem foldl_dependency_fed (hasher : IdentityHasher) (dependencies : List DependencyResult) :
    (dependencies.foldl (fun hasher dependency =>
      (hasher.field (ascii "dependency.package") dependency.package.asStr).field
        (ascii "dependency.result") dependency.result.asStr) hasher).fed =
      hasher.fed ++ framedAll (dependencies.flatMap dependencyStrings) := by
  refine IdentityHasher.foldl_fed ?_ dependencies hasher
  intro hasher dependency
  simp [dependencyStrings, List.append_assoc]

theorem foldl_hashTool_fed (hasher : IdentityHasher) (label : Bytes) (tools : List ToolIdentity) :
    (tools.foldl (fun hasher tool => hashTool hasher label tool) hasher).fed =
      hasher.fed ++ framedAll (tools.flatMap (toolStrings label)) :=
  IdentityHasher.foldl_fed (fun hasher tool => hashTool_fed hasher label tool) tools hasher

theorem foldl_entry_fed (hasher : IdentityHasher) (label : Bytes)
    (entries : List (Bytes × Bytes)) :
    (entries.foldl (fun hasher entry =>
      (hasher.field (label ++ ascii ".key") entry.1).field (label ++ ascii ".value") entry.2)
        hasher).fed = hasher.fed ++ framedAll (entries.flatMap (entryStrings label)) := by
  refine IdentityHasher.foldl_fed ?_ entries hasher
  intro hasher entry
  simp [entryStrings, List.append_assoc]

theorem hashMap_fed (hasher : IdentityHasher) (label : Bytes)
    (values : Std.TreeMap Bytes Bytes) :
    (hashMap hasher label values).fed = hasher.fed ++ framedAll (mapStrings label values) := by
  rw [hashMap, foldl_entry_fed, IdentityHasher.count_fed, mapStrings, framedAll_append,
    List.append_assoc]

theorem feed_fed (input : BuildInput) :
    (input.feed input.sortedDependencies input.sortedTools).fed = framedAll input.strings := by
  unfold BuildInput.feed BuildInput.strings pluginStrings
  simp only [hashMap_fed, IdentityHasher.field_fed, foldl_hashTool_fed,
    IdentityHasher.count_fed, foldl_dependency_fed, hashTool_fed, IdentityHasher.new_fed,
    framedAll_append, framedAll_cons, framedAll_nil, List.append_assoc, List.nil_append,
    List.append_nil]

/-- The first duplicate check passes when no package is listed twice. -/
theorem dependencyNames_isOk (input : BuildInput) :
    (∃ names, input.sortedDependencies.foldlM
      (fun names dependency =>
        insertName (.duplicateDependency dependency.package.asStr) names dependency.package.asStr)
      (∅ : Std.TreeSet Bytes) = .ok names) ↔
      (input.dependencies.map (·.package.asStr)).Nodup := by
  have hperm : input.sortedDependencies.Perm input.dependencies := sortByKey_perm _ _
  have hloop := foldlM_insertName_isOk (fun d : DependencyResult => d.package.asStr)
    (fun d => .duplicateDependency d.package.asStr) (fun _ => .ok ()) input.sortedDependencies ∅
  rw [(hperm.map _).nodup_iff] at hloop
  refine hloop.trans ⟨fun h => h.2.1, fun h => ⟨fun _ _ => rfl, h, fun d _ => ?_⟩⟩
  exact Std.TreeSet.contains_emptyc

/-- The second one passes when every tool is valid and no role is taken twice. -/
theorem toolRoles_isOk (input : BuildInput) :
    (∃ roles, input.sortedTools.foldlM
      (fun names tool => do
        validateTool tool
        insertName (.duplicateToolRole tool.role) names tool.role)
      (∅ : Std.TreeSet Bytes) = .ok roles) ↔
      (∀ tool ∈ input.buildTools, validateTool tool = .ok ()) ∧
        (input.buildTools.map (·.role)).Nodup := by
  have hperm : input.sortedTools.Perm input.buildTools := sortByKey_perm _ _
  have hloop := foldlM_insertName_isOk (fun t : ToolIdentity => t.role)
    (fun t => .duplicateToolRole t.role) validateTool input.sortedTools ∅
  rw [(hperm.map _).nodup_iff] at hloop
  refine hloop.trans ⟨fun h => ⟨fun t ht => h.1 t (hperm.mem_iff.mpr ht), h.2.1⟩, fun h => ?_⟩
  exact ⟨fun t ht => h.1 t (hperm.mem_iff.mp ht), h.2, fun t _ => Std.TreeSet.contains_emptyc⟩

/-- `result_identity` feeds the strings of an input exactly when the input passes
every check. -/
theorem hashInput_eq_ok_iff {input : BuildInput} {hasher : IdentityHasher} :
    input.hashInput = .ok hasher ↔
      Admitted input ∧ hasher.fed = framedAll input.strings := by
  have hnames := dependencyNames_isOk input
  have hroles := toolRoles_isOk input
  have hfed := feed_fed input
  unfold BuildInput.sortedDependencies at hnames
  unfold BuildInput.sortedTools at hroles
  unfold BuildInput.sortedDependencies BuildInput.sortedTools at hfed
  unfold BuildInput.hashInput
  simp only [bind_eq_ok_iff, pure, Except.pure, Except.ok.injEq]
  constructor
  · rintro ⟨_, hcacheable, _, htarget, _, htoolchain, _, hprotocol, names, hfold, roles, hfold',
      _, hscalars, rfl⟩
    refine ⟨⟨hcacheable, htarget, htoolchain, hprotocol, hnames.mp ⟨names, hfold⟩,
      (hroles.mp ⟨roles, hfold'⟩).1, (hroles.mp ⟨roles, hfold'⟩).2, ?_⟩, hfed⟩
    intro entry hentry
    obtain ⟨_, hkey, hvalue⟩ := bind_eq_ok_iff.mp (forM_eq_ok_iff.mp hscalars entry hentry)
    exact ⟨hkey, hvalue⟩
  · rintro ⟨hadmitted, hhasher⟩
    obtain ⟨names, hfold⟩ := hnames.mpr hadmitted.packages
    obtain ⟨roles, hfold'⟩ := hroles.mpr ⟨hadmitted.tools, hadmitted.roles⟩
    refine ⟨(), hadmitted.cacheable, (), hadmitted.target, (), hadmitted.toolchain,
      (), hadmitted.protocol, names, hfold, roles, hfold', (), ?_, ?_⟩
    · refine forM_eq_ok_iff.mpr fun entry hentry => bind_eq_ok_iff.mpr ⟨(), ?_⟩
      exact hadmitted.scalars entry hentry
    · exact congrArg IdentityHasher.mk (hfed.trans hhasher.symm)

/-! ## Reading the strings back -/

theorem selfDelimiting_count (label : Bytes) :
    SelfDelimiting fun n : Nat => [label, toDecimal n] := by
  intro m n left right h
  simp only [List.cons_append, List.nil_append, List.cons.injEq, true_and] at h
  exact ⟨toDecimal_injective h.1, h.2⟩

theorem selfDelimiting_tool (label : Bytes) : SelfDelimiting (toolStrings label) := by
  rintro ⟨role, executable, version⟩ ⟨role', executable', version'⟩ left right h
  simp only [toolStrings, List.cons_append, List.nil_append, List.cons.injEq, true_and] at h
  obtain ⟨rfl, rfl, rfl, hrest⟩ := h
  exact ⟨rfl, hrest⟩

theorem selfDelimiting_dependency : SelfDelimiting dependencyStrings := by
  rintro ⟨package, result⟩ ⟨package', result'⟩ left right h
  simp only [dependencyStrings, List.cons_append, List.nil_append, List.cons.injEq,
    true_and] at h
  obtain ⟨hpackage, hresult, hrest⟩ := h
  cases Validated.ext hpackage
  cases ResultId.ext hresult
  exact ⟨rfl, hrest⟩

theorem selfDelimiting_entry (label : Bytes) : SelfDelimiting (entryStrings label) := by
  rintro ⟨key, value⟩ ⟨key', value'⟩ left right h
  simp only [entryStrings, List.cons_append, List.nil_append, List.cons.injEq, true_and] at h
  obtain ⟨rfl, rfl, hrest⟩ := h
  exact ⟨rfl, hrest⟩

theorem selfDelimiting_plugin : SelfDelimiting pluginStrings := by
  rintro ⟨name, version, ⟨digest, _, _⟩, protocol⟩ ⟨name', version', ⟨digest', _, _⟩, protocol'⟩
    left right h
  simp only [pluginStrings, Sha256Digest.tagged, List.cons_append, List.nil_append,
    List.cons.injEq, true_and, List.append_cancel_left_eq] at h
  obtain ⟨hname, hversion, rfl, rfl, hrest⟩ := h
  cases Validated.ext hname
  cases Validated.ext hversion
  exact ⟨rfl, hrest⟩

/-- A map is read back up to the shape of its tree. -/
theorem mapStrings_append_inj {label : Bytes} {values values' : Std.TreeMap Bytes Bytes}
    {left right : List Bytes}
    (h : mapStrings label values ++ left = mapStrings label values' ++ right) :
    values.toList = values'.toList ∧ left = right := by
  have hlist := SelfDelimiting.counted (selfDelimiting_count (label ++ ascii ".count"))
    (selfDelimiting_entry label)
  unfold mapStrings at h
  rw [← Std.TreeMap.length_toList, ← Std.TreeMap.length_toList] at h
  exact hlist _ _ _ _ h

/-- Inputs that feed the same strings agree on everything that is fed. -/
theorem strings_inj {left right : BuildInput} (h : left.strings = right.strings) :
    left.source.canonicalIdentity = right.source.canonicalIdentity ∧
      left.target = right.target ∧ left.toolchain = right.toolchain ∧
      left.sortedDependencies = right.sortedDependencies ∧
      left.sortedTools = right.sortedTools ∧ left.plugin = right.plugin ∧
      left.configuration.toList = right.configuration.toList ∧
      left.environment.toList = right.environment.toList := by
  have hdependencies := SelfDelimiting.counted
    (selfDelimiting_count (ascii "dependency.count")) selfDelimiting_dependency
  have htools := SelfDelimiting.counted (selfDelimiting_count (ascii "build_tool.count"))
    (selfDelimiting_tool (ascii "build_tool"))
  unfold BuildInput.strings at h
  simp only [List.append_assoc] at h
  obtain ⟨hhead, h⟩ := List.append_inj h rfl
  simp only [List.cons.injEq, true_and, and_true] at hhead
  obtain ⟨hsource, htarget⟩ := hhead
  obtain ⟨htoolchain, h⟩ := selfDelimiting_tool (ascii "toolchain") _ _ _ _ h
  simp only [← List.append_assoc [ascii "dependency.count", _]] at h
  obtain ⟨hdependency, h⟩ := hdependencies _ _ _ _ h
  simp only [← List.append_assoc [ascii "build_tool.count", _]] at h
  obtain ⟨htool, h⟩ := htools _ _ _ _ h
  obtain ⟨hplugin, h⟩ := selfDelimiting_plugin _ _ _ _ h
  obtain ⟨hconfiguration, h⟩ := mapStrings_append_inj h
  rw [← List.append_nil (mapStrings _ left.environment),
    ← List.append_nil (mapStrings _ right.environment)] at h
  exact ⟨hsource, htarget, htoolchain, hdependency, htool, hplugin, hconfiguration,
    (mapStrings_append_inj h).1⟩

end Prep.Core
