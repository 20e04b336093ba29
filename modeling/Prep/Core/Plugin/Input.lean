/-
  Core/Plugin/Input.lean --- `prep-core/src/plugin_input.rs`: what a builder may be asked.

  A request is put together from parts that were checked on their own: an operation that the
  plugin declares and the policy allows, an environment of allowed variables, and directories
  by their real paths.

  Scope: the file system is that of one moment.  Each path is looked at once, and that it stays
  as it was until the builder is started is up to the caller.  Starting the builder is not
  modelled.
-/
import Prep.Core.Plugin.Types
import Prep.Data.Traverse
import Prep.Fs.RealPath
import Prep.Manifest.Canonical

set_option autoImplicit false

namespace Prep.Core.Plugin

open Prep.Data
open Prep.Fs
open Prep.Io (IoError)
open Prep.Manifest
open Prep.Protocol
open Prep.Serde
open Prep.Text

/-- `PluginInputError`. -/
inductive PluginInputError where
  | io (operation : String) (path : Bytes) (source : IoError)
  | invalidDirectory (label : String) (path : Bytes) (message : String)
  | nonUtf8Path (label : String) (path : Bytes)
  | invalidEnvironmentKey (key : Str)
  | invalidEnvironmentValue (key : Str)
  | invalidArgument (index : Nat)
  | missingDeclaredOperation (operation : BuilderOperation)
  | missingDeclaredCapability (operation : BuilderOperation) (capability : PluginCapability)
  | policyDenied (operation : BuilderOperation) (capability : PluginCapability)

/-! ## Operations -/

/-- `required_builder_capabilities`. -/
def requiredBuilderCapabilities : BuilderOperation → List PluginCapability
  | .configure | .build => [.processSpawn, .filesystemReadSource]
  | .test => [.processSpawn]
  | .installToStaging => [.processSpawn, .filesystemWriteStaging]

/-- `AuthorizedBuilderOperation`. -/
structure AuthorizedBuilderOperation where
  operation : BuilderOperation

/-- One pass of the loop of `authorize_builder_operation`. -/
def authorizeCapability (operation : BuilderOperation)
    (declaredCapabilities : List PluginCapability) (policy : PluginAdmissionPolicy)
    (capability : PluginCapability) : Except PluginInputError PUnit :=
  if capability ∉ declaredCapabilities then
    .error (.missingDeclaredCapability operation capability)
  else if policy.allows capability = false then .error (.policyDenied operation capability)
  else .ok ()

/-- `authorize_builder_operation`. -/
def authorizeBuilderOperation (operation : BuilderOperation)
    (declaredOperations : List PluginOperation) (declaredCapabilities : List PluginCapability)
    (policy : PluginAdmissionPolicy) : Except PluginInputError AuthorizedBuilderOperation :=
  if operation.toPluginOperation ∉ declaredOperations then
    .error (.missingDeclaredOperation operation)
  else do
    forM (requiredBuilderCapabilities operation)
      (authorizeCapability operation declaredCapabilities policy)
    return ⟨operation⟩

theorem authorizeBuilderOperation_eq_ok_iff {operation : BuilderOperation}
    {declaredOperations : List PluginOperation} {declaredCapabilities : List PluginCapability}
    {policy : PluginAdmissionPolicy} {authorized : AuthorizedBuilderOperation} :
    authorizeBuilderOperation operation declaredOperations declaredCapabilities policy =
        .ok authorized ↔
      operation.toPluginOperation ∈ declaredOperations ∧
      (∀ capability ∈ requiredBuilderCapabilities operation,
        capability ∈ declaredCapabilities ∧ policy.allows capability = true) ∧
      authorized = ⟨operation⟩ := by
  have hcapability : ∀ capability,
      authorizeCapability operation declaredCapabilities policy capability = .ok () ↔
        capability ∈ declaredCapabilities ∧ policy.allows capability = true := by
    intro capability
    unfold authorizeCapability
    split
    · rename_i hundeclared
      exact ⟨fun h => (by cases h), fun h => absurd h.1 hundeclared⟩
    · rename_i hdeclared
      split
      · rename_i hdenied
        exact ⟨fun h => (by cases h), fun h => absurd h.2 (ne_true_of_eq_false hdenied)⟩
      · rename_i hallowed
        exact ⟨fun _ => ⟨not_not.mp hdeclared, Bool.eq_true_of_not_eq_false hallowed⟩, fun _ => rfl⟩
  unfold authorizeBuilderOperation
  split
  · rename_i hundeclared
    exact ⟨fun h => (by cases h), fun h => absurd h.1 hundeclared⟩
  · rename_i hdeclared
    rw [check_bind_eq_ok_iff, forM_eq_ok_iff]
    refine ⟨fun ⟨hall, h⟩ => ?_, fun ⟨_, hall, h⟩ => ?_⟩
    · cases h
      exact ⟨not_not.mp hdeclared, fun capability hmem => (hcapability capability).mp
        (hall capability hmem), rfl⟩
    · subst h
      exact ⟨fun capability hmem => (hcapability capability).mpr (hall capability hmem), rfl⟩

/-! ## Environments -/

/-- What `validate_environment_key` accepts. -/
def validEnvironmentKey (key : Str) : Bool :=
  !(key.bytes.isEmpty || key.bytes.contains 61 || key.bytes.contains 0)

/-- `PluginEnvironmentPolicy`. -/
structure PluginEnvironmentPolicy where
  allowedKeys : SortedMap Str Unit
  valid : ∀ key ∈ allowedKeys.keys, validEnvironmentKey key = true

/-- `SanitizedPluginEnvironment`. -/
structure SanitizedPluginEnvironment where
  values : SortedMap Str Str
  valid : ∀ key value, values.get? key = some value →
    validEnvironmentKey key = true ∧ (0 : UInt8) ∉ value.bytes

theorem mem_keys_insert {allowed : SortedMap Str Unit} {key other : Str} :
    other ∈ (allowed.insert key ()).keys ↔ other = key ∨ other ∈ allowed.keys := by
  rw [SortedMap.mem_keys_iff, SortedMap.mem_keys_iff, SortedMap.get?_insert]
  split
  · rename_i heq
    exact ⟨fun _ => .inl heq, fun _ => rfl⟩
  · rename_i hne
    rw [or_iff_right hne]

namespace PluginEnvironmentPolicy

/-- `PluginEnvironmentPolicy::deny_all`. -/
def denyAll : PluginEnvironmentPolicy := ⟨.empty, fun _ h => absurd h List.not_mem_nil⟩

theorem valid_insert (policy : PluginEnvironmentPolicy) {key : Str}
    (h : validEnvironmentKey key = true) :
    ∀ other ∈ (policy.allowedKeys.insert key ()).keys, validEnvironmentKey other = true := by
  intro other hother
  rcases mem_keys_insert.mp hother with rfl | hother
  · exact h
  · exact policy.valid other hother

/-- One pass of the loop of `allow`. -/
def allowKey (policy : PluginEnvironmentPolicy) (key : Str) :
    Except PluginInputError PluginEnvironmentPolicy :=
  if h : validEnvironmentKey key = true then
    .ok ⟨policy.allowedKeys.insert key (), policy.valid_insert h⟩
  else .error (.invalidEnvironmentKey key)

/-- `PluginEnvironmentPolicy::allow`. -/
def allow (keys : List Str) : Except PluginInputError PluginEnvironmentPolicy :=
  keys.foldlM allowKey denyAll

end PluginEnvironmentPolicy

namespace SanitizedPluginEnvironment

@[ext] theorem ext_values {left right : SanitizedPluginEnvironment}
    (h : left.values = right.values) : left = right := by
  cases left
  cases right
  cases h
  rfl

/-- `SanitizedPluginEnvironment::default`. -/
def default : SanitizedPluginEnvironment := ⟨.empty, fun _ _ h => (by cases h)⟩

/-- `values.insert(key.clone(), value.clone())`. -/
def insert (environment : SanitizedPluginEnvironment) (key value : Str)
    (hkey : validEnvironmentKey key = true) (hvalue : (0 : UInt8) ∉ value.bytes) :
    SanitizedPluginEnvironment where
  values := environment.values.insert key value
  valid := by
    intro other found hfound
    rw [SortedMap.get?_insert] at hfound
    split at hfound
    · rename_i heq
      cases hfound
      exact ⟨heq ▸ hkey, hvalue⟩
    · exact environment.valid other found hfound

end SanitizedPluginEnvironment

/-- The loop of `sanitize`. -/
def sanitizeKeys (candidates : SortedMap Str Str) : (keys : List Str) →
    (∀ key ∈ keys, validEnvironmentKey key = true) → SanitizedPluginEnvironment →
    Except PluginInputError SanitizedPluginEnvironment
  | [], _, environment => .ok environment
  | key :: rest, hkeys, environment =>
      have hrest := fun other hother => hkeys other (List.mem_cons_of_mem key hother)
      match candidates.get? key with
      | none => sanitizeKeys candidates rest hrest environment
      | some value =>
          if h : (0 : UInt8) ∈ value.bytes then .error (.invalidEnvironmentValue key)
          else sanitizeKeys candidates rest hrest
            (environment.insert key value (hkeys key List.mem_cons_self) h)

/-- `PluginEnvironmentPolicy::sanitize`. -/
def PluginEnvironmentPolicy.sanitize (policy : PluginEnvironmentPolicy)
    (candidates : SortedMap Str Str) : Except PluginInputError SanitizedPluginEnvironment :=
  sanitizeKeys candidates policy.allowedKeys.keys policy.valid .default

/-- The variables of a map that are allowed. -/
def Restricts (candidates : SortedMap Str Str) (allowed : Str → Prop)
    (values : SortedMap Str Str) : Prop :=
  ∀ key value, values.get? key = some value ↔ allowed key ∧ candidates.get? key = some value

theorem Restricts.congr {candidates values : SortedMap Str Str} {allowed allowed' : Str → Prop}
    (h : ∀ key value, candidates.get? key = some value → (allowed key ↔ allowed' key)) :
    Restricts candidates allowed values ↔ Restricts candidates allowed' values := by
  have hand : ∀ key value, (allowed key ∧ candidates.get? key = some value) ↔
      (allowed' key ∧ candidates.get? key = some value) :=
    fun key value => and_congr_left fun hvalue => h key value hvalue
  exact forall_congr' fun key => forall_congr' fun value => iff_congr Iff.rfl (hand key value)

theorem Restricts.insert {candidates values : SortedMap Str Str} {allowed : Str → Prop}
    (h : Restricts candidates allowed values) {key value : Str}
    (hvalue : candidates.get? key = some value) :
    Restricts candidates (fun other => other = key ∨ allowed other) (values.insert key value) := by
  intro other found
  rw [SortedMap.get?_insert]
  split
  · rename_i heq
    rw [heq, hvalue]
    exact ⟨fun h => ⟨.inl rfl, h⟩, And.right⟩
  · rename_i hne
    rw [h other found]
    exact ⟨fun h => ⟨.inr h.1, h.2⟩, fun h => ⟨h.1.resolve_left hne, h.2⟩⟩

theorem sanitizeKeys_eq_ok_iff {candidates : SortedMap Str Str} {keys : List Str}
    {hkeys : ∀ key ∈ keys, validEnvironmentKey key = true}
    {environment environment' : SanitizedPluginEnvironment} {seen : Str → Prop}
    (hseen : Restricts candidates seen environment.values) :
    sanitizeKeys candidates keys hkeys environment = .ok environment' ↔
      (∀ key ∈ keys, ∀ value, candidates.get? key = some value → (0 : UInt8) ∉ value.bytes) ∧
        Restricts candidates (fun key => key ∈ keys ∨ seen key) environment'.values := by
  induction keys generalizing environment seen with
  | nil =>
      have hcongr : Restricts candidates seen environment'.values ↔
          Restricts candidates (fun key => key ∈ [] ∨ seen key) environment'.values :=
        Restricts.congr fun key _ _ => by rw [or_iff_right List.not_mem_nil]
      rw [sanitizeKeys, Except.ok.injEq, ← hcongr]
      refine ⟨fun h => ⟨fun _ hkey => (by cases hkey), h ▸ hseen⟩, fun h => ?_⟩
      refine SanitizedPluginEnvironment.ext_values (SortedMap.ext_get? fun key => ?_)
      refine Option.ext fun value => ?_
      rw [hseen key value, h.2 key value]
  | cons key rest ih =>
      rw [sanitizeKeys, List.forall_mem_cons]
      cases hvalue : candidates.get? key with
      | none =>
          dsimp only
          rw [ih hseen]
          refine and_congr ⟨fun h => ⟨fun _ heq => (by cases heq), h⟩, And.right⟩
            (Restricts.congr fun other value hother => ?_)
          have hne : other ≠ key := by
            rintro rfl
            rw [hvalue] at hother
            cases hother
          rw [List.mem_cons, or_iff_right hne]
      | some value =>
          dsimp only
          split
          · rename_i hnul
            exact ⟨fun h => (by cases h), fun h => absurd hnul (h.1.1 value rfl)⟩
          · rename_i hclean
            have hinsert : Restricts candidates (fun other => other = key ∨ seen other)
                (environment.insert key value (hkeys key List.mem_cons_self) hclean).values :=
              hseen.insert hvalue
            rw [ih hinsert]
            refine and_congr ⟨fun h => ⟨fun found heq => ?_, h⟩, And.right⟩
              (Restricts.congr fun other _ _ => ?_)
            · cases heq
              exact hclean
            · rw [List.mem_cons, or_left_comm, or_assoc]

theorem foldlM_allowKey_eq_ok {keys : List Str} {policy policy' : PluginEnvironmentPolicy}
    (h : keys.foldlM PluginEnvironmentPolicy.allowKey policy = .ok policy') :
    (∀ key ∈ keys, validEnvironmentKey key = true) ∧
      ∀ key, key ∈ policy'.allowedKeys.keys ↔ key ∈ keys ∨ key ∈ policy.allowedKeys.keys := by
  induction keys generalizing policy with
  | nil =>
      cases h
      exact ⟨fun _ hkey => (by cases hkey), fun key => by rw [or_iff_right List.not_mem_nil]⟩
  | cons key rest ih =>
      rw [List.foldlM_cons] at h
      obtain ⟨next, hnext, h⟩ := bind_eq_ok_iff.mp h
      obtain ⟨hvalid, hmem⟩ := ih h
      unfold PluginEnvironmentPolicy.allowKey at hnext
      split at hnext
      · rename_i hkey
        cases hnext
        refine ⟨List.forall_mem_cons.mpr ⟨hkey, hvalid⟩, fun other => ?_⟩
        rw [hmem other, mem_keys_insert, List.mem_cons, or_left_comm, or_assoc]
      · cases hnext

theorem exists_foldlM_allowKey {keys : List Str} (policy : PluginEnvironmentPolicy)
    (h : ∀ key ∈ keys, validEnvironmentKey key = true) :
    ∃ policy', keys.foldlM PluginEnvironmentPolicy.allowKey policy = .ok policy' := by
  induction keys generalizing policy with
  | nil => exact ⟨policy, rfl⟩
  | cons key rest ih =>
      obtain ⟨hkey, hrest⟩ := List.forall_mem_cons.mp h
      rw [List.foldlM_cons, PluginEnvironmentPolicy.allowKey, dif_pos hkey]
      exact ih _ hrest

/-- Which environments come of which keys. -/
theorem sanitized_iff {keys : List Str} {candidates : SortedMap Str Str}
    {environment : SanitizedPluginEnvironment} :
    (∃ policy, PluginEnvironmentPolicy.allow keys = .ok policy ∧
        policy.sanitize candidates = .ok environment) ↔
      (∀ key ∈ keys, validEnvironmentKey key = true ∧
        ∀ value, candidates.get? key = some value → (0 : UInt8) ∉ value.bytes) ∧
      Restricts candidates (· ∈ keys) environment.values := by
  have hdefault : Restricts candidates (fun _ => False) SanitizedPluginEnvironment.default.values :=
    fun key value => ⟨fun h => (by cases h), fun h => h.1.elim⟩
  have hsanitize : ∀ policy, PluginEnvironmentPolicy.allow keys = .ok policy →
      (policy.sanitize candidates = .ok environment ↔
        (∀ key ∈ keys, ∀ value, candidates.get? key = some value → (0 : UInt8) ∉ value.bytes) ∧
          Restricts candidates (· ∈ keys) environment.values) := by
    intro policy hallow
    have hmem : ∀ key, key ∈ policy.allowedKeys.keys ↔ key ∈ keys := fun key => by
      rw [(foldlM_allowKey_eq_ok hallow).2 key]
      exact or_iff_left List.not_mem_nil
    unfold PluginEnvironmentPolicy.sanitize
    rw [sanitizeKeys_eq_ok_iff hdefault]
    refine and_congr (forall_congr' fun key => by rw [hmem key]) (Restricts.congr fun key _ _ => ?_)
    rw [hmem key, or_false]
  constructor
  · rintro ⟨policy, hallow, h⟩
    obtain ⟨hvalues, hrestricts⟩ := (hsanitize policy hallow).mp h
    exact
      ⟨fun key hkey => ⟨(foldlM_allowKey_eq_ok hallow).1 key hkey, hvalues key hkey⟩, hrestricts⟩
  · rintro ⟨hkeys, hrestricts⟩
    obtain ⟨policy, hallow⟩ :=
      exists_foldlM_allowKey PluginEnvironmentPolicy.denyAll fun key hkey => (hkeys key hkey).1
    exact ⟨policy, hallow, (hsanitize policy hallow).mpr
      ⟨fun key hkey => (hkeys key hkey).2, hrestricts⟩⟩

/-! ## Directories -/

/-- What `fs::symlink_metadata` and `fs::canonicalize` answer: what a file system has, unless
they fail for another reason than the path (permissions, a NUL in it, a fault of the disk). -/
structure DirectoryHost where
  fs : FileSystem
  inspectFault : Bytes → Option IoError
  canonicalizeFault : Bytes → Option IoError

namespace DirectoryHost

def symlinkMetadata (host : DirectoryHost) (path : Bytes) : Except IoError Node :=
  match host.inspectFault path with
  | some source => .error source
  | none => host.fs.symlinkMetadata path

def canonicalize (host : DirectoryHost) (path : Bytes) : Except IoError Bytes :=
  match host.canonicalizeFault path with
  | some source => .error source
  | none => host.fs.canonicalize path

end DirectoryHost

/-- `canonical_real_directory`. -/
def canonicalRealDirectory (host : DirectoryHost) (label : String) (path : Bytes) :
    Except PluginInputError Bytes :=
  if absoluteTarget path = false then
    .error (.invalidDirectory label path "path must be absolute")
  else do
    let metadata ← (host.symlinkMetadata path).mapError fun source =>
      .io "inspect directory" path source
    -- what is a directory is no link
    if metadata.isDir = false then
      .error (.invalidDirectory label path
        "path must name a real directory, not a symlink or other node")
    else
      (host.canonicalize path).mapError fun source => .io "canonicalize directory" path source

/-- `path_to_protocol_string`. -/
def pathToProtocolString (label : String) (path : Bytes) : Except PluginInputError Str :=
  match Str.ofBytes? path with
  | some text => .ok text
  | none => .error (.nonUtf8Path label path)

/-- `PluginExecutionRoots`. -/
structure PluginExecutionRoots where
  sourceDir : Bytes
  buildDir : Bytes
  stagingDir : Bytes

/-- `PluginExecutionRoots::new`. -/
def PluginExecutionRoots.new (host : DirectoryHost) (sourceDir buildDir stagingDir : Bytes) :
    Except PluginInputError PluginExecutionRoots := do
  let sourceDir ← canonicalRealDirectory host "source directory" sourceDir
  let buildDir ← canonicalRealDirectory host "build directory" buildDir
  let stagingDir ← canonicalRealDirectory host "staging directory" stagingDir
  return ⟨sourceDir, buildDir, stagingDir⟩

/-- A path that ends in a directory, without a link at its end, and the real path of it. -/
structure Names (host : DirectoryHost) (path canonical : Bytes) : Prop where
  absolute : absoluteTarget path = true
  inspected : host.inspectFault path = none
  canonicalized : host.canonicalizeFault path = none
  directory : ∃ entries, host.fs.symlinkMetadata path = .ok (.dir entries)
  canonical : host.fs.canonicalize path = .ok canonical

theorem isDir_eq_true {node : Node} : node.isDir = true ↔ ∃ entries, node = .dir entries := by
  cases node with
  | dir entries => exact ⟨fun _ => ⟨entries, rfl⟩, fun _ => rfl⟩
  | file _ _ | symlink _ | special =>
      refine ⟨fun h => (by cases h), ?_⟩
      rintro ⟨_, h⟩
      cases h

section Directories

variable {host : DirectoryHost} {label : String} {path canonical : Bytes}

theorem canonicalRealDirectory_eq_ok_iff :
    canonicalRealDirectory host label path = .ok canonical ↔ Names host path canonical := by
  unfold canonicalRealDirectory
  split
  · rename_i hrelative
    refine ⟨fun h => (by cases h), fun h => ?_⟩
    rw [h.absolute] at hrelative
    cases hrelative
  · rename_i habsolute
    rw [bind_eq_ok_iff]
    constructor
    · rintro ⟨node, hnode, h⟩
      rw [mapError_eq_ok_iff] at hnode
      unfold DirectoryHost.symlinkMetadata at hnode
      split at hnode
      · cases hnode
      · rename_i hinspected
        split at h
        · cases h
        · rename_i hdir
          obtain ⟨entries, rfl⟩ := isDir_eq_true.mp (Bool.eq_true_of_not_eq_false hdir)
          rw [mapError_eq_ok_iff] at h
          unfold DirectoryHost.canonicalize at h
          split at h
          · cases h
          · rename_i hcanonicalized
            exact ⟨Bool.eq_true_of_not_eq_false habsolute, hinspected, hcanonicalized,
              ⟨entries, hnode⟩, h⟩
    · intro h
      obtain ⟨entries, hentries⟩ := h.directory
      refine ⟨.dir entries, ?_, ?_⟩
      · rw [mapError_eq_ok_iff, DirectoryHost.symlinkMetadata, h.inspected]
        exact hentries
      · rw [if_neg (ne_false_of_eq_true (isDir_eq_true.mpr ⟨entries, rfl⟩)), mapError_eq_ok_iff,
          DirectoryHost.canonicalize, h.canonicalized]
        exact h.canonical

theorem pathToProtocolString_eq_ok_iff {text : Str} :
    pathToProtocolString label path = .ok text ↔ text.bytes = path := by
  unfold pathToProtocolString
  rw [← Str.ofBytes?_eq_some]
  split
  · rename_i found hfound
    rw [hfound, Except.ok.injEq, Option.some.injEq]
  · rename_i hnone
    rw [hnone]
    exact ⟨fun h => (by cases h), fun h => (by cases h)⟩

theorem roots_eq_ok_iff {source build staging : Bytes} {roots : PluginExecutionRoots} :
    PluginExecutionRoots.new host source build staging = .ok roots ↔
      Names host source roots.sourceDir ∧ Names host build roots.buildDir ∧
        Names host staging roots.stagingDir := by
  unfold PluginExecutionRoots.new
  simp only [bind_eq_ok_iff, canonicalRealDirectory_eq_ok_iff]
  constructor
  · rintro ⟨_, hsource, _, hbuild, _, hstaging, h⟩
    cases h
    exact ⟨hsource, hbuild, hstaging⟩
  · rintro ⟨hsource, hbuild, hstaging⟩
    exact ⟨_, hsource, _, hbuild, _, hstaging, rfl⟩

/-- The canonical path of a directory is the real path of a directory, found again without
following any link. -/
theorem Names.exists_real (h : Names host path canonical) :
    ∃ real entries, canonical = realPathBuf real ∧ (∀ name ∈ real, Plain name) ∧
      host.fs.root.get? real = some (.dir entries) := by
  obtain ⟨entries, hentries⟩ := h.directory
  obtain ⟨real, hreal, hdir⟩ := symlinkMetadata_dir hentries
  obtain ⟨top, htop⟩ := exists_top hdir
  have hroot : Real host.fs.root [] :=
    ⟨fun _ hname => (by cases hname), _, htop, fun _ heq => (by cases heq)⟩
  have hcanonical := h.canonical
  rw [FileSystem.canonicalize, hreal] at hcanonical
  cases hcanonical
  exact ⟨real, entries, rfl, (seek_real hreal hroot hroot (pieces_pieces path)).plain, hdir⟩

end Directories

/-! ## Requests -/

/-- `BuilderRequestInput`. -/
structure BuilderRequestInput where
  id : Str
  operation : AuthorizedBuilderOperation
  packageName : PackageName
  packageVersion : PackageVersion
  roots : PluginExecutionRoots
  dependencyPrefixes : List Bytes
  environment : SanitizedPluginEnvironment
  offline : Bool
  arguments : List Str

/-- `PluginPackage { name, version }`. -/
def pluginPackage (name : PackageName) (version : PackageVersion) : PluginPackage where
  name := ⟨name.asStr, name.isUtf8⟩
  version := ⟨version.asStr, version.isUtf8⟩

/-- What is done with one of the dependency prefixes. -/
def dependencyPrefix (host : DirectoryHost) (path : Bytes) : Except PluginInputError Str := do
  pathToProtocolString "dependency prefix" (← canonicalRealDirectory host "dependency prefix" path)

/-- `BuilderRequestInput::into_frame`. -/
def BuilderRequestInput.intoFrame (host : DirectoryHost) (input : BuilderRequestInput) :
    Except PluginInputError BuilderRequestFrame :=
  match input.arguments.findIdx? fun argument => argument.bytes.contains 0 with
  | some index => .error (.invalidArgument index)
  | none => do
      let dependencyPrefixes ← input.dependencyPrefixes.mapM (dependencyPrefix host)
      let sourceDir ← pathToProtocolString "source directory" input.roots.sourceDir
      let buildDir ← pathToProtocolString "build directory" input.roots.buildDir
      let stagingDir ← pathToProtocolString "staging directory" input.roots.stagingDir
      return .new input.id input.operation.operation
        (pluginPackage input.packageName input.packageVersion)
        { sourceDir, buildDir, stagingDir, dependencyPrefixes,
          environment := input.environment.values
          offline := input.offline }
        input.arguments

/-- A directory as a request names it. -/
def Sends (host : DirectoryHost) (path : Bytes) (text : Str) : Prop := Names host path text.bytes

/-- The raw parts a request is put together from. -/
structure RequestParts where
  id : Str
  operation : BuilderOperation
  declaredOperations : List PluginOperation
  declaredCapabilities : List PluginCapability
  policy : PluginAdmissionPolicy
  packageName : PackageName
  packageVersion : PackageVersion
  sourceDir : Bytes
  buildDir : Bytes
  stagingDir : Bytes
  dependencyPrefixes : List Bytes
  allowedKeys : List Str
  candidates : SortedMap Str Str
  offline : Bool
  arguments : List Str

/-- The parts give a request. -/
def RequestParts.Gives (parts : RequestParts) (host : DirectoryHost)
    (frame : BuilderRequestFrame) : Prop :=
  ∃ operation environmentPolicy environment roots,
    authorizeBuilderOperation parts.operation parts.declaredOperations parts.declaredCapabilities
      parts.policy = .ok operation ∧
    PluginEnvironmentPolicy.allow parts.allowedKeys = .ok environmentPolicy ∧
    environmentPolicy.sanitize parts.candidates = .ok environment ∧
    PluginExecutionRoots.new host parts.sourceDir parts.buildDir parts.stagingDir = .ok roots ∧
    BuilderRequestInput.intoFrame host ⟨parts.id, operation, parts.packageName,
      parts.packageVersion, roots, parts.dependencyPrefixes, environment, parts.offline,
      parts.arguments⟩ = .ok frame

/-- What has to hold of the parts, and what the request then says. -/
structure RequestParts.Admits (parts : RequestParts) (host : DirectoryHost)
    (frame : BuilderRequestFrame) : Prop where
  declared : parts.operation.toPluginOperation ∈ parts.declaredOperations
  capable : ∀ capability ∈ requiredBuilderCapabilities parts.operation,
    capability ∈ parts.declaredCapabilities ∧ parts.policy.allows capability = true
  keys : ∀ key ∈ parts.allowedKeys, validEnvironmentKey key = true ∧
    ∀ value, parts.candidates.get? key = some value → (0 : UInt8) ∉ value.bytes
  free : ∀ argument ∈ parts.arguments, (0 : UInt8) ∉ argument.bytes
  sourceDir : Sends host parts.sourceDir frame.context.sourceDir
  buildDir : Sends host parts.buildDir frame.context.buildDir
  stagingDir : Sends host parts.stagingDir frame.context.stagingDir
  dependencyPrefixes :
    List.Forall₂ (Sends host) parts.dependencyPrefixes frame.context.dependencyPrefixes
  environment : Restricts parts.candidates (· ∈ parts.allowedKeys) frame.context.environment
  rest : frame = .new parts.id parts.operation
    (pluginPackage parts.packageName parts.packageVersion)
    { frame.context with offline := parts.offline } parts.arguments

section Requests

variable {host : DirectoryHost} {parts : RequestParts} {frame : BuilderRequestFrame}

theorem mapM_dependencyPrefix {paths : List Bytes} {texts : List Str} :
    paths.mapM (dependencyPrefix host) = .ok texts ↔ List.Forall₂ (Sends host) paths texts := by
  have hone : ∀ path text, dependencyPrefix host path = .ok text ↔ Sends host path text := by
    intro path text
    unfold dependencyPrefix Sends
    rw [bind_eq_ok_iff]
    constructor
    · rintro ⟨canonical, hcanonical, htext⟩
      rw [pathToProtocolString_eq_ok_iff.mp htext]
      exact canonicalRealDirectory_eq_ok_iff.mp hcanonical
    · exact fun h => ⟨_, canonicalRealDirectory_eq_ok_iff.mpr h,
        pathToProtocolString_eq_ok_iff.mpr rfl⟩
  induction paths generalizing texts with
  | nil =>
      rw [List.mapM_nil, List.forall₂_nil_left_iff]
      exact ⟨fun h => (Except.ok.inj h).symm, fun h => congrArg _ h.symm⟩
  | cons path paths ih =>
      rw [List.mapM_cons, List.forall₂_cons_left_iff, bind_eq_ok_iff]
      constructor
      · rintro ⟨text, htext, h⟩
        obtain ⟨rest, hrest, heq⟩ := bind_eq_ok_iff.mp h
        cases heq
        exact ⟨text, rest, (hone path text).mp htext, ih.mp hrest, rfl⟩
      · rintro ⟨text, rest, htext, hrest, rfl⟩
        exact ⟨text, (hone path text).mpr htext,
          bind_eq_ok_iff.mpr ⟨rest, ih.mpr hrest, rfl⟩⟩

theorem intoFrame_eq_ok_iff {input : BuilderRequestInput} :
    input.intoFrame host = .ok frame ↔
      (∀ argument ∈ input.arguments, (0 : UInt8) ∉ argument.bytes) ∧
      List.Forall₂ (Sends host) input.dependencyPrefixes frame.context.dependencyPrefixes ∧
      frame.context.sourceDir.bytes = input.roots.sourceDir ∧
      frame.context.buildDir.bytes = input.roots.buildDir ∧
      frame.context.stagingDir.bytes = input.roots.stagingDir ∧
      frame = .new input.id input.operation.operation
        (pluginPackage input.packageName input.packageVersion)
        { frame.context with
          environment := input.environment.values
          offline := input.offline }
        input.arguments := by
  unfold BuilderRequestInput.intoFrame
  split
  · rename_i index hindex
    refine ⟨fun h => (by cases h), fun h => ?_⟩
    obtain ⟨hlt, hnul, _⟩ := List.findIdx?_eq_some_iff_getElem.mp hindex
    exact absurd (List.contains_iff_mem.mp hnul) (h.1 _ (List.getElem_mem hlt))
  · rename_i hnone
    have hfree : ∀ argument ∈ input.arguments, (0 : UInt8) ∉ argument.bytes := by
      intro argument hmem hnul
      have hcontains := List.findIdx?_eq_none_iff.mp hnone argument hmem
      rw [List.contains_iff_mem.mpr hnul] at hcontains
      cases hcontains
    rw [and_iff_right hfree]
    simp only [bind_eq_ok_iff, mapM_dependencyPrefix, pathToProtocolString_eq_ok_iff]
    constructor
    · rintro ⟨_, hprefixes, _, hsource, _, hbuild, _, hstaging, h⟩
      cases h
      exact ⟨hprefixes, hsource, hbuild, hstaging, rfl⟩
    · rintro ⟨hprefixes, hsource, hbuild, hstaging, hframe⟩
      exact ⟨_, hprefixes, _, hsource, _, hbuild, _, hstaging, congrArg Except.ok hframe.symm⟩

theorem gives_iff_admits : parts.Gives host frame ↔ parts.Admits host frame := by
  constructor
  · rintro ⟨operation, environmentPolicy, environment, roots, hoperation, hallow, hsanitize, hroots,
      hframe⟩
    obtain ⟨hdeclared, hcapable, rfl⟩ := authorizeBuilderOperation_eq_ok_iff.mp hoperation
    obtain ⟨hkeys, hrestricts⟩ := sanitized_iff.mp ⟨environmentPolicy, hallow, hsanitize⟩
    obtain ⟨hsource, hbuild, hstaging⟩ := roots_eq_ok_iff.mp hroots
    obtain ⟨hfree, hprefixes, heq, heq', heq'', hrest⟩ := intoFrame_eq_ok_iff.mp hframe
    dsimp only at hfree hprefixes heq heq' heq'' hrest
    rw [← heq] at hsource
    rw [← heq'] at hbuild
    rw [← heq''] at hstaging
    have henvironment : frame.context.environment = environment.values := by
      rw [hrest]
      rfl
    refine ⟨hdeclared, hcapable, hkeys, hfree, hsource, hbuild, hstaging, hprefixes, ?_, ?_⟩
    · rw [henvironment]
      exact hrestricts
    · rw [← henvironment] at hrest
      exact hrest
  · intro h
    have hvalid : ∀ key value, frame.context.environment.get? key = some value →
        validEnvironmentKey key = true ∧ (0 : UInt8) ∉ value.bytes := by
      intro key value hvalue
      obtain ⟨hkey, hcandidate⟩ := (h.environment key value).mp hvalue
      exact ⟨(h.keys key hkey).1, (h.keys key hkey).2 value hcandidate⟩
    obtain ⟨environmentPolicy, hallow, hsanitize⟩ := (@sanitized_iff _ _
      ⟨frame.context.environment, hvalid⟩).mpr ⟨h.keys, h.environment⟩
    have hroots := (@roots_eq_ok_iff host parts.sourceDir parts.buildDir parts.stagingDir
      ⟨frame.context.sourceDir.bytes, frame.context.buildDir.bytes,
        frame.context.stagingDir.bytes⟩).mpr ⟨h.sourceDir, h.buildDir, h.stagingDir⟩
    exact ⟨⟨parts.operation⟩, environmentPolicy, _, _,
      authorizeBuilderOperation_eq_ok_iff.mpr ⟨h.declared, h.capable, rfl⟩, hallow, hsanitize,
      hroots, intoFrame_eq_ok_iff.mpr ⟨h.free, h.dependencyPrefixes, rfl, rfl, rfl, h.rest⟩⟩

/-- The directory named by a path is the same as long as the file system stands still: nothing is
left to follow in it. -/
def FoundAgain (fs : FileSystem) (path : Str) : Prop :=
  ∃ real entries, path.bytes = realPathBuf real ∧ fs.root.get? real = some (.dir entries) ∧
    fs.symlinkMetadata path.bytes = .ok (.dir entries) ∧ fs.canonicalize path.bytes = .ok path.bytes

theorem Sends.foundAgain {path : Bytes} {text : Str} (h : Sends host path text) :
    FoundAgain host.fs text := by
  obtain ⟨real, entries, heq, hplain, hdir⟩ := Names.exists_real h
  refine ⟨real, entries, heq, hdir, ?_, ?_⟩
  · rw [heq]
    exact symlinkMetadata_realPathBuf hplain hdir
  · rw [heq]
    exact canonicalize_realPathBuf hplain hdir

theorem foundAgain_of_admits (h : parts.Admits host frame) :
    ∀ path ∈ frame.context.sourceDir :: frame.context.buildDir :: frame.context.stagingDir ::
      frame.context.dependencyPrefixes, FoundAgain host.fs path := by
  rw [List.forall_mem_cons, List.forall_mem_cons, List.forall_mem_cons]
  refine ⟨h.sourceDir.foundAgain, h.buildDir.foundAgain, h.stagingDir.foundAgain,
    fun path hpath => ?_⟩
  obtain ⟨_, _, hsends⟩ := exists_mem_of_forall₂_right h.dependencyPrefixes hpath
  exact hsends.foundAgain

/-- A builder is sent a request exactly when the plugin declares the operation and what it
requires and the policy allows it, no name or value has a NUL in it and every path ends in a
real directory; and the request says just that: the real paths of the directories, and of
the candidate variables those that are allowed.  Nothing in it is open: no link is left to
follow to a directory, every variable can be passed to a process, and the plugin reads the
request as it was meant. -/
theorem builderRequest_exact (s : SerdeJson) (host : DirectoryHost) (parts : RequestParts)
    (frame : BuilderRequestFrame) :
    (parts.Gives host frame ↔ parts.Admits host frame) ∧
    (parts.Gives host frame →
      (∀ path ∈ frame.context.sourceDir :: frame.context.buildDir :: frame.context.stagingDir ::
        frame.context.dependencyPrefixes, FoundAgain host.fs path) ∧
      (∀ key value, frame.context.environment.get? key = some value →
        validEnvironmentKey key = true ∧ (0 : UInt8) ∉ value.bytes) ∧
      ∃ text, encodeFrame s (BuilderRequestFrame.codec.write frame) = .ok text ∧
        ∀ maximum : UInt64, text.length ≤ maximum.toNat →
          decodeFrame s BuilderRequestFrame.codec.read text maximum = .ok frame) := by
  refine ⟨gives_iff_admits, fun h => ?_⟩
  have hadmits := gives_iff_admits.mp h
  refine ⟨foundAgain_of_admits hadmits, fun key value hvalue => ?_, ?_⟩
  · obtain ⟨hkey, hcandidate⟩ := (hadmits.environment key value).mp hvalue
    exact ⟨(hadmits.keys key hkey).1, (hadmits.keys key hkey).2 value hcandidate⟩
  · obtain ⟨text, hencode, _, _, hdecode⟩ := decodeFrame_encodeFrame (s := s)
      (Frame.fits_write .builderRequest frame) (BuilderRequestFrame.codec.reads frame)
    exact ⟨text, hencode, hdecode⟩

end Requests

/-! ## A request -/

section Sample

theorem tidy_linked : Tidy .sensitive
    (.dir [(ascii "s", .dir []), (ascii "l", .symlink (ascii "/s"))]) := by
  refine Tidy.dir _ (by decide) (List.forall_mem_cons.mpr
    ⟨Tidy.dir _ List.nodup_nil fun _ h => absurd h List.not_mem_nil,
      List.forall_mem_singleton.mpr (Tidy.symlink _)⟩)

/-- A directory, and a link to it. -/
def linkedHost : DirectoryHost where
  fs := ⟨.dir [(ascii "s", .dir []), (ascii "l", .symlink (ascii "/s"))], 40, tidy_linked⟩
  inspectFault := fun _ => none
  canonicalizeFault := fun _ => none

theorem names_linked : Names linkedHost (ascii "/s") (ascii "/s") ∧
    Names linkedHost (ascii "/l/.") (ascii "/s") :=
  ⟨⟨rfl, rfl, rfl, ⟨[], rfl⟩, rfl⟩, ⟨rfl, rfl, rfl, ⟨[], rfl⟩, rfl⟩⟩

theorem isAscii_linkedId : (ascii "1").all isAscii = true := by decide

theorem isAscii_linkedKey : (ascii "PATH").all isAscii = true := by decide

def linkedParts : RequestParts where
  id := .ofAscii "1" isAscii_linkedId
  operation := .test
  declaredOperations := [.test]
  declaredCapabilities := [.processSpawn]
  policy := ⟨{.processSpawn}⟩
  packageName := ⟨ascii "p", rfl⟩
  packageVersion := ⟨ascii "1", rfl⟩
  sourceDir := ascii "/s"
  buildDir := ascii "/s"
  stagingDir := ascii "/s"
  dependencyPrefixes := [ascii "/l/."]
  allowedKeys := [.ofAscii "PATH" isAscii_linkedKey]
  candidates := .empty
  offline := true
  arguments := []

def linkedFrame : BuilderRequestFrame :=
  .new linkedParts.id .test (pluginPackage linkedParts.packageName linkedParts.packageVersion)
    { sourceDir := .ofAscii "/s" (by decide)
      buildDir := .ofAscii "/s" (by decide)
      stagingDir := .ofAscii "/s" (by decide)
      dependencyPrefixes := [.ofAscii "/s" (by decide)]
      environment := .empty
      offline := true } []

/-- `builderRequest_exact` where a dependency is reached through a link. -/
theorem builderRequest_exact_linked : linkedParts.Gives linkedHost linkedFrame ∧
    ∀ path ∈ linkedFrame.context.dependencyPrefixes, FoundAgain linkedHost.fs path := by
  obtain ⟨hiff, hfound⟩ := builderRequest_exact compactJson linkedHost linkedParts linkedFrame
  have hgives : linkedParts.Gives linkedHost linkedFrame := hiff.mpr
    { declared := List.mem_cons_self
      capable := List.forall_mem_singleton.mpr ⟨List.mem_cons_self, by decide⟩
      keys := List.forall_mem_singleton.mpr ⟨by decide, fun _ h => (by cases h)⟩
      free := fun _ h => absurd h List.not_mem_nil
      sourceDir := names_linked.1
      buildDir := names_linked.1
      stagingDir := names_linked.1
      dependencyPrefixes := .cons names_linked.2 .nil
      environment := fun key value => ⟨fun h => (by cases h), fun h => (by cases h.2)⟩
      rest := rfl }
  refine ⟨hgives, fun path hpath => (hfound hgives).1 path ?_⟩
  exact List.mem_cons_of_mem _ (List.mem_cons_of_mem _ (List.mem_cons_of_mem _ hpath))

end Sample

end Prep.Core.Plugin
