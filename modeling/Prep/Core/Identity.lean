/-
  Core/Identity.lean --- `BuildInput::result_identity` of
  `prep-core/src/identity.rs`.

  The identity is the SHA-256 digest of a stream of length-prefixed labels and
  values.  SHA-256 is a parameter: what is proved is about the stream it is fed.
-/
import Prep.Core.ResultId
import Prep.Core.Sha256
import Prep.Data.Except
import Prep.Data.Keyed
import Prep.Text.Framing

set_option autoImplicit false

namespace Prep.Core

open Prep.Data
open Prep.Manifest
open Prep.Text

/-! ## Build inputs -/

/-- `ToolIdentity`. -/
structure ToolIdentity where
  role : Bytes
  executable : Bytes
  version : Bytes
  deriving DecidableEq

/-- `PluginBuildIdentity`. -/
structure PluginBuildIdentity where
  name : PluginName
  version : PackageVersion
  contentDigest : Sha256Digest
  protocol : Bytes
  deriving DecidableEq

/-- `DependencyResult`. -/
structure DependencyResult where
  package : PackageName
  result : ResultId
  deriving DecidableEq

/-- `BuildInput`.  The last four fields are the bound `usize` puts on the length of
every `Vec` and `BTreeMap`. -/
structure BuildInput where
  source : LockedSource
  dependencies : List DependencyResult
  target : Bytes
  toolchain : ToolIdentity
  buildTools : List ToolIdentity
  plugin : PluginBuildIdentity
  configuration : Std.TreeMap Bytes Bytes
  environment : Std.TreeMap Bytes Bytes
  dependencies_lt : dependencies.length < 2 ^ 64
  buildTools_lt : buildTools.length < 2 ^ 64
  configuration_lt : configuration.size < 2 ^ 64
  environment_lt : environment.size < 2 ^ 64

/-! ## The hasher -/

/-- `IdentityHasher`, with the bytes `Sha256::update` has been given. -/
structure IdentityHasher where
  fed : Bytes
  deriving DecidableEq

namespace IdentityHasher

/-- `IdentityHasher::new`. -/
def new : IdentityHasher := ⟨[]⟩

/-- `IdentityHasher::bytes`. -/
def bytes (hasher : IdentityHasher) (value : Bytes) : IdentityHasher :=
  ⟨hasher.fed ++ toBeBytes value.length ++ value⟩

/-- `IdentityHasher::field`. -/
def field (hasher : IdentityHasher) (label value : Bytes) : IdentityHasher :=
  (hasher.bytes label).bytes value

/-- `IdentityHasher::count`. -/
def count (hasher : IdentityHasher) (label : Bytes) (value : Nat) : IdentityHasher :=
  hasher.field label (toDecimal value)

@[simp] theorem new_fed : new.fed = framedAll [] := rfl

@[simp] theorem field_fed (hasher : IdentityHasher) (label value : Bytes) :
    (hasher.field label value).fed = hasher.fed ++ framedAll [label, value] := by
  simp [field, bytes, framed, List.append_assoc]

@[simp] theorem count_fed (hasher : IdentityHasher) (label : Bytes) (value : Nat) :
    (hasher.count label value).fed = hasher.fed ++ framedAll [label, toDecimal value] :=
  field_fed hasher label (toDecimal value)

/-- A loop that feeds the strings of every element feeds the strings of all. -/
theorem foldl_fed {α : Type} {feed : IdentityHasher → α → IdentityHasher}
    {strings : α → List Bytes}
    (hfeed : ∀ hasher a, (feed hasher a).fed = hasher.fed ++ framedAll (strings a))
    (values : List α) (hasher : IdentityHasher) :
    (values.foldl feed hasher).fed = hasher.fed ++ framedAll (values.flatMap strings) := by
  induction values generalizing hasher with
  | nil => rw [List.foldl_nil, List.flatMap_nil, framedAll_nil, List.append_nil]
  | cons a values ih =>
      rw [List.foldl_cons, ih, hfeed, List.flatMap_cons, framedAll_append, List.append_assoc]

end IdentityHasher

/-- `hash_tool`. -/
def hashTool (hasher : IdentityHasher) (label : Bytes) (tool : ToolIdentity) :
    IdentityHasher :=
  ((hasher.field (label ++ ascii ".role") tool.role).field
    (label ++ ascii ".executable") tool.executable).field
    (label ++ ascii ".version") tool.version

/-- `hash_map`. -/
def hashMap (hasher : IdentityHasher) (label : Bytes) (values : Std.TreeMap Bytes Bytes) :
    IdentityHasher :=
  values.toList.foldl
    (fun hasher entry =>
      (hasher.field (label ++ ascii ".key") entry.1).field (label ++ ascii ".value") entry.2)
    (hasher.count (label ++ ascii ".count") values.size)

/-! ## Checks -/

/-- `validate_scalar`. -/
def validateScalar (label : String) (value : Bytes) : Except IdentityError Unit :=
  if value.isEmpty then .error (.invalid s!"{label} must not be empty")
  else if value.length > 16 * 1024 then .error (.invalid s!"{label} is unreasonably large")
  else if value.contains 0 then .error (.invalid s!"{label} contains NUL")
  else .ok ()

/-- `validate_tool`. -/
def validateTool (tool : ToolIdentity) : Except IdentityError Unit := do
  validateScalar "tool role" tool.role
  validateScalar "tool executable" tool.executable
  validateScalar "tool version" tool.version

/-- `if !names.insert(name)` of the two duplicate checks. -/
def insertName (duplicate : IdentityError) (names : Std.TreeSet Bytes) (name : Bytes) :
    Except IdentityError (Std.TreeSet Bytes) :=
  if names.contains name then .error duplicate else .ok (names.insert name)

/-- The first line of `result_identity`. -/
def requireCacheable (source : LockedSource) : Except IdentityError Unit :=
  if source.isGloballyCacheable then .ok () else .error .nonCacheableSource

/-! ## The identity -/

namespace BuildInput

/-- The hashing half of `BuildInput::result_identity`: what the hasher is fed, for
the sorted dependencies and tools. -/
def feed (input : BuildInput) (dependencies : List DependencyResult)
    (tools : List ToolIdentity) : IdentityHasher :=
  let hasher := IdentityHasher.new
  let hasher := hasher.field (ascii "schema") (ascii "prep.result/1")
  let hasher := hasher.field (ascii "source") input.source.canonicalIdentity
  let hasher := hasher.field (ascii "target") input.target
  let hasher := hashTool hasher (ascii "toolchain") input.toolchain
  let hasher := hasher.count (ascii "dependency.count") dependencies.length
  let hasher := dependencies.foldl
    (fun hasher dependency =>
      (hasher.field (ascii "dependency.package") dependency.package.asStr).field
        (ascii "dependency.result") dependency.result.asStr) hasher
  let hasher := hasher.count (ascii "build_tool.count") tools.length
  let hasher := tools.foldl (fun hasher tool => hashTool hasher (ascii "build_tool") tool) hasher
  let hasher := hasher.field (ascii "plugin.name") input.plugin.name.asStr
  let hasher := hasher.field (ascii "plugin.version") input.plugin.version.asStr
  let hasher := hasher.field (ascii "plugin.digest") input.plugin.contentDigest.tagged
  let hasher := hasher.field (ascii "plugin.protocol") input.plugin.protocol
  let hasher := hashMap hasher (ascii "configuration") input.configuration
  hashMap hasher (ascii "environment") input.environment

/-- `BuildInput::result_identity` up to `finish_hex`: every check, and the stream
the hasher is fed. -/
def hashInput (input : BuildInput) : Except IdentityError IdentityHasher := do
  requireCacheable input.source
  validateScalar "target" input.target
  validateTool input.toolchain
  validateScalar "plugin protocol" input.plugin.protocol
  let dependencies := sortByKey (·.package.asStr) input.dependencies
  let _ ← dependencies.foldlM
    (fun names dependency =>
      insertName (.duplicateDependency dependency.package.asStr) names dependency.package.asStr)
    (∅ : Std.TreeSet Bytes)
  let tools := sortByKey (·.role) input.buildTools
  let _ ← tools.foldlM
    (fun names tool => do
      validateTool tool
      insertName (.duplicateToolRole tool.role) names tool.role)
    (∅ : Std.TreeSet Bytes)
  forM (input.configuration.toList ++ input.environment.toList) fun entry => do
    validateScalar "build input key" entry.1
    validateScalar "build input value" entry.2
  return input.feed dependencies tools

end BuildInput

/-! ## Identifiers of digests -/

/-- `format!("sha256:{}", hasher.finish_hex())` as a `ResultId`. -/
def ResultId.ofDigest (digest : Sha256Output) : ResultId where
  asStr := ascii "sha256:" ++ finishHex digest
  tagged := by
    obtain ⟨hhex, hlower⟩ :=
      (all_isLowerHexdigit_iff _).mp (all_isLowerHexdigit_finishHex digest)
    exact ⟨finishHex digest,
      Sha256Digest.parse_isOk_iff.mpr (Or.inl ⟨length_finishHex digest, hhex⟩),
      by rw [hlower]⟩

/-- `BuildInput::result_identity`. -/
def BuildInput.resultIdentity (sha256 : Bytes → Sha256Output) (input : BuildInput) :
    Except IdentityError ResultId := do
  let hasher ← input.hashInput
  return ResultId.ofDigest (sha256 hasher.fed)

end Prep.Core
