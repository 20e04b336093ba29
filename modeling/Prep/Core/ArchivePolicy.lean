/-
  Core/ArchivePolicy.lean --- the admission policy of
  `prep-core/src/archive_policy.rs`.

  Sizes are added with the check of a `u64`.  The order of the checks is the source's, so an
  inventory is refused with the error that the source reports.
-/
import Prep.Core.Source

set_option autoImplicit false

namespace Prep.Core

open Prep.Text

/-- `ArchiveEntryKind`. -/
inductive ArchiveEntryKind where
  | regularFile
  | directory
  | symlink
  | hardlink
  | special
  deriving DecidableEq, Repr

/-- `ArchiveEntry`. -/
structure ArchiveEntry where
  name : Bytes
  kind : ArchiveEntryKind
  expandedBytes : Nat
  deriving DecidableEq, Repr

/-- `ArchiveLimits`. -/
structure ArchiveLimits where
  maxEntries : UInt64
  maxTotalBytes : UInt64
  maxEntryBytes : UInt64
  maxPathBytes : UInt64

/-- `windows_reserved_name`. -/
def windowsReservedName (component : Bytes) : Bool :=
  let stem := component.takeWhile (· != 46)
  let name := toAsciiUppercase stem
  [ascii "CON", ascii "PRN", ascii "AUX", ascii "NUL", ascii "CONIN$", ascii "CONOUT$"].contains
      name ||
    (name.length == 4 && ((ascii "COM").isPrefixOf name || (ascii "LPT").isPrefixOf name) &&
      (name[3]?).any fun b => isAsciiDigit b && b != 48)

/-! ## Components -/

/-- The map `components`: the spelling and the number of every component met, under
the number of its parent and its lower-case text. -/
abbrev Components : Type := List ((Nat × Bytes) × (Bytes × Nat))

/-- The loop over the components of one name, which has met `depth` of them and
stands at `parent`. -/
def admitComponents (known : Components) (parent depth : Nat) :
    List Bytes → Except SourceVerificationError Components
  | [] => .ok known
  | component :: rest =>
      if depth + 1 > 128 then .error .tooLarge
      else
        let key := (parent, toAsciiLowercase component)
        match known.lookup key with
        | some (spelling, id) =>
            if spelling ≠ component then .error .unsafeEntryPath
            else admitComponents known id (depth + 1) rest
        | none =>
            let id := known.length + 1
            admitComponents ((key, (component, id)) :: known) id (depth + 1) rest

/-! ## Entries -/

/-- The variables of the loop of `validate_archive_inventory`. -/
structure InventoryState where
  total : Nat
  paths : Std.TreeMap Bytes ArchiveEntryKind
  known : Components

/-- The loop's first checks: the name and the kind of an entry on their own. -/
def admitName (limits : ArchiveLimits) (entry : ArchiveEntry) :
    Except SourceVerificationError Unit := do
  validateArchiveEntryPath entry.name limits.maxPathBytes.toNat
  if !entry.name.all isAscii || (components entry.name).any fun component =>
      component.getLast? == some 46 || component.getLast? == some 32 ||
        windowsReservedName component then
    .error .unsafeEntryPath
  else if entry.kind ≠ .regularFile ∧ entry.kind ≠ .directory then .error .unsafeEntryPath
  else .ok ()

/-- One pass of the loop of `validate_archive_inventory`. -/
def admitEntry (limits : ArchiveLimits) (state : InventoryState) (entry : ArchiveEntry) :
    Except SourceVerificationError InventoryState := do
  admitName limits entry
  let known ← admitComponents state.known 0 0 (components entry.name)
  let path := toAsciiLowercase entry.name
  if state.paths.contains path then .error .unsafeEntryPath
  else if entry.kind = .directory ∧ entry.expandedBytes ≠ 0 then .error .unsafeEntryPath
  else if entry.expandedBytes > limits.maxEntryBytes.toNat then .error .tooLarge
  else do
    let total ← checkedAdd state.total entry.expandedBytes
    if total > limits.maxTotalBytes.toNat then .error .tooLarge
    else .ok ⟨total, state.paths.insert path entry.kind, known⟩

/-- Whether a path has an ancestor among the paths that is not a directory. -/
def hasFileAncestor (paths : Std.TreeMap Bytes ArchiveEntryKind) (path : Bytes) : Bool :=
  path.zipIdx.any fun (byte, index) =>
    byte == 47 && (paths[path.take index]?).any (· != .directory)

/-- `validate_archive_inventory`. -/
def validateArchiveInventory (entries : List ArchiveEntry) (limits : ArchiveLimits) :
    Except SourceVerificationError Nat :=
  if entries.length > limits.maxEntries.toNat then .error .tooLarge
  else do
    let state ← entries.foldlM (admitEntry limits) ⟨0, ∅, []⟩
    if state.paths.keys.any (hasFileAncestor state.paths) then .error .unsafeEntryPath
    else return state.total

end Prep.Core
