/-
  Core/SourceExtract.lean --- `prep-core/src/source_extract.rs`.

  The target directory is a tree of its own.  Every call of the operating system may
  fail with a fault that the calls below do not foresee; which calls do is decided in
  advance by a list.  An error keeps what has been written before it.
-/
import Prep.Core.VerifiedUstar
import Prep.Fs.Directory

set_option autoImplicit false

namespace Prep.Core

open Prep.Fs
open Prep.Text

/-! ## The operating system -/

/-- A fault of a call: its error, and how many bytes a write got through before it. -/
structure Fault where
  code : Nat
  done : Nat
  deriving DecidableEq, Repr

/-- The target directory, and the faults of the calls to come. -/
structure World where
  tree : Node
  faults : List (Option Fault)

/-- A call that changes the tree as `act` says, unless a fault is due. -/
def call {α : Type} (act : Node → Except Errno (α × Node)) (spoil : Fault → Node → Node) :
    StateM World (Except Errno α) := fun w =>
  match w.faults.head?.join with
  | some fault => (.error (.os fault.code), ⟨spoil fault w.tree, w.faults.tail⟩)
  | none =>
      match act w.tree with
      | .ok (a, tree) => (.ok a, ⟨tree, w.faults.tail⟩)
      | .error e => (.error e, ⟨w.tree, w.faults.tail⟩)

/-- A call that leaves the tree as it is. -/
def ask {α : Type} (act : Node → Except Errno α) : StateM World (Except Errno α) :=
  call (fun tree => (act tree).map fun a => (a, tree)) fun _ tree => tree

/-! ## Errors -/

/-- `SourceExtractionError`. -/
inductive SourceExtractionError where
  | invalidSource (error : SourceVerificationError)
  | unsafeTarget
  | io (error : Errno)
  deriving DecidableEq, Repr

/-- What an extraction does to the world, whether or not it ends with an error. -/
abbrev Extraction : Type → Type := ExceptT SourceExtractionError (StateM World)

/-- `?` on the result of a call. -/
def orIo {α : Type} (act : StateM World (Except Errno α)) : Extraction α := do
  match ← act with
  | .ok a => return a
  | .error e => throw (.io e)

/-- `?` on a verification. -/
def orInvalid {α : Type} (result : Except SourceVerificationError α) : Extraction α :=
  match result with
  | .ok a => return a
  | .error e => throw (.invalidSource e)

/-! ## The target -/

/-- The loop of `directory_is_empty` over the names of the directory. -/
def onlyDots : List Bytes → Extraction Bool
  | [] => do
      orIo (ask fun _ => .ok ())
      return true
  | name :: rest => do
      orIo (ask fun _ => .ok ())
      if name = ascii "." ∨ name = ascii ".." then onlyDots rest else return false

/-- `directory_is_empty`. -/
def directoryIsEmpty : Extraction Bool := do
  let names ← orIo (ask (readdir []))
  onlyDots names

/-- The set `created` of relative paths. -/
abbrev Created : Type := Std.TreeSet Bytes

/-- `ensure_subdirectory`: the open directory, and the set with its path. -/
def ensureSubdirectory (rule : CaseRule) (parent : Path) (component relativePath : Bytes)
    (created : Created) : Extraction (Path × Created) := do
  let created ←
    match ← call (fun tree => (mkdirat rule parent component tree).map fun tree => ((), tree))
        fun _ tree => tree with
    | .ok () => pure (created.insert relativePath)
    | .error .exist => if created.contains relativePath then pure created else throw .unsafeTarget
    | .error e => throw (.io e)
  let directory ← orIo (ask (openDirectory rule parent component))
  return (directory, created)

/-! ## Extraction -/

/-- The variables of the loop over the entries. -/
structure Progress where
  created : Created
  written : Nat

/-- Write one regular file of the snapshot below an open directory. -/
def extractFile (rule : CaseRule) (snapshot : VerifiedUstarSnapshot) (limits : ArchiveLimits)
    (entry : ArchiveEntry) (parent : Path) (component : Bytes) (written : Nat) :
    Extraction Nat := do
  if entry.kind ≠ .regularFile then throw (.invalidSource .unsafeEntryPath)
  else
    match snapshot.fileBytes entry.name with
    | none => throw (.invalidSource .unsafeEntryPath)
    | some bytes =>
        if bytes.length ≠ entry.expandedBytes then throw (.invalidSource .identityMismatch)
        else do
          let written ← orInvalid (checkedAdd written bytes.length)
          if written > limits.maxTotalBytes.toNat ∨ bytes.length > limits.maxEntryBytes.toNat then
            throw (.invalidSource .tooLarge)
          else do
            let file ← orIo (call (createExclusive rule parent component) fun _ tree => tree)
            -- `write_all` may fail with some of its bytes already in the file
            orIo (call (fun tree => .ok ((), tree.modifyAt (Node.appendContents bytes) file))
              fun fault tree => tree.modifyAt (Node.appendContents (bytes.take fault.done)) file)
            orIo (ask fun _ => .ok ())
            return written

/-- The loop over the components of an entry, at the open directory `parent` with the
path `relativePath`. -/
def extractComponents (rule : CaseRule) (snapshot : VerifiedUstarSnapshot)
    (limits : ArchiveLimits) (entry : ArchiveEntry) (parent : Path) (relativePath : Bytes)
    (progress : Progress) : List Bytes → Extraction Progress
  | [] => return progress
  | component :: rest => do
      let relativePath :=
        (if relativePath.isEmpty then relativePath else relativePath ++ [47]) ++ component
      if rest ≠ [] ∨ entry.kind = .directory then do
        let (parent, created) ←
          ensureSubdirectory rule parent component relativePath progress.created
        extractComponents rule snapshot limits entry parent relativePath
          { progress with created } rest
      else do
        let written ← extractFile rule snapshot limits entry parent component progress.written
        extractComponents rule snapshot limits entry parent relativePath
          { progress with written } rest

/-- One pass of the loop over the entries. -/
def extractEntry (rule : CaseRule) (snapshot : VerifiedUstarSnapshot) (limits : ArchiveLimits)
    (progress : Progress) (entry : ArchiveEntry) : Extraction Progress := do
  let parent ← orIo (ask (openDirectory rule [] (ascii ".")))
  extractComponents rule snapshot limits entry parent [] progress (components entry.name)

/-- `extract_verified_ustar`. -/
def extractVerifiedUstar (rule : CaseRule) (snapshot : VerifiedUstarSnapshot)
    (limits : ArchiveLimits) : Extraction Nat := do
  let expected ← orInvalid (validateArchiveInventory snapshot.inventory limits)
  let empty ← directoryIsEmpty
  if !empty then throw .unsafeTarget
  else do
    let progress ← snapshot.inventory.foldlM (extractEntry rule snapshot limits) ⟨∅, 0⟩
    if progress.written ≠ expected then throw (.invalidSource .identityMismatch)
    else return progress.written

end Prep.Core
