/-
  Store/SourceStages.lean --- source stages and the source cache of
  `prep-store/src/lib.rs`.

  What an operation does under the store lock is a program that runs undisturbed.  What
  it does without the lock is done in single moves, between which others may have their
  turns: the passes of the copy loop, the reads of a staged archive, the removal of a part.

  Scope: a call fails only as the files it is about make it fail, or as the reader of an input
  does; that a disk is full or broken is left out.  The name of a stage is drawn once.  A
  process may end without dropping its stage, but not in the middle of an operation: that is in
  `Store/SourceCrash.lean`.
-/
import Prep.Io.Reader
import Prep.Store.SourceFiles

set_option autoImplicit false

namespace Prep.Store.Source

open Prep.Core (Sha256Output finishHex)
open Prep.Fs (Path)
open Prep.Io (IoError Reader)
open Prep.Machine
open Prep.Text

/-- A program on the files of the store that may end with an error. -/
abbrev Op : Type → Type := ExceptT StoreError (Program Call Answer)

def perform (c : Call) : Program Call Answer (Answer c) := Program.perform c

/-- `map_err(|source| io_error(operation, path, source))?` -/
def orIo {α : Type} (operation : String) (path : Path)
    (act : Program Call Answer (Except IoError α)) : Op α :=
  ExceptT.mk do
    match ← act with
    | .ok a => return .ok a
    | .error source => return .error (.io operation path source)

/-! ## Checks -/

/-- `MAX_CACHE_ARCHIVE_BYTES`. -/
def maxCacheArchiveBytes : Nat := 64 * 1024 * 1024

/-- `canonical_source_sha256`. -/
def canonicalSourceSha256 (value : Bytes) : Except StoreError Bytes :=
  if value.length ≠ 64 ∨ value.all isAsciiHexdigit = false then
    .error (.invalidResultId
      "source cache digest must contain exactly 64 hexadecimal characters")
  else .ok (toAsciiLowercase value)

/-- `node_exists`. -/
def nodeExists (file : FileName) : Op Bool := ExceptT.mk do
  match ← perform (.stat file) with
  | .ok _ => return .ok true
  | .error .notFound => return .ok false
  | .error source => return .error (.io "inspect filesystem node" file.path source)

/-- `verify_open_file_identity`, with `validate_lock_metadata`: names are never those of
links or directories here. -/
def verifyOpenFileIdentity (file : FileName) (ino : Nat) : Op Unit := do
  let (found, links) ← orIo "reinspect open file path" file.path (perform (.stat file))
  if links ≠ 1 then
    throw (.invalidPath s!"lock file must not have hard links: {displayPath file.path}")
  else do
    orIo "inspect open file" file.path (perform (.statHandle ino))
    if found ≠ ino then
      throw (.invalidPath s!"lock path changed while opening: {displayPath file.path}")
    else return ()

/-- `verify_real_directory_within` for a stage, which is a real directory if it is there. -/
def verifyStage (stage : Bytes) : Op Unit := do
  orIo "inspect directory" (stagePath stage) (perform (.statStage stage))
  orIo "canonicalize directory" (stagePath stage) (perform (.canonicalizeStage stage))

/-- The checks of `read_bounded_source_bytes` before and after it reads. -/
def checkMaximum (maximum : UInt64) : Except StoreError Unit :=
  if maximum.toNat > maxCacheArchiveBytes then .error .sourceTooLarge else .ok ()

def checkLength (bytes : Bytes) (maximum : UInt64) : Except StoreError Unit :=
  if bytes.length > maximum.toNat then .error .sourceTooLarge else .ok ()

/-- `?` on a result that is there. -/
def given {α : Type} (value : Except StoreError α) : Op α := ExceptT.mk (.ret value)

/-- `read_bounded_source_bytes`, under the store lock. -/
def readBoundedSourceBytes (ino : Nat) (maximum : UInt64) : Op Bytes := do
  given (checkMaximum maximum)
  let bytes ← orIo "read bounded source bytes" [ascii "<source file>"]
    (perform (.readAt ino 0 (maximum.toNat + 1)))
  given (checkLength bytes maximum)
  return bytes

/-- `format!("{:x}", Sha256::digest(&bytes)) != digest`. -/
def checkDigest (sha256 : Bytes → Sha256Output) (bytes digest : Bytes) (path : Path) :
    Except StoreError Unit :=
  if finishHex (sha256 bytes) ≠ digest then .error (.corruptSource path) else .ok ()

/-! ## Under the store lock -/

/-- `read_cached_source_blob_locked`. -/
def readCachedSourceBlobLocked (sha256 : Bytes → Sha256Output) (digest : Bytes)
    (maximum : UInt64) : Op (Option Bytes) := do
  let file := FileName.cached digest
  if !(← nodeExists file) then return none
  else do
    let ino ← orIo "open cached source blob" file.path (perform (.open file))
    verifyOpenFileIdentity file ino
    let bytes ← readBoundedSourceBytes ino maximum
    given (checkDigest sha256 bytes digest file.path)
    return some bytes

/-- `Store::read_cached_source_blob`. -/
def readCachedSourceBlob (sha256 : Bytes → Sha256Output) (expectedSha256 : Bytes)
    (maximum : UInt64) : Op (Option Bytes) := do
  let digest ← given (canonicalSourceSha256 expectedSha256)
  readCachedSourceBlobLocked sha256 digest maximum

/-- `fs::hard_link` of the part to its place in the cache, and what `cache_source_blob`
makes of a place that is taken. -/
def linkSourceBlob (sha256 : Bytes → Sha256Output) (stage digest : Bytes) (maximum : UInt64) :
    Op Unit := ExceptT.mk do
  match ← perform (.hardLink (cachePartFile stage) (.cached digest)) with
  | .ok () => return .ok ()
  | .error .alreadyExists =>
      match ← (readCachedSourceBlobLocked sha256 digest maximum).run with
      | .error e => return .error e
      | .ok none => return .error (.corruptSource (FileName.cached digest).path)
      | .ok (some _) => return .ok ()
  | .error source =>
      return .error (.io "publish source blob without overwrite" (FileName.cached digest).path
        source)

/-- The closure `write_result` of `cache_source_blob`. -/
def fillSourceBlob (sha256 : Bytes → Sha256Output) (stage : Bytes) (ino : Nat)
    (bytes digest : Bytes) (maximum : UInt64) : Op Unit := do
  let part := cachePartFile stage
  orIo "write source cache part" part.path (perform (.write ino bytes))
  orIo "sync source cache part" part.path (perform (.sync ino))
  verifyOpenFileIdentity part ino
  linkSourceBlob sha256 stage digest maximum

/-- The second stay of `cache_source_blob` under the store lock. -/
def publishSourceBlob (sha256 : Bytes → Sha256Output) (stage bytes digest : Bytes)
    (maximum : UInt64) : Op Unit := do
  verifyStage stage
  if (← readCachedSourceBlobLocked sha256 digest maximum).isSome then return ()
  else do
    let part := cachePartFile stage
    let ino ← orIo "create source cache part" part.path (perform (.createNew part))
    let writeResult ← ExceptT.lift (fillSourceBlob sha256 stage ino bytes digest maximum).run
    let cleanup ← ExceptT.lift
      (orIo "remove source cache part" part.path (perform (.remove part))).run
    given writeResult
    given cleanup

/-- `open_unverified_archive`. -/
def openUnverifiedArchive (stage : Bytes) : Op Nat := do
  verifyStage stage
  let file := blobFile stage
  let ino ← orIo "open unverified source archive" file.path (perform (.open file))
  verifyOpenFileIdentity file ino
  return ino

/-- The first stay of `spool_unverified_archive` under the store lock. -/
def startPart (stage : Bytes) : Op Nat := do
  verifyStage stage
  if ← nodeExists (blobFile stage) then
    throw (.invalidPath "source archive is already staged")
  else do
    orIo "create private archive part" (partFile stage).path
      (perform (.createNew (partFile stage)))

/-- The second stay of `spool_unverified_archive` under the store lock. -/
def completePart (stage : Bytes) : Op Unit := do
  verifyStage stage
  if ← nodeExists (blobFile stage) then
    throw (.invalidPath "source archive is already staged")
  else do
    orIo "complete unverified source archive" (blobFile stage).path
      (perform (.rename (partFile stage) (blobFile stage)))

/-- `sync_all` and `verify_open_file_identity` between the two. -/
def sealPart (stage : Bytes) (ino : Nat) : Op Unit := do
  orIo "sync source archive" (partFile stage).path (perform (.sync ino))
  verifyOpenFileIdentity (partFile stage) ino

/-- `Store::begin_unverified_source`, with the names `transaction_id` draws for it. -/
def beginUnverifiedSource : List Bytes → Op Bytes
  | [] => throw (.invalidPath "unable to allocate a private source staging transaction")
  | stage :: names => ExceptT.mk do
      match ← perform (.createLease stage) with
      | .error .alreadyExists => (beginUnverifiedSource names).run
      | .error source => return .error (.io "create lock file" (leasePath (leaseFile stage)) source)
      | .ok () =>
          match ← perform (.lockLease stage) with
          | .error source =>
              return .error (.io "lock source staging lease" (leasePath (leaseFile stage)) source)
          | .ok () =>
              match ← perform (.createStage stage) with
              | .ok () => return .ok stage
              | .error source =>
                  let _ ← perform (.removeLease stage)
                  if source = .alreadyExists then (beginUnverifiedSource names).run
                  else return .error (.io "create private source staging directory"
                    (stagePath stage) source)

/-- `Drop for UnverifiedSourceStage`. -/
def dropStage (stage : Bytes) : Program Call Answer Unit := do
  match ← (verifyStage stage).run with
  | .ok () =>
      let _ ← perform (.removeStage stage)
      let _ ← perform (.removeLease stage)
  | .error _ =>
      let _ ← perform (.removeLease stage)

/-- One entry of the loop of `recover_staging_root` over the source stages. -/
def recoverStage (stage : Bytes) : Op Bool := do
  if validTransactionId stage = false then
    throw (.invalidOutput (stagePath stage) "staging transaction has an invalid identifier")
  else do
    verifyStage stage
    orIo "inspect existing lock file" (leasePath (leaseFile stage)) (perform (.statLease stage))
    if ← orIo "try staging lease" (leasePath (leaseFile stage))
        (perform (.tryLockLease stage)) then do
      orIo "remove abandoned staging directory" (stagePath stage) (perform (.removeStage stage))
      orIo "remove lock file" (leasePath (leaseFile stage)) (perform (.removeLease stage))
      return true
    else return false

/-- The loop of `recover_staging_root`. -/
def recoverStages (recovered : Nat) : List Bytes → Op Nat
  | [] => return recovered
  | stage :: stages => do
      let removed ← recoverStage stage
      recoverStages (if removed then recovered + 1 else recovered) stages

/-- One entry of the loop of `remove_orphaned_unlocked_leases`. -/
def removeOrphan (stage : Bytes) : Op Unit := do
  match ← ExceptT.lift (perform (.statStage stage)) with
  | .ok () => return ()
  | .error _ =>
      if ← orIo "try orphan staging lease" (leasePath (leaseFile stage))
          (perform (.tryLockLease stage)) then
        orIo "remove lock file" (leasePath (leaseFile stage)) (perform (.removeLease stage))
      else return ()

/-- The loop of `remove_orphaned_unlocked_leases`. -/
def removeOrphans : List Bytes → Op Unit
  | [] => return ()
  | stage :: stages => do
      removeOrphan stage
      removeOrphans stages

/-- `Store::recover_abandoned`, where no transaction is staged. -/
def recoverAbandoned : Op Nat := do
  let stages ← orIo "read staging directory" Area.sourceStaging.path (perform .readStages)
  let recovered ← recoverStages 0 stages
  let leases ← orIo "read staging lease directory" [ascii ".locks"] (perform .readLeases)
  removeOrphans leases
  return recovered

/-! ## Operations in progress -/

/-- An operation between two of its moves: a spool in its copy loop, before its check, before
its second stay under the lock or before it removes its part, and a caching while it reads
the staged archive or before its second stay. -/
inductive Task where
  | copying (stage : Bytes) (ino : Nat) (input : Reader) (maximum : UInt64) (total : Nat)
  | sealing (stage : Bytes) (ino total : Nat)
  | completing (stage : Bytes) (ino total : Nat)
  | discarding (stage : Bytes) (error : StoreError)
  | reading (stage : Bytes) (ino : Nat) (digest : Bytes) (expected : Bytes) (maximum : UInt64)
      (taken : Bytes)
  | publishing (stage digest expected : Bytes) (maximum : UInt64) (bytes : Bytes)

/-- An operation that has returned. -/
inductive Returned where
  | spooled (stage : Bytes) (result : Except StoreError Nat)
  | cached (stage expected : Bytes) (maximum : UInt64) (result : Except StoreError Unit)
  deriving DecidableEq

/-- What a move leads to. -/
inductive Progress where
  | goesOn (task : Task)
  | returns (value : Returned)

/-- A program under the store lock. -/
def run {α : Type} (op : Op α) (w : World) : Except StoreError α × World :=
  op.run.eval respond w

/-- A pass of the copy loop of `spool_unverified_archive`. -/
def copyPass (stage : Bytes) (ino : Nat) (input : Reader) (maximum : UInt64) (total : Nat)
    (w : World) : Task × World :=
  match input.read 8192 with
  | (.error .interrupted, rest) => (.copying stage ino rest maximum total, w)
  | (.error source, _) =>
      (.discarding stage (.io "read source archive" (partFile stage).path source), w)
  | (.ok [], _) => (.sealing stage ino total, w)
  | (.ok (head :: tail), rest) =>
      let total := total + (tail.length + 1)
      if 2 ^ 64 ≤ total ∨ maximum.toNat < total then (.discarding stage .sourceTooLarge, w)
      else (.copying stage ino rest maximum total, (respond (.write ino (head :: tail)) w).2)

/-- A read of `read_bounded_source_bytes` from a staged archive: as many bytes as the
operating system hands out, at least one if there are any. -/
def readPass (sha256 : Bytes → Sha256Output) (stage : Bytes) (ino : Nat) (digest expected : Bytes)
    (maximum : UInt64) (taken : Bytes) (amount : Nat) (w : World) : Progress :=
  let left := maximum.toNat + 1 - taken.length
  match ((w.inode ino).contents.drop taken.length).take (min (amount + 1) left) with
  | [] =>
      match checkLength taken maximum with
      | .error e => .returns (.cached stage expected maximum (.error e))
      | .ok () =>
          match checkDigest sha256 taken digest (blobFile stage).path with
          | .error e => .returns (.cached stage expected maximum (.error e))
          | .ok () => .goesOn (.publishing stage digest expected maximum taken)
  | bytes => .goesOn (.reading stage ino digest expected maximum (taken ++ bytes))

/-- The next move of an operation. -/
def advance (sha256 : Bytes → Sha256Output) (amount : Nat) (w : World) :
    Task → Progress × World
  | .copying stage ino input maximum total =>
      let (task, w) := copyPass stage ino input maximum total w
      (.goesOn task, w)
  | .sealing stage ino total =>
      match run (sealPart stage ino) w with
      | (.ok (), w) => (.goesOn (.completing stage ino total), w)
      | (.error e, w) => (.goesOn (.discarding stage e), w)
  | .completing stage _ total =>
      match run (completePart stage) w with
      | (.ok (), w) => (.returns (.spooled stage (.ok total)), w)
      | (.error e, w) => (.goesOn (.discarding stage e), w)
  | .discarding stage e =>
      (.returns (.spooled stage (.error e)), (respond (.remove (partFile stage)) w).2)
  | .reading stage ino digest expected maximum taken =>
      (readPass sha256 stage ino digest expected maximum taken amount w, w)
  | .publishing stage digest expected maximum bytes =>
      let (result, w) := run (publishSourceBlob sha256 stage bytes digest maximum) w
      (.returns (.cached stage expected maximum result), w)

/-- The first move of `spool_unverified_archive`. -/
def startSpool (stage : Bytes) (input : Reader) (maximum : UInt64) (w : World) :
    Progress × World :=
  match run (startPart stage) w with
  | (.ok ino, w) => (.goesOn (.copying stage ino input maximum 0), w)
  | (.error e, w) => (.returns (.spooled stage (.error e)), w)

/-- The first move of `cache_source_blob`, with a stage of this store. -/
def startCache (stage expected : Bytes) (maximum : UInt64) (w : World) : Progress × World :=
  match canonicalSourceSha256 expected with
  | .error e => (.returns (.cached stage expected maximum (.error e)), w)
  | .ok digest =>
      match run (openUnverifiedArchive stage) w with
      | (.error e, w) => (.returns (.cached stage expected maximum (.error e)), w)
      | (.ok ino, w) =>
          match checkMaximum maximum with
          | .error e => (.returns (.cached stage expected maximum (.error e)), w)
          | .ok () => (.goesOn (.reading stage ino digest expected maximum []), w)

/-! ## Histories -/

/-- What is on disk, the operations in progress, and those that have returned. -/
structure State where
  world : World
  task : Agent → Option Task
  returned : List Returned

/-- A store without stages. -/
def State.initial : State := ⟨World.empty, fun _ => none, []⟩

/-- What may happen: a stage is begun, an operation is called or makes its next move, a stage
is dropped, the process of a stage ends without dropping it, abandoned stages are recovered. -/
inductive Step where
  | begin (names : List Bytes)
  | spool (agent : Agent) (stage : Bytes) (input : Reader) (maximum : UInt64)
  | cache (agent : Agent) (stage expected : Bytes) (maximum : UInt64)
  | move (agent : Agent) (amount : Nat)
  | drop (stage : Bytes)
  | abandon (stage : Bytes)
  | recover

/-- The state after a move of an agent. -/
def State.after (s : State) (agent : Agent) : Progress × World → State
  | (.goesOn task, w) => { s with world := w, task := Function.update s.task agent (some task) }
  | (.returns value, w) =>
      { world := w
        task := Function.update s.task agent none
        returned := s.returned ++ [value] }

def step (sha256 : Bytes → Sha256Output) (s : State) : Step → Option State
  | .begin names =>
      -- names are drawn once
      if names.Nodup ∧ ∀ name ∈ names, name ∉ s.world.drawn then
        some { s with
          world := (run (beginUnverifiedSource names)
            { s.world with drawn := s.world.drawn ++ names }).2 }
      else none
  | .spool agent stage input maximum =>
      match s.task agent with
      | none => some (s.after agent (startSpool stage input maximum s.world))
      | some _ => none
  | .cache agent stage expected maximum =>
      match s.task agent with
      | none => some (s.after agent (startCache stage expected maximum s.world))
      | some _ => none
  | .move agent amount =>
      match s.task agent with
      | some task => some (s.after agent (advance sha256 amount s.world task))
      | none => none
  | .drop stage => some { s with world := ((dropStage stage).eval respond s.world).2 }
  | .abandon stage =>
      some { s with
        world := { s.world with
          lease := Function.update s.world.lease stage
            ((s.world.lease stage).map fun _ => false) } }
  | .recover => some { s with world := (run recoverAbandoned s.world).2 }

/-- The steps of a history, one after another. -/
def history (sha256 : Bytes → Sha256Output) (s : State) : List Step → Option State
  | [] => some s
  | first :: rest => (step sha256 s first).bind fun next => history sha256 next rest

end Prep.Store.Source
