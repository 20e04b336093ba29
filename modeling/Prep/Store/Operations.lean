/-
  Store/Operations.lean --- the operations of `prep-store/src/lib.rs` as programs.

  Errors carry the texts and paths of the source.  A handle that goes out of scope is
  closed by a call of its own.  Every operation that takes the store lock says, when it
  lets it go, what it has come to.

  Scope: what touches results, staged work and leases.  The source cache and what is spooled
  into a stage are in `Store/SourceStages.lean`, where files are modelled more closely; here a
  stage is begun, held and dropped.
-/
import Prep.Store.Calls

set_option autoImplicit false

namespace Prep.Store

open Prep.Machine
open Prep.Text
open Prep.Fs (Node Path)
open Prep.Io (IoError)

/-- A piece of an operation. -/
abbrev Act : Type → Type := Program Call Answer

/-- A piece of an operation that may end with an error. -/
abbrev Op : Type → Type := ExceptT StoreError Act

/-- One call. -/
def perform (c : Call) : Act (Answer c) := Program.perform c

/-! ## Calls with errors -/

/-- `map_err(|source| io_error(operation, path, source))?` -/
def orIo {α : Type} (operation : String) (path : Path) (act : Act (Except IoError α)) : Op α :=
  ExceptT.mk do
    match ← act with
    | .ok a => return .ok a
    | .error source => return .error (.io operation path source)

/-- `map_err` to a corrupt result. -/
def orCorrupt {α : Type} (path : Path) (message : IoError → String)
    (act : Act (Except IoError α)) : Op α :=
  ExceptT.mk do
    match ← act with
    | .ok a => return .ok a
    | .error source => return .error (.corruptResult path (message source))

def read (place : Place) : Act (Except IoError Node) := perform (.read place)

def canonicalize (place : Place) : Act (Except IoError Unit) := perform (.canonicalize place)

/-- `node_exists`. -/
def nodeExists (place : Place) : Op Bool := ExceptT.mk do
  match ← read place with
  | .ok _ => return .ok true
  | .error .notFound => return .ok false
  | .error source => return .error (.io "inspect filesystem node" place.path source)

/-- `require_real_directory`. -/
def requireRealDirectory (place : Place) (label : String) : Op Unit := do
  let node ← orIo "inspect directory" place.path (read place)
  if node.isDir then return ()
  else throw (.invalidPath s!"{label} must be a real directory: {displayPath place.path}")

/-- `verify_real_directory_within`.  A place is its own canonical path: nothing above
it is a link. -/
def verifyRealDirectoryWithin (place : Place) (label : String) : Op Unit := do
  requireRealDirectory place label
  orIo "canonicalize directory" place.path (canonicalize place)

/-- `sync_directory`. -/
def syncDirectory (path : Path) : Op Unit :=
  orIo "sync directory" path (perform (.quiet (.sync path)))

/-! ## The store lock -/

/-- `verify_real_directory_within` for the directories of the store themselves. -/
def verifyDirectories : List Path → Op Unit
  | [] => return ()
  | path :: rest => do
      orIo "inspect directory" path (perform (.quiet (.stat path)))
      orIo "canonicalize directory" path (perform (.quiet (.canonicalize path)))
      verifyDirectories rest

/-- `verify_layout`. -/
def verifyLayout : Op Unit := do
  orIo "inspect directory" [] (perform (.quiet (.stat [])))
  verifyDirectories [Area.staging.path, Area.sourceStaging.path, Area.sources.path,
    [ascii ".locks"], Area.results.path]

/-- `open_lock_file` for the store lock, which `Store::open` has created. -/
def openLockFile : Op Unit := do
  orIo "inspect lock file" storeLockPath (perform (.quiet (.stat storeLockPath)))
  orIo "open lock file" storeLockPath (perform (.quiet (.open storeLockPath)))
  orIo "reinspect open file path" storeLockPath (perform (.quiet (.stat storeLockPath)))
  orIo "inspect open file" storeLockPath (perform (.quiet (.statHandle storeLockPath)))

/-- `Store::lock_store`. -/
def lockStore : Op Unit := do
  verifyLayout
  openLockFile
  orIo "lock store" storeLockPath (perform .lockStore)

/-- The rest of an operation that has the lock, up to where the lock is let go. -/
def unlocking {α : Type} (act : Act α) (outcome : α → Outcome) : Act α := do
  let result ← act
  perform (.unlockStore (outcome result))
  return result

/-- An operation under the store lock. -/
def locked {α : Type} (op : Op α) (outcome : Except StoreError α → Outcome) : Op α := do
  lockStore
  ExceptT.mk (unlocking op.run outcome)

/-! ## Leases -/

/-- `verify_open_file_identity`.  A lease is a regular file with one link, since it is
created as one and nobody links it. -/
def verifyOpenFileIdentity (file : Bytes) (ino : Nat) : Op Unit := do
  let found ← orIo "reinspect open file path" (leasePath file) (perform (.statLease file))
  orIo "inspect open file" (leasePath file) (perform (.quiet (.statHandle (leasePath file))))
  if found ≠ ino then
    throw (.invalidPath s!"lock path changed while opening: {displayPath (leasePath file)}")
  else return ()

/-- `create_new_lock_file`. -/
def createNewLockFile (file : Bytes) : Op Nat := do
  let ino ← orIo "create lock file" (leasePath file) (perform (.createLease file))
  verifyOpenFileIdentity file ino
  return ino

/-- `open_existing_lock_file`. -/
def openExistingLockFile (file : Bytes) : Op Nat := do
  let _ ← orIo "inspect existing lock file" (leasePath file) (perform (.statLease file))
  let ino ← orIo "open existing lock file" (leasePath file) (perform (.openLease file))
  verifyOpenFileIdentity file ino
  return ino

/-- `release_and_remove_lock_file`, which closes the handle on every way out. -/
def releaseAndRemoveLockFile (file : Bytes) (ino : Nat) : Act (Except StoreError Unit) := do
  let remove : Op Unit := do
    verifyOpenFileIdentity file ino
    orIo "remove lock file" (leasePath file) (perform (.removeLease file))
    orIo "unlock removed lock file" (leasePath file) (perform (.unlockLease file ino))
  let result ← remove.run
  perform (.closeLease file ino)
  return result

/-! ## Results -/

/-- `ResultMetadata`. -/
structure ResultMetadata where
  schema : Bytes
  resultId : Bytes
  state : Bytes
  retention : Bytes
  deriving DecidableEq

/-- `RESULT_SCHEMA_V1`. -/
def resultSchemaV1 : Bytes := ascii "prep.result/1"

/-- `RESULT_RETENTION_PINNED`. -/
def resultRetentionPinned : Bytes := ascii "pinned"

/-- The metadata of a complete result. -/
def completeMetadata (id : StoreResultId) : ResultMetadata where
  schema := resultSchemaV1
  resultId := id.asString
  state := ascii "complete"
  retention := resultRetentionPinned

/-- `toml::to_string` and `toml::from_str` on metadata: what is written for a complete
result is text and is read back. -/
structure MetadataCodec where
  toToml : ResultMetadata → Except String Bytes
  fromToml : Bytes → Except String ResultMetadata
  reads_back : ∀ id, ∃ encoded, toToml (completeMetadata id) = .ok encoded ∧
    Utf8.valid encoded = true ∧ fromToml encoded = .ok (completeMetadata id)

def metadataName : Bytes := ascii "result.toml"

def prefixName : Bytes := ascii "prefix"

/-- The directory of a result. -/
def resultPlace (id : StoreResultId) : Place := ⟨.results, id.hex, []⟩

/-- `write_result_metadata`. -/
def writeResultMetadata (codec : MetadataCodec) (name : Bytes) (id : StoreResultId) : Op Unit := do
  match codec.toToml (completeMetadata id) with
  | .error e => throw (.serialization s!"serialize result metadata: {e}")
  | .ok encoded => do
      let place : Place := ⟨.staging, name, [metadataName]⟩
      orIo "create result metadata" place.path (perform (.createNew place))
      orIo "write result metadata" place.path (perform (.write place encoded))
      orIo "sync result metadata" place.path (perform (.quiet (.sync place.path)))

/-- `validate_result_directory`. -/
def validateResultDirectory (place : Place) (label : String) : Op Unit := do
  let node ← orCorrupt place.path (fun source => s!"cannot inspect {label}: {source}") (read place)
  if node.isDir then
    orCorrupt place.path (fun source => s!"cannot canonicalize {label}: {source}")
      (canonicalize place)
  else throw (.corruptResult place.path s!"{label} must be a real directory")

/-- `validate_output_tree` on the tree at a place. -/
def validateOutputTreeAt (place : Place) : Op Unit := do
  let node ← orIo "inspect output root" place.path (read place)
  ExceptT.mk (return validateOutputTree place.path node)

/-- The text of a file that has been read, as `read_to_string` checks it. -/
def readText (path : Path) (node : Node) : Except StoreError Bytes :=
  match node with
  | .file contents _ =>
      if Utf8.valid contents then .ok contents
      else .error (.io "read result metadata" path .invalidData)
  | _ => .error (.io "read result metadata" path (.other 21))

/-- The check of `validate_existing_result` on the text of the metadata. -/
def checkMetadata (codec : MetadataCodec) (path : Path) (id : StoreResultId) (encoded : Bytes) :
    Except StoreError Unit :=
  match codec.fromToml encoded with
  | .error e => .error (.corruptResult path s!"invalid result metadata: {e}")
  | .ok metadata =>
      if metadata.schema ≠ resultSchemaV1 ∨ metadata.resultId ≠ id.asString ∨
          metadata.state ≠ ascii "complete" ∨ metadata.retention ≠ resultRetentionPinned then
        .error (.corruptResult path
          "metadata does not identify a complete pinned expected result")
      else .ok ()

/-- `validate_existing_result`. -/
def validateExistingResult (codec : MetadataCodec) (id : StoreResultId) : Op Unit := do
  let place := resultPlace id
  validateResultDirectory place "result directory"
  let metadataPlace : Place := ⟨.results, id.hex, [metadataName]⟩
  let metadataNode ← orIo "inspect result metadata" metadataPlace.path (read metadataPlace)
  match metadataNode with
  | .file _ _ => do
      let node ← orIo "read result metadata" metadataPlace.path (read metadataPlace)
      let encoded ← ExceptT.mk (return readText metadataPlace.path node)
      ExceptT.mk (return checkMetadata codec place.path id encoded)
      let prefixPlace : Place := ⟨.results, id.hex, [prefixName]⟩
      validateResultDirectory prefixPlace "result prefix"
      validateOutputTreeAt prefixPlace
  | _ => throw (.corruptResult place.path "result metadata must be a regular file")

/-- `Store::get`. -/
def get (codec : MetadataCodec) (id : StoreResultId) : Op (Option PublishedResult) :=
  locked (do
    let place := resultPlace id
    if ← nodeExists place then do
      validateExistingResult codec id
      return some ⟨id, place.path, place.path ++ [prefixName]⟩
    else return none) (.got id)

/-! ## Transactions -/

/-- `StoreTransaction`, by the identifier its paths are made from. -/
structure StoreTransaction where
  id : Bytes
  lease : Option Nat
  finished : Bool

namespace StoreTransaction

def lockFile (tx : StoreTransaction) : Bytes := leaseFile tx.id

def stagingPlace (tx : StoreTransaction) : Place := ⟨.staging, tx.id, []⟩

def prefixPlace (tx : StoreTransaction) : Place := ⟨.staging, tx.id, [prefixName]⟩

end StoreTransaction

/-- The start of an attempt, for transactions and source stages alike: a new identifier
and its lease, or nothing when the lease is there already. -/
def newLease (operation : String) : Act (Option (Except StoreError (Bytes × Nat))) := do
  let id ← perform .transactionId
  match ← (createNewLockFile (leaseFile id)).run with
  | .error (.io _ _ .alreadyExists) => return none
  | .error e => return some (.error e)
  | .ok ino =>
      match ← perform (.lockLease (leaseFile id) ino) with
      | .error source => do
          perform (.closeLease (leaseFile id) ino)
          return some (.error (.io operation (leasePath (leaseFile id)) source))
      | .ok () => return some (.ok (id, ino))

/-- The rest of an attempt of `Store::begin`. -/
def createStaging (tx : StoreTransaction) (ino : Nat) :
    Act (Option (Except StoreError StoreTransaction)) := do
  match ← perform (.createDir tx.stagingPlace) with
  | .error source => do
      let _ ← releaseAndRemoveLockFile tx.lockFile ino
      if source = .alreadyExists then return none
      else return some (.error (.io "create staging directory" tx.stagingPlace.path source))
  | .ok () =>
      match ← perform (.createDir tx.prefixPlace) with
      | .error source => do
          let _ ← perform (.removeDirAll .staging tx.id)
          let _ ← releaseAndRemoveLockFile tx.lockFile ino
          return some (.error (.io "create staging prefix" tx.prefixPlace.path source))
      | .ok () => return some (.ok tx)

/-- The attempts of `Store::begin`. -/
def beginAttempts : Nat → Op StoreTransaction
  | 0 => throw (.invalidPath "unable to allocate a unique staging transaction")
  | n + 1 => ExceptT.mk do
      match ← newLease "lock staging lease" with
      | none => (beginAttempts n).run
      | some (.error e) => return .error e
      | some (.ok (id, ino)) =>
          match ← createStaging ⟨id, some ino, false⟩ ino with
          | none => (beginAttempts n).run
          | some result => return result

/-- `Store::begin`. -/
def begin : Op StoreTransaction :=
  locked (beginAttempts 128) fun result => .begun (result.map (·.id))

/-- `finish_lease`. -/
def finishLease (tx : StoreTransaction) : Act (Except StoreError Unit × StoreTransaction) := do
  match tx.lease with
  | some ino => do
      let result ← releaseAndRemoveLockFile tx.lockFile ino
      return (result, { tx with lease := none })
  | none => return (.ok (), tx)

/-- `Drop for StoreTransaction`, with the fields that are dropped after it. -/
def dropTransaction (tx : StoreTransaction) : Act Unit := do
  let closeLease : Act Unit := do
    match tx.lease with
    | some ino => perform (.closeLease tx.lockFile ino)
    | none => return ()
  if tx.finished then closeLease
  else
    match ← lockStore.run with
    | .error _ => closeLease
    | .ok () => unlocking (do
        let _ ← perform (.removeDirAll .staging tx.id)
        match tx.lease with
        | some ino => do
            let _ ← releaseAndRemoveLockFile tx.lockFile ino
            return ()
        | none => return ()) fun _ => .dropped tx.id

/-! ## Commit -/

/-- `sync_output_tree` refuses what `validate_output_tree` refuses. -/
def syncOutputTree (place : Place) : Op Unit := do
  let node ← orIo "read output directory for sync" place.path (read place)
  if node.hasSpecial then
    throw (.invalidOutput place.path "special files are not permitted in result prefixes")
  else orIo "sync output file" place.path (perform (.quiet (.sync place.path)))

/-- `ensure_same_filesystem`.  The areas of a store are on one file system. -/
def ensureSameFilesystem (tx : StoreTransaction) : Op Unit := do
  orIo "inspect staging filesystem" tx.stagingPlace.path
    (perform (.quiet (.stat tx.stagingPlace.path)))
  orIo "inspect result filesystem" Area.results.path
    (perform (.quiet (.stat Area.results.path)))

/-- The steps of `commit` before it looks at the destination. -/
def prepare (codec : MetadataCodec) (tx : StoreTransaction) (id : StoreResultId) : Op Unit := do
  verifyRealDirectoryWithin tx.stagingPlace "staging transaction"
  verifyRealDirectoryWithin tx.prefixPlace "staging prefix"
  ensureSameFilesystem tx
  validateOutputTreeAt tx.prefixPlace
  syncOutputTree tx.prefixPlace
  writeResultMetadata codec tx.id id
  syncDirectory tx.stagingPlace.path

/-- What a commit leaves behind for the drop of its transaction. -/
abbrev Committed : Type := Except StoreError PublishOutcome × StoreTransaction

/-- `PublishedResult` of an identifier. -/
def publishedResult (id : StoreResultId) : PublishedResult :=
  ⟨id, (resultPlace id).path, (resultPlace id).path ++ [prefixName]⟩

/-- A result that is already there: the staged one is removed. -/
def discardRedundant (codec : MetadataCodec) (tx : StoreTransaction) (id : StoreResultId)
    (operation : String) : Act Committed := do
  match ← (validateExistingResult codec id).run with
  | .error e => return (.error e, tx)
  | .ok () =>
      match ← perform (.removeDirAll .staging tx.id) with
      | .error source => return (.error (.io operation tx.stagingPlace.path source), tx)
      | .ok () => do
          let (result, tx) ← finishLease tx
          match result with
          | .error e => return (.error e, tx)
          | .ok () => return (.ok (.existing (publishedResult id)), { tx with finished := true })

/-- `rollback_published_result`. -/
def rollbackPublishedResult (id : StoreResultId) : Op Unit := do
  let place := resultPlace id
  validateResultDirectory place "published result rollback target"
  orIo "roll back published result" place.path (perform (.removeDirAll .results id.hex))
  syncDirectory Area.results.path

/-- The error of a rollback that failed. -/
def rollbackFailed (id : StoreResultId) (failure rollback : StoreError) : StoreError :=
  .corruptResult (resultPlace id).path
    s!"publication failed: {failure}; rollback failed: {rollback}"

/-- `fail_after_publish`. -/
def failAfterPublish (tx : StoreTransaction) (id : StoreResultId) (failure : StoreError)
    (cleanupLease : Bool) : Act Committed := do
  match ← (rollbackPublishedResult id).run with
  | .error rollback => return (.error (rollbackFailed id failure rollback), { tx with finished := true })
  | .ok () =>
      if cleanupLease then do
        let (result, tx) ← finishLease tx
        match result with
        | .error cleanup =>
            return (.error (.corruptResult (resultPlace id).path
              s!"publication failed: {failure}; result rollback succeeded; lease cleanup failed: {cleanup}"),
              { tx with finished := true })
        | .ok () => return (.error failure, { tx with finished := true })
      else return (.error failure, { tx with finished := true })

/-- The steps of `commit` after the rename. -/
def confirm (codec : MetadataCodec) (tx : StoreTransaction) (id : StoreResultId) : Act Committed := do
  match ← (validateExistingResult codec id).run with
  | .error failure => failAfterPublish tx id failure true
  | .ok () => do
      let (result, tx) ← finishLease tx
      match result with
      | .error failure => failAfterPublish tx id failure false
      | .ok () =>
          match ← (syncDirectory Area.results.path).run with
          | .error failure => failAfterPublish tx id failure false
          | .ok () =>
              return (.ok (.published (publishedResult id)), { tx with finished := true })

/-- The steps of `commit` from the look at the destination on. -/
def publish (codec : MetadataCodec) (tx : StoreTransaction) (id : StoreResultId) :
    Act Committed := do
  match ← (nodeExists (resultPlace id)).run with
  | .error e => return (.error e, tx)
  | .ok true => discardRedundant codec tx id "remove redundant staging result"
  | .ok false =>
      match ← perform (.rename tx.id id.hex) with
      | .ok () => confirm codec tx id
      | .error source =>
          match ← (nodeExists (resultPlace id)).run with
          | .error e => return (.error e, tx)
          | .ok true => discardRedundant codec tx id "remove raced staging result"
          | .ok false =>
              return (.error (.io "atomically publish result" (resultPlace id).path source), tx)

/-- `StoreTransaction::commit`, with the drop of the transaction at its end. -/
def commit (codec : MetadataCodec) (tx : StoreTransaction) (id : StoreResultId) :
    Act (Except StoreError PublishOutcome) := do
  let (result, tx) ←
    match ← lockStore.run with
    | .error e => pure (.error e, tx)
    | .ok () => unlocking (do
        match ← (prepare codec tx id).run with
        | .error e => return (.error e, tx)
        | .ok () => publish codec tx id) fun committed => .committed tx.id id committed.1
  dropTransaction tx
  return result

/-! ## Source stages -/

/-- `UnverifiedSourceStage`. -/
structure UnverifiedSourceStage where
  id : Bytes
  lease : Option Nat
  finished : Bool

namespace UnverifiedSourceStage

def lockFile (stage : UnverifiedSourceStage) : Bytes := leaseFile stage.id

def place (stage : UnverifiedSourceStage) : Place := ⟨.sourceStaging, stage.id, []⟩

end UnverifiedSourceStage

/-- The rest of an attempt of `Store::begin_unverified_source`. -/
def createSourceStaging (stage : UnverifiedSourceStage) (ino : Nat) :
    Act (Option (Except StoreError UnverifiedSourceStage)) := do
  match ← perform (.createDir stage.place) with
  | .ok () => return some (.ok stage)
  | .error source =>
      match ← releaseAndRemoveLockFile stage.lockFile ino with
      | .error e => return some (.error e)
      | .ok () =>
          if source = .alreadyExists then return none
          else return some (.error (.io "create private source staging directory"
            stage.place.path source))

/-- The attempts of `Store::begin_unverified_source`. -/
def beginUnverifiedSourceAttempts : Nat → Op UnverifiedSourceStage
  | 0 => throw (.invalidPath "unable to allocate a private source staging transaction")
  | n + 1 => ExceptT.mk do
      match ← newLease "lock source staging lease" with
      | none => (beginUnverifiedSourceAttempts n).run
      | some (.error e) => return .error e
      | some (.ok (id, ino)) =>
          match ← createSourceStaging ⟨id, some ino, false⟩ ino with
          | none => (beginUnverifiedSourceAttempts n).run
          | some result => return result

/-- `Store::begin_unverified_source`. -/
def beginUnverifiedSource : Op UnverifiedSourceStage :=
  locked (beginUnverifiedSourceAttempts 128) fun result => .begunSource (result.map (·.id))

/-- `Drop for UnverifiedSourceStage`, with the fields that are dropped after it. -/
def dropStage (stage : UnverifiedSourceStage) : Act Unit := do
  let closeLease : Act Unit := do
    match stage.lease with
    | some ino => perform (.closeLease stage.lockFile ino)
    | none => return ()
  if stage.finished then closeLease
  else
    match ← lockStore.run with
    | .error _ => closeLease
    | .ok () => unlocking (do
        match ← (verifyRealDirectoryWithin stage.place "source staging transaction").run with
        | .ok () => do
            let _ ← perform (.removeDirAll .sourceStaging stage.id)
        | .error _ => pure ()
        match stage.lease with
        | some ino => do
            let _ ← releaseAndRemoveLockFile stage.lockFile ino
            return ()
        | none => return ()) fun _ => .droppedSource stage.id

/-! ## Recovery -/

/-- The end of a turn of `recover_staging_root`: whether the entry was removed. -/
def removeAbandoned (area : Area) (name : Bytes) (ino : Nat) : Act (Except StoreError Bool) := do
  match ← perform (.tryLockLease (leaseFile name) ino) with
  | .error source =>
      return .error (.io "try staging lease" (leasePath (leaseFile name)) source)
  | .ok false => return .ok false
  | .ok true =>
      match ← perform (.removeDirAll area name) with
      | .error source => do
          perform (.closeLease (leaseFile name) ino)
          return .error (.io "remove abandoned staging directory"
            (Place.path ⟨area, name, []⟩) source)
      | .ok () =>
          match ← releaseAndRemoveLockFile (leaseFile name) ino with
          | .error e => return .error e
          | .ok () => return .ok true

/-- One entry of the loop of `recover_staging_root`: whether it was removed. -/
def recoverEntry (area : Area) (name : Bytes) : Op Bool := do
  let place : Place := ⟨area, name, []⟩
  orIo "read staging entry" area.path (perform (.quiet (.readEntry area.path)))
  let node ← orIo "read staging entry type" place.path (read place)
  if !node.isDir then
    throw (.invalidOutput place.path "staging root contains a non-directory entry")
  else if !Utf8.valid name then
    throw (.invalidOutput place.path "staging transaction name is not valid UTF-8")
  else if !validTransactionId name then
    throw (.invalidOutput place.path "staging transaction has an invalid identifier")
  else do
    verifyRealDirectoryWithin place "staging transaction"
    let ino ← openExistingLockFile (leaseFile name)
    ExceptT.mk (removeAbandoned area name ino)

/-- The loop of `recover_staging_root`. -/
def recoverEntries (area : Area) (recovered : Nat) : List Bytes → Op Nat
  | [] => return recovered
  | name :: rest => do
      let removed ← recoverEntry area name
      recoverEntries area (if removed then recovered + 1 else recovered) rest

/-- `recover_staging_root`. -/
def recoverStagingRoot (area : Area) : Op Nat := do
  let names ← orIo "read staging directory" area.path (perform (.readNames area))
  recoverEntries area 0 names

/-- `Path::extension` of a file name. -/
def fileExtension (name : Bytes) : Option Bytes :=
  match (name.splitOn 46).reverse with
  | last :: first :: rest => if rest = [] ∧ first = [] then none else some last
  | _ => none

/-- `Path::file_stem` of a file name. -/
def fileStem (name : Bytes) : Bytes :=
  match fileExtension name with
  | some ext => name.take (name.length - ext.length - 1)
  | none => name

/-- The end of a turn of `remove_orphaned_unlocked_leases`. -/
def removeUnlocked (file : Bytes) (ino : Nat) : Act (Except StoreError Unit) := do
  match ← perform (.tryLockLease file ino) with
  | .error source => return .error (.io "try orphan staging lease" (leasePath file) source)
  | .ok false => return .ok ()
  | .ok true => releaseAndRemoveLockFile file ino

/-- One entry of the loop of `remove_orphaned_unlocked_leases`. -/
def removeOrphan (file : Bytes) : Op Unit := do
  orIo "read staging lease entry" (leasePath file) (perform (.quiet (.readEntry (leasePath file))))
  if fileExtension file ≠ some (ascii "lock") then return ()
  else if !Utf8.valid (fileStem file) then
    throw (.invalidPath s!"staging lease name is not valid UTF-8: {displayPath (leasePath file)}")
  else if !validTransactionId (fileStem file) then
    throw (.invalidPath
      s!"staging lease has an invalid transaction identifier: {displayPath (leasePath file)}")
  else if ← nodeExists ⟨.staging, fileStem file, []⟩ then return ()
  else if ← nodeExists ⟨.sourceStaging, fileStem file, []⟩ then return ()
  else do
    let ino ← openExistingLockFile file
    ExceptT.mk (removeUnlocked file ino)

/-- The loop of `remove_orphaned_unlocked_leases`. -/
def removeOrphans : List Bytes → Op Unit
  | [] => return ()
  | file :: rest => do
      removeOrphan file
      removeOrphans rest

/-- `remove_orphaned_unlocked_leases`. -/
def removeOrphanedUnlockedLeases : Op Unit := do
  let files ← orIo "read staging lease directory" [ascii ".locks"] (perform .readLeases)
  removeOrphans files

/-- `Store::recover_abandoned`. -/
def recoverAbandoned : Op Nat :=
  locked (do
    let results ← recoverStagingRoot .staging
    let sources ← recoverStagingRoot .sourceStaging
    removeOrphanedUnlockedLeases
    return results + sources) .recovered

/-! ## Clients -/

/-- What an agent uses the store for. -/
inductive Client where
  | transaction
  | sourceStage
  | recovery
  | reader (id : StoreResultId)
  deriving DecidableEq

/-- The whole life of an agent. -/
def Client.program (codec : MetadataCodec) : Client → Act Unit
  | .transaction => do
      match ← begin.run with
      | .error _ => return ()
      | .ok tx =>
          match ← perform (.build tx.id) with
          | .drop => dropTransaction tx
          | .commit id => do
              let _ ← commit codec tx id
              return ()
  | .sourceStage => do
      match ← beginUnverifiedSource.run with
      | .error _ => return ()
      | .ok stage => do
          perform (.hold stage.id)
          dropStage stage
  | .recovery => do
      let _ ← recoverAbandoned.run
      return ()
  | .reader id => do
      let _ ← (get codec id).run
      return ()

end Prep.Store
