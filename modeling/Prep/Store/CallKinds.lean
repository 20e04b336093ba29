/-
  Store/CallKinds.lean --- which calls the operations of a store make.

  Most of an operation are calls that have to do neither with the store lock and the making
  of leases nor with what a builder asks for.  They are tame, and that a program makes only
  tame calls is read off it, whatever it is answered.  What is made of the calls that are not
  tame is left to the modules that are about them.
-/
import Prep.Store.Recovered

set_option autoImplicit false

namespace Prep.Store

open Prep.Machine
open Prep.Text
open Prep.Fs (Node Path)
open Prep.Io (IoError)

/-! ## Kinds of calls -/

/-- A call that neither takes nor lets go of the store lock, draws an identifier, or makes or
locks a lease. -/
def Call.Plain : Call → Prop
  | .lockStore | .unlockStore _ | .transactionId | .createLease _ | .lockLease _ _ => False
  | _ => True

/-- A call that looks at what is there. -/
def Call.Looks : Call → Prop
  | .quiet _ | .statLease _ => True
  | _ => False

/-- A call that no builder has to have asked for. -/
def Call.Unasked : Call → Prop
  | .rename _ _ | .build _ | .unlockStore (.committed _ _ _) => False
  | _ => True

/-- A plain call that no builder has to have asked for. -/
def Call.Tame (c : Call) : Prop := c.Plain ∧ c.Unasked

theorem plain_of_tame {α : Type} {act : Act α} (h : act.Only Call.Tame) : act.Only Call.Plain :=
  h.mono fun _ => And.left

theorem unasked_of_tame {α : Type} {act : Act α} (h : act.Only Call.Tame) :
    act.Only Call.Unasked := h.mono fun _ => And.right

theorem unasked_of_looks {α : Type} {act : Act α} (h : act.Only Call.Looks) :
    act.Only Call.Unasked := h.mono fun c hc => by
  cases c with
  | quiet | statLease => trivial
  | _ => cases hc

/-! ## Operations that only look -/

theorem looks_verifyDirectories (paths : List Path) :
    Program.Only Call.Looks (verifyDirectories paths).run := by
  induction paths with
  | nil => exact Program.only_ret _
  | cons path rest ih =>
      exact Program.Only.bindE (only_orIo _ _ (Program.only_perform trivial)) fun _ =>
        Program.Only.bindE (only_orIo _ _ (Program.only_perform trivial)) fun _ => ih

theorem looks_verifyLayout : Program.Only Call.Looks verifyLayout.run :=
  Program.Only.bindE (only_orIo _ _ (Program.only_perform trivial)) fun _ =>
    looks_verifyDirectories _

theorem looks_openLockFile : Program.Only Call.Looks openLockFile.run :=
  Program.Only.bindE (only_orIo _ _ (Program.only_perform trivial)) fun _ =>
    Program.Only.bindE (only_orIo _ _ (Program.only_perform trivial)) fun _ =>
      Program.Only.bindE (only_orIo _ _ (Program.only_perform trivial)) fun _ =>
        only_orIo _ _ (Program.only_perform trivial)

theorem looks_verifyOpenFileIdentity (file : Bytes) (ino : Nat) :
    Program.Only Call.Looks (verifyOpenFileIdentity file ino).run := by
  refine Program.Only.bindE (only_orIo _ _ (Program.only_perform trivial)) fun found => ?_
  refine Program.Only.bindE (only_orIo _ _ (Program.only_perform trivial)) fun _ => ?_
  split <;> exact Program.only_ret _

/-! ## Operations that are tame -/

theorem tame_of_recovers {c : Call} (h : c.Recovers) : c.Tame := by
  cases c with
  | lockStore | unlockStore | transactionId | createLease | lockLease | rename | build => cases h
  | _ => exact ⟨trivial, trivial⟩

theorem tame_of_only {α : Type} {act : Act α} (h : act.Only Call.Recovers) :
    act.Only Call.Tame := h.mono fun _ => tame_of_recovers

theorem tame_orCorrupt {α : Type} (path : Path) (message : IoError → String)
    {act : Act (Except IoError α)} (h : act.Only Call.Tame) :
    Program.Only Call.Tame (orCorrupt path message act).run := by
  refine Program.Only.bind h fun result => ?_
  cases result <;> exact Program.only_ret _

theorem tame_validateResultDirectory (place : Place) (label : String) :
    Program.Only Call.Tame (validateResultDirectory place label).run := by
  refine Program.Only.bindE (tame_orCorrupt _ _ (Program.only_perform ⟨trivial, trivial⟩))
    fun node => ?_
  split
  · exact tame_orCorrupt _ _ (Program.only_perform ⟨trivial, trivial⟩)
  · exact Program.only_ret _

theorem tame_validateOutputTreeAt (place : Place) :
    Program.Only Call.Tame (validateOutputTreeAt place).run :=
  Program.Only.bindE (only_orIo _ _ (Program.only_perform ⟨trivial, trivial⟩))
    fun _ => Program.only_ret _

theorem tame_validateExistingResult (codec : MetadataCodec) (id : StoreResultId) :
    Program.Only Call.Tame (validateExistingResult codec id).run := by
  refine Program.Only.bindE (tame_validateResultDirectory _ _) fun _ => ?_
  refine Program.Only.bindE (only_orIo _ _ (Program.only_perform ⟨trivial, trivial⟩))
    fun metadataNode => ?_
  cases metadataNode with
  | file =>
      refine Program.Only.bindE (only_orIo _ _ (Program.only_perform ⟨trivial, trivial⟩))
        fun node => ?_
      refine Program.Only.bindE (Program.only_ret _) fun encoded => ?_
      refine Program.Only.bindE (Program.only_ret _) fun _ => ?_
      exact Program.Only.bindE (tame_validateResultDirectory _ _) fun _ =>
        tame_validateOutputTreeAt _
  | symlink | special | dir => exact Program.only_ret _

theorem tame_nodeExists (place : Place) : Program.Only Call.Tame (nodeExists place).run :=
  tame_of_only (recovers_nodeExists place)

theorem tame_verifyRealDirectoryWithin (place : Place) (label : String) :
    Program.Only Call.Tame (verifyRealDirectoryWithin place label).run :=
  tame_of_only (recovers_verifyRealDirectoryWithin place label)

theorem tame_releaseAndRemoveLockFile (file : Bytes) (ino : Nat) :
    (releaseAndRemoveLockFile file ino).Only Call.Tame :=
  tame_of_only (recovers_releaseAndRemoveLockFile file ino)

theorem tame_writeResultMetadata (codec : MetadataCodec) (name : Bytes) (id : StoreResultId) :
    Program.Only Call.Tame (writeResultMetadata codec name id).run := by
  unfold writeResultMetadata
  cases codec.toToml (completeMetadata id) with
  | error e => exact Program.only_ret _
  | ok encoded =>
      refine Program.Only.bindE (only_orIo _ _ (Program.only_perform ⟨trivial, trivial⟩))
        fun _ => ?_
      exact Program.Only.bindE (only_orIo _ _ (Program.only_perform ⟨trivial, trivial⟩)) fun _ =>
        only_orIo _ _ (Program.only_perform ⟨trivial, trivial⟩)

theorem tame_syncOutputTree (place : Place) :
    Program.Only Call.Tame (syncOutputTree place).run := by
  refine Program.Only.bindE (only_orIo _ _ (Program.only_perform ⟨trivial, trivial⟩)) fun node => ?_
  split
  · exact Program.only_ret _
  · exact only_orIo _ _ (Program.only_perform ⟨trivial, trivial⟩)

theorem tame_prepare (codec : MetadataCodec) (tx : StoreTransaction) (id : StoreResultId) :
    Program.Only Call.Tame (prepare codec tx id).run := by
  refine Program.Only.bindE (tame_verifyRealDirectoryWithin _ _) fun _ => ?_
  refine Program.Only.bindE (tame_verifyRealDirectoryWithin _ _) fun _ => ?_
  refine Program.Only.bindE (Program.Only.bindE
    (only_orIo _ _ (Program.only_perform ⟨trivial, trivial⟩))
    fun _ => only_orIo _ _ (Program.only_perform ⟨trivial, trivial⟩)) fun _ => ?_
  refine Program.Only.bindE (tame_validateOutputTreeAt _) fun _ => ?_
  refine Program.Only.bindE (tame_syncOutputTree _) fun _ => ?_
  refine Program.Only.bindE (tame_writeResultMetadata _ _ _) fun _ => ?_
  exact only_orIo _ _ (Program.only_perform ⟨trivial, trivial⟩)

theorem tame_finishLease (tx : StoreTransaction) : (finishLease tx).Only Call.Tame := by
  unfold finishLease
  cases tx.lease with
  | none => exact Program.only_ret _
  | some ino =>
      exact Program.Only.bind (tame_releaseAndRemoveLockFile _ _) fun _ => Program.only_ret _

theorem tame_discardRedundant (codec : MetadataCodec) (tx : StoreTransaction)
    (id : StoreResultId) (operation : String) :
    (discardRedundant codec tx id operation).Only Call.Tame := by
  refine Program.Only.bind (tame_validateExistingResult codec id) fun result => ?_
  cases result with
  | error e => exact Program.only_ret _
  | ok _ =>
      refine Program.Only.bind (Program.only_perform ⟨trivial, trivial⟩) fun removed => ?_
      cases removed with
      | error source => exact Program.only_ret _
      | ok _ =>
          refine Program.Only.bind (tame_finishLease tx) fun finished => ?_
          obtain ⟨result, tx⟩ := finished
          cases result <;> exact Program.only_ret _

theorem tame_failAfterPublish (tx : StoreTransaction) (id : StoreResultId) (failure : StoreError)
    (cleanupLease : Bool) : (failAfterPublish tx id failure cleanupLease).Only Call.Tame := by
  have hrollback : Program.Only Call.Tame (rollbackPublishedResult id).run :=
    Program.Only.bindE (tame_validateResultDirectory _ _) fun _ =>
      Program.Only.bindE (only_orIo _ _ (Program.only_perform ⟨trivial, trivial⟩)) fun _ =>
        only_orIo _ _ (Program.only_perform ⟨trivial, trivial⟩)
  refine Program.Only.bind hrollback fun result => ?_
  cases result with
  | error rollback => exact Program.only_ret _
  | ok _ =>
      cases cleanupLease with
      | false => exact Program.only_ret _
      | true =>
          refine Program.Only.bind (tame_finishLease tx) fun finished => ?_
          obtain ⟨result, tx⟩ := finished
          cases result <;> exact Program.only_ret _

theorem tame_confirm (codec : MetadataCodec) (tx : StoreTransaction) (id : StoreResultId) :
    (confirm codec tx id).Only Call.Tame := by
  refine Program.Only.bind (tame_validateExistingResult codec id) fun result => ?_
  cases result with
  | error failure => exact tame_failAfterPublish tx id failure true
  | ok _ =>
      refine Program.Only.bind (tame_finishLease tx) fun finished => ?_
      obtain ⟨result, tx⟩ := finished
      cases result with
      | error failure => exact tame_failAfterPublish tx id failure false
      | ok _ =>
          refine Program.Only.bind (only_orIo _ _ (Program.only_perform ⟨trivial, trivial⟩))
            fun synced => ?_
          cases synced with
          | error failure => exact tame_failAfterPublish tx id failure false
          | ok _ => exact Program.only_ret _

theorem tame_createStaging (tx : StoreTransaction) (ino : Nat) :
    (createStaging tx ino).Only Call.Tame := by
  refine Program.Only.bind (Program.only_perform ⟨trivial, trivial⟩) fun created => ?_
  cases created with
  | error source =>
      refine Program.Only.bind (tame_releaseAndRemoveLockFile _ _) fun _ => ?_
      split <;> exact Program.only_ret _
  | ok _ =>
      refine Program.Only.bind (Program.only_perform ⟨trivial, trivial⟩) fun created => ?_
      cases created with
      | error source =>
          exact Program.Only.bind (Program.only_perform ⟨trivial, trivial⟩) fun _ =>
            Program.Only.bind (tame_releaseAndRemoveLockFile _ _) fun _ => Program.only_ret _
      | ok _ => exact Program.only_ret _

theorem tame_createSourceStaging (stage : UnverifiedSourceStage) (ino : Nat) :
    (createSourceStaging stage ino).Only Call.Tame := by
  refine Program.Only.bind (Program.only_perform ⟨trivial, trivial⟩) fun created => ?_
  cases created with
  | ok _ => exact Program.only_ret _
  | error source =>
      refine Program.Only.bind (tame_releaseAndRemoveLockFile _ _) fun released => ?_
      cases released with
      | error e => exact Program.only_ret _
      | ok _ =>
          dsimp only
          split <;> exact Program.only_ret _

theorem tame_recoverAll : Program.Only Call.Tame (do
    let results ← recoverStagingRoot .staging
    let sources ← recoverStagingRoot .sourceStaging
    removeOrphanedUnlockedLeases
    return results + sources : Op Nat).run :=
  Program.Only.bindE (tame_of_only (recovers_recoverStagingRoot _)) fun _ =>
    Program.Only.bindE (tame_of_only (recovers_recoverStagingRoot _)) fun _ =>
      Program.Only.bindE (Program.Only.bindE
        (only_orIo _ _ (Program.only_perform ⟨trivial, trivial⟩))
        fun files => tame_of_only (recovers_removeOrphans files)) fun _ => Program.only_ret _

theorem tame_lookUp (codec : MetadataCodec) (id : StoreResultId) : Program.Only Call.Tame (do
    let place := resultPlace id
    if ← nodeExists place then do
      validateExistingResult codec id
      return some ⟨id, place.path, place.path ++ [prefixName]⟩
    else return none : Op (Option PublishedResult)).run := by
  refine Program.Only.bindE (tame_nodeExists _) fun found => ?_
  split
  · exact Program.Only.bindE (tame_validateExistingResult codec id) fun _ => Program.only_ret _
  · exact Program.only_ret _

/-! ## Drops -/

/-- A drop only closes what it has, or takes the store lock and removes what is staged. -/
inductive Drops (outcome : Unit → Outcome) : Act Unit → Prop
  | closes {act : Act Unit} (h : act.Only Call.Tame) : Drops outcome act
  | removes {inside close : Act Unit} {next : Except StoreError Unit → Act Unit}
      (herror : ∀ e, next (.error e) = close) (hok : next (.ok ()) = unlocking inside outcome)
      (hinside : inside.Only Call.Tame) (hclose : close.Only Call.Tame) :
      Drops outcome (lockStore.run >>= next)

theorem drops_dropTransaction (tx : StoreTransaction) :
    Drops (fun _ => .dropped tx.id) (dropTransaction tx) := by
  obtain ⟨id, lease, finished⟩ := tx
  have hclose : ∀ ino, (perform (.closeLease (leaseFile id) ino)).Only Call.Tame :=
    fun _ => Program.only_perform ⟨trivial, trivial⟩
  have hremove : (perform (.removeDirAll .staging id)).Only Call.Tame :=
    Program.only_perform ⟨trivial, trivial⟩
  cases finished with
  | true =>
      cases lease with
      | none => exact .closes (Program.only_ret _)
      | some ino => exact .closes (hclose ino)
  | false =>
      cases lease with
      | none =>
          exact .removes (fun _ => rfl) rfl (Program.Only.bind hremove fun _ => Program.only_ret _)
            (Program.only_ret _)
      | some ino =>
          exact .removes (fun _ => rfl) rfl (Program.Only.bind hremove fun _ =>
            Program.Only.bind (tame_releaseAndRemoveLockFile _ _) fun _ => Program.only_ret _)
            (hclose ino)

theorem drops_dropStage (stage : UnverifiedSourceStage) :
    Drops (fun _ => .droppedSource stage.id) (dropStage stage) := by
  obtain ⟨id, lease, finished⟩ := stage
  have hclose : ∀ ino, (perform (.closeLease (leaseFile id) ino)).Only Call.Tame :=
    fun _ => Program.only_perform ⟨trivial, trivial⟩
  have hremove : ((perform (.removeDirAll .sourceStaging id)) >>= fun _ =>
      .ret () : Act Unit).Only Call.Tame :=
    Program.Only.bind (Program.only_perform ⟨trivial, trivial⟩) fun _ => Program.only_ret _
  have hrelease : ∀ ino, ((releaseAndRemoveLockFile (leaseFile id) ino) >>= fun _ =>
      .ret () : Act Unit).Only Call.Tame := fun ino =>
    Program.Only.bind (tame_releaseAndRemoveLockFile _ _) fun _ => Program.only_ret _
  cases finished with
  | true =>
      cases lease with
      | none => exact .closes (Program.only_ret _)
      | some ino => exact .closes (hclose ino)
  | false =>
      cases lease with
      | none =>
          refine .removes (fun _ => rfl) rfl ?_ (Program.only_ret _)
          refine Program.Only.bind (tame_verifyRealDirectoryWithin _ _) fun found => ?_
          cases found with
          | ok _ => exact Program.Only.bind hremove fun _ => Program.only_ret _
          | error e => exact Program.only_ret _
      | some ino =>
          refine .removes (fun _ => rfl) rfl ?_ (hclose ino)
          refine Program.Only.bind (tame_verifyRealDirectoryWithin _ _) fun found => ?_
          cases found with
          | ok _ => exact Program.Only.bind hremove fun _ => hrelease ino
          | error e => exact hrelease ino

end Prep.Store
