/-
  Store/Calls.lean --- the calls the store makes of the operating system, and how they
  are answered.

  Reading a tree is one call: while the store lock is held nobody changes what is
  read.  Removing a tree is many steps, one node at a time.  A call fails with an
  error the store foresees when the directories say so, and with any other error when
  a fault is chosen.  The history at the end of a world is written and never read.
-/
import Prep.Machine.Guard
import Prep.Store.World

set_option autoImplicit false

namespace Prep.Store

open Prep.Machine
open Prep.Text
open Prep.Fs (Node Path)
open Prep.Io (IoError)

/-! ## Outcomes -/

/-- `PublishedResult`. -/
structure PublishedResult where
  id : StoreResultId
  path : Path
  prefixPath : Path

/-- `PublishOutcome`. -/
inductive PublishOutcome where
  | published (result : PublishedResult)
  | existing (result : PublishedResult)

/-- What an operation under the store lock has come to. -/
inductive Outcome where
  | begun (result : Except StoreError Bytes)
  | begunSource (result : Except StoreError Bytes)
  | committed (name : Bytes) (id : StoreResultId) (result : Except StoreError PublishOutcome)
  | dropped (name : Bytes)
  | droppedSource (name : Bytes)
  | recovered (result : Except StoreError Nat)
  | got (id : StoreResultId) (result : Except StoreError (Option PublishedResult))

/-- One stay under the store lock: who, what it came to, and what was shared when the
lock was taken and when it was let go. -/
structure Visit where
  agent : Agent
  outcome : Outcome
  before : Shared
  after : Shared

/-- What is shared, the store lock, and the history.  `faulted` are the agents one of
whose calls has failed with a fault, `drawn` the identifiers handed out, `published`
the trees renamed into the results, `remains` what removals that failed have left of
results. -/
structure World extends Shared where
  storeLock : Option Agent
  nextIno : Nat
  drawn : List (Agent × Bytes)
  faulted : Agent → Bool
  entered : Shared
  visits : List Visit
  published : List (Bytes × Node)
  remains : List (Bytes × Node)

/-! ## Calls -/

/-- What a builder asks for when it is done. -/
inductive Command where
  | commit (id : StoreResultId)
  | drop

/-- Calls that change nothing, on nodes that nobody changes or for their sake alone. -/
inductive Quiet where
  | stat (path : Path)
  | canonicalize (path : Path)
  | open (path : Path)
  | statHandle (path : Path)
  | readEntry (path : Path)
  | sync (path : Path)

/-- The calls.  `build` and `hold` are the time a transaction and a source stage are
in the hands of their caller. -/
inductive Call where
  | quiet (call : Quiet)
  | lockStore
  | unlockStore (outcome : Outcome)
  | transactionId
  | createLease (file : Bytes)
  | statLease (file : Bytes)
  | openLease (file : Bytes)
  | lockLease (file : Bytes) (ino : Nat)
  | tryLockLease (file : Bytes) (ino : Nat)
  | removeLease (file : Bytes)
  | unlockLease (file : Bytes) (ino : Nat)
  | closeLease (file : Bytes) (ino : Nat)
  | readLeases
  | readNames (area : Area)
  | createDir (place : Place)
  | removeDirAll (area : Area) (name : Bytes)
  | read (place : Place)
  | canonicalize (place : Place)
  | createNew (place : Place)
  | write (place : Place) (bytes : Bytes)
  | rename (name hex : Bytes)
  | build (name : Bytes)
  | hold (name : Bytes)

/-- What a call returns. -/
abbrev Answer : Call → Type
  | .unlockStore _ => Unit
  | .transactionId => Bytes
  | .createLease _ => Except IoError Nat
  | .statLease _ => Except IoError Nat
  | .openLease _ => Except IoError Nat
  | .tryLockLease _ _ => Except IoError Bool
  | .closeLease _ _ => Unit
  | .readLeases => Except IoError (List Bytes)
  | .readNames _ => Except IoError (List Bytes)
  | .read _ => Except IoError Node
  | .build _ => Command
  | .hold _ => Unit
  | _ => Except IoError Unit

/-- What is decided outside the program: that a call goes through, that it fails after
so many bytes, the stamp drawn, the next node to remove, what a builder writes below
its directory, and what it asks for. -/
inductive Choice where
  | proceed
  | fault (code done : Nat)
  | stamp (stamp : Stamp)
  | delete (below : Path)
  | fill (entries : List (Bytes × Node))
  | command (command : Command)

/-- A call is made to fail. -/
def Choice.isFault : Choice → Bool
  | .fault _ _ => true
  | _ => false

/-! ## Changes of a world -/

namespace World

def setNode (w : World) (area : Area) (name : Bytes) (node : Node) : World :=
  { w with area := Function.update w.area area ((w.area area).insert name node) }

def eraseNode (w : World) (area : Area) (name : Bytes) : World :=
  { w with area := Function.update w.area area ((w.area area).erase name) }

def setLease (w : World) (file : Bytes) (lease : LeaseFile) : World :=
  { w with leases := w.leases.insert file lease }

def eraseLease (w : World) (file : Bytes) : World := { w with leases := w.leases.erase file }

/-- The world after a fault of an agent's call. -/
def fault (w : World) (a : Agent) : World :=
  { w with faulted := Function.update w.faulted a true }

/-- What is left of a result is remembered. -/
def cutShort (w : World) (area : Area) (name : Bytes) : World :=
  match area, w.node area name with
  | .results, some node => { w with remains := (name, node) :: w.remains }
  | _, _ => w

variable (w : World) (area other : Area) (name name' file file' : Bytes) (node : Node)
  (lease : LeaseFile)

theorem node_setNode : (w.setNode area name node).node other name' =
    if other = area ∧ name' = name then some node else w.node other name' := by
  unfold setNode Shared.node
  dsimp only
  rcases eq_or_ne other area with rfl | hother
  · rw [Function.update_self]
    rcases eq_or_ne name' name with rfl | hname
    · rw [AList.lookup_insert, if_pos ⟨rfl, rfl⟩]
    · rw [AList.lookup_insert_ne hname, if_neg fun h => hname h.2]
  · rw [Function.update_of_ne hother, if_neg fun h => hother h.1]

theorem node_eraseNode : (w.eraseNode area name).node other name' =
    if other = area ∧ name' = name then none else w.node other name' := by
  unfold eraseNode Shared.node
  dsimp only
  rcases eq_or_ne other area with rfl | hother
  · rw [Function.update_self]
    rcases eq_or_ne name' name with rfl | hname
    · rw [AList.lookup_erase, if_pos ⟨rfl, rfl⟩]
    · rw [AList.lookup_erase_ne hname, if_neg fun h => hname h.2]
  · rw [Function.update_of_ne hother, if_neg fun h => hother h.1]

theorem lease_setLease : (w.setLease file lease).lease file' =
    if file' = file then some lease else w.lease file' := by
  unfold setLease Shared.lease
  dsimp only
  rcases eq_or_ne file' file with rfl | hfile
  · rw [AList.lookup_insert, if_pos rfl]
  · rw [AList.lookup_insert_ne hfile, if_neg hfile]

theorem lease_eraseLease : (w.eraseLease file).lease file' =
    if file' = file then none else w.lease file' := by
  unfold eraseLease Shared.lease
  dsimp only
  rcases eq_or_ne file' file with rfl | hfile
  · rw [AList.lookup_erase, if_pos rfl]
  · rw [AList.lookup_erase_ne hfile, if_neg hfile]

end World

/-- The node at a place of the directory that holds it. -/
theorem Shared.at?_top (s : Shared) (area : Area) (name : Bytes) :
    s.at? ⟨area, name, []⟩ = s.node area name := by
  unfold Shared.at?
  cases s.node area name with
  | none => rfl
  | some node => exact Node.get?_nil node

/-- A store is used by agents of processes. -/
structure Config where
  process : Agent → Process

/-- Nobody alive has the lock. -/
def Config.free (config : Config) (w : World) (holder : Option Agent) : Bool :=
  match holder with
  | none => true
  | some a => w.dead (config.process a)

/-- The lock of a lease file is let go. -/
def World.release (w : World) (a : Agent) (file : Bytes) (ino : Nat) : World :=
  if w.leases.lookup file = some ⟨ino, some a⟩ then w.setLease file ⟨ino, none⟩ else w

/-! ## Answers -/

/-- A call that goes through as `act` says, or fails. -/
def mayFail {α : Type} (a : Agent) (w : World) (choice : Choice)
    (act : Option (Reply (Except IoError α) World)) : Option (Reply (Except IoError α) World) :=
  match choice with
  | .proceed => act
  | .fault code _ => some (.done (.error (.other code)) (w.fault a))
  | _ => none

/-- The node at a place and the change of its parent directory that adds an entry. -/
def createAt (w : World) (place : Place) (next : Node) : Reply (Except IoError Unit) World :=
  match w.at? place with
  | some _ => .done (.error .alreadyExists) w
  | none =>
      if place.below = [] then .done (.ok ()) (w.setNode place.area place.name next)
      else
        match w.node place.area place.name, w.at? ⟨place.area, place.name, place.below.dropLast⟩ with
        | some node, some (.dir _) =>
            .done (.ok ()) (w.setNode place.area place.name
              (node.modifyAt (Node.addEntry (place.below.getLastD []) next) place.below.dropLast))
        | _, _ => .done (.error .notFound) w

/-- Bytes at the end of the file at a place. -/
def appendAt (w : World) (place : Place) (bytes : Bytes) : World :=
  match w.node place.area place.name with
  | some node =>
      w.setNode place.area place.name (node.modifyAt (Node.appendContents bytes) place.below)
  | none => w

/-- One step of `remove_dir_all`: another leaf below the directory, or, when nothing is
left in it, the directory itself. -/
def removeStep (a : Agent) (w : World) (area : Area) (name : Bytes) (choice : Choice) :
    Option (Reply (Except IoError Unit) World) :=
  match choice with
  | .fault code _ => some (.done (.error (.other code)) ((w.cutShort area name).fault a))
  | .proceed =>
      match w.node area name with
      | none => some (.done (.error .notFound) w)
      | some (.dir []) => some (.done (.ok ()) (w.eraseNode area name))
      | some (.dir _) => none
      | some _ => some (.done (.error (.other 20)) w)
  | .delete below =>
      match w.node area name with
      | some node =>
          if below ≠ [] ∧ (node.get? below).any Node.isLeaf then
            some (.more (w.setNode area name (node.removeAt below)))
          else none
      | none => none
  | _ => none

/-- How a call of an agent is answered. -/
def respond (config : Config) (a : Agent) (c : Call) (choice : Choice) (w : World) :
    Option (Reply (Answer c) World) :=
  match c with
  | .quiet _ => mayFail a w choice (some (.done (.ok ()) w))
  | .lockStore => mayFail a w choice <|
      if config.free w w.storeLock then
        some (.done (.ok ()) { w with storeLock := some a, entered := w.toShared })
      else none
  | .unlockStore outcome =>
      match choice with
      | .proceed => some (.done () { w with
          storeLock := none
          visits := w.visits ++ [⟨a, outcome, w.entered, w.toShared⟩] })
      | _ => none
  | .transactionId =>
      match choice with
      | .stamp stamp =>
          -- running processes differ in their number, and one process in its counter
          if w.drawn.any fun x => x.2 == stamp.transactionId && !w.dead (config.process x.1) then
            none
          else some (.done stamp.transactionId
            { w with drawn := (a, stamp.transactionId) :: w.drawn })
      | _ => none
  | .createLease file => mayFail a w choice <|
      match w.leases.lookup file with
      | some _ => some (.done (.error .alreadyExists) w)
      | none => some (.done (.ok w.nextIno)
          { w.setLease file ⟨w.nextIno, none⟩ with nextIno := w.nextIno + 1 })
  | .statLease file => mayFail a w choice <|
      match w.leases.lookup file with
      | some lease => some (.done (.ok lease.ino) w)
      | none => some (.done (.error .notFound) w)
  | .openLease file => mayFail a w choice <|
      match w.leases.lookup file with
      | some lease => some (.done (.ok lease.ino) w)
      | none => some (.done (.error .notFound) w)
  | .lockLease file ino => mayFail a w choice <|
      match w.leases.lookup file with
      | some lease =>
          if lease.ino ≠ ino then some (.done (.ok ()) w)
          else if config.free w lease.holder then
            some (.done (.ok ()) (w.setLease file ⟨ino, some a⟩))
          else none
      | none => some (.done (.ok ()) w)
  | .tryLockLease file ino => mayFail a w choice <|
      match w.leases.lookup file with
      | some lease =>
          if lease.ino ≠ ino then some (.done (.ok true) w)
          else if config.free w lease.holder then
            some (.done (.ok true) (w.setLease file ⟨ino, some a⟩))
          else some (.done (.ok false) w)
      | none => some (.done (.ok true) w)
  | .removeLease file => mayFail a w choice <|
      match w.leases.lookup file with
      | some _ => some (.done (.ok ()) (w.eraseLease file))
      | none => some (.done (.error .notFound) w)
  | .unlockLease file ino => mayFail a w choice (some (.done (.ok ()) (w.release a file ino)))
  | .closeLease file ino =>
      match choice with
      | .proceed => some (.done () (w.release a file ino))
      | _ => none
  | .readLeases => mayFail a w choice (some (.done (.ok w.leases.keys) w))
  | .readNames area => mayFail a w choice (some (.done (.ok (w.area area).keys) w))
  | .createDir place => mayFail a w choice (some (createAt w place (.dir [])))
  | .removeDirAll area name => removeStep a w area name choice
  | .read place => mayFail a w choice <|
      match w.at? place with
      | some node => some (.done (.ok node) w)
      | none => some (.done (.error .notFound) w)
  | .canonicalize place => mayFail a w choice <|
      match w.at? place with
      | some _ => some (.done (.ok ()) w)
      | none => some (.done (.error .notFound) w)
  | .createNew place => mayFail a w choice (some (createAt w place (.file [] 1)))
  | .write place bytes =>
      match choice with
      | .proceed => some (.done (.ok ()) (appendAt w place bytes))
      | .fault code done =>
          some (.done (.error (.other code)) ((appendAt w place (bytes.take done)).fault a))
      | _ => none
  | .rename name hex => mayFail a w choice <|
      match w.node .staging name with
      | none => some (.done (.error .notFound) w)
      | some node =>
          match w.node .results hex with
          | none | some (.dir []) =>
              some (.done (.ok ()) { (w.eraseNode .staging name).setNode .results hex node with
                published := (hex, node) :: w.published })
          | some (.dir _) => some (.done (.error (.other 39)) w)
          | some _ => some (.done (.error (.other 20)) w)
  | .build name =>
      match choice with
      | .fill entries =>
          if (w.node .staging name).isSome then
            some (.more (w.setNode .staging name (.dir entries)))
          else none
      | .command command => some (.done command w)
      | _ => none
  | .hold name =>
      match choice with
      | .fill entries =>
          if (w.node .sourceStaging name).isSome then
            some (.more (w.setNode .sourceStaging name (.dir entries)))
          else none
      | .proceed => some (.done () w)
      | _ => none

/-- A process dies between two calls.  Its locks are free from then on. -/
def die (process : Process) (w : World) : Option World :=
  some { w with dead := Function.update w.dead process true }

/-- The processes of a store. -/
def Config.system (config : Config) : System Agent Call Answer World Choice Process where
  respond := respond config
  happen := die
  alive w a := !w.dead (config.process a)

end Prep.Store
