/-
  Store/Effects.lean --- what an agent may do to a store, and what its calls do.

  Whoever changes staged work holds its lease; leases are made and removed, results are
  published and staged directories come and go under the store lock only.
-/
import Prep.Machine.Hoare
import Prep.Store.Contract

set_option autoImplicit false

namespace Prep.Store

open Prep.Machine
open Prep.Text
open Prep.Fs (Node Path)
open Prep.Io (IoError)

/-- An agent has drawn an identifier. -/
def World.Drew (w : World) (a : Agent) (id : Bytes) : Prop := (a, id) ∈ w.drawn

/-- A result is what it was when the lock was taken, or has been published since, or is
what a removal that failed has left. -/
def World.Accounted (w : World) : Prop :=
  ∀ hex node, w.node .results hex = some node → w.entered.node .results hex = some node ∨
    (hex, node) ∈ w.published ∨ (hex, node) ∈ w.remains

/-- Nothing is staged under an identifier any more, or a call of the agent has failed. -/
def World.Cleared (w : World) (a : Agent) (id : Bytes) : Prop :=
  w.faulted a = true ∨ (w.entered.Paired → ∀ area, ¬ w.StagedIn area id)

/-! ## What agents may do -/

/-- The worlds in which an agent may make a call. -/
def Guard (codec : MetadataCodec) (config : Config) (clients : Agent → Client) (a : Agent)
    (c : Call) (w : World) : Prop :=
  match c with
  | .unlockStore outcome => w.storeLock = some a ∧ w.Accounted ∧
      Visit.Kept codec config w.faulted ⟨a, outcome, w.entered, w.toShared⟩
  | .createLease file => w.storeLock = some a ∧ ∃ id, file = leaseFile id ∧ w.Drew a id
  | .lockLease _ _ | .tryLockLease _ _ => w.storeLock = some a
  | .removeLease file => w.storeLock = some a ∧
      (∀ lease, w.lease file = some lease → lease.holder = some a) ∧
      ∀ id, file = leaseFile id → w.Cleared a id
  | .unlockLease _ _ | .closeLease _ _ => w.storeLock = some a ∨ w.faulted a = true
  | .createDir ⟨area, id, _⟩ => w.storeLock = some a ∧ area.isStaging = true ∧
      w.HeldBy a id ∧ w.Drew a id ∧ (w.entered.Paired → ∀ other, w.StagedIn other id → other = area)
  | .createNew ⟨area, id, below⟩ | .write ⟨area, id, below⟩ _ =>
      area.isStaging = true ∧ w.HeldBy a id ∧ below ≠ []
  | .removeDirAll area id => w.storeLock = some a ∧
      (area.isStaging = true ∧ (w.HeldBy a id ∨ w.node area id = none) ∨
        area = .results ∧ clients a = .transaction ∧ w.faulted a = true ∧
          w.entered.node .results id = none)
  | .rename name hex => w.storeLock = some a ∧ clients a = .transaction ∧ w.HeldBy a name ∧
      w.node .results hex = none ∧ ∃ id entries encoded, hex = id.hex ∧ Committable entries ∧
        codec.toToml (completeMetadata id) = .ok encoded ∧
        w.entered.node .staging name = some (.dir entries) ∧
        w.node .staging name = some (withMetadata entries encoded) ∧
        w.entered.SameIn .results w.toShared ∧ w.entered.HeldBy a name
  | .build id | .hold id => w.HeldBy a id
  | _ => True

/-! ## What they do -/

/-- What a call of an agent that may make it does to the world. -/
inductive Effect (codec : MetadataCodec) (config : Config) (clients : Agent → Client) (a : Agent)
    (w : World) : World → Prop
  | same : Effect codec config clients a w w
  | fault : Effect codec config clients a w (w.fault a)
  | cutShort (hex : Bytes) (node : Node) (hlock : w.storeLock = some a)
      (hnode : w.node .results hex = some node) :
      Effect codec config clients a w
        (World.fault { w with remains := (hex, node) :: w.remains } a)
  | lock (hfree : config.free w w.storeLock = true) :
      Effect codec config clients a w { w with storeLock := some a, entered := w.toShared }
  | unlock (outcome : Outcome) (hlock : w.storeLock = some a) (haccounted : w.Accounted)
      (hkept : Visit.Kept codec config w.faulted ⟨a, outcome, w.entered, w.toShared⟩) :
      Effect codec config clients a w
        { w with
          storeLock := none
          visits := w.visits ++ [⟨a, outcome, w.entered, w.toShared⟩] }
  | draw (stamp : Stamp)
      (hnew : ∀ b id, w.Drew b id → id = stamp.transactionId →
        w.dead (config.process b) = true) :
      Effect codec config clients a w { w with drawn := (a, stamp.transactionId) :: w.drawn }
  | createLease (id : Bytes) (hlock : w.storeLock = some a) (hdrew : w.Drew a id)
      (hfree : w.lease (leaseFile id) = none) :
      Effect codec config clients a w
        { w.setLease (leaseFile id) ⟨w.nextIno, none⟩ with nextIno := w.nextIno + 1 }
  | lockLease (file : Bytes) (ino : Nat) (holder : Option Agent) (hlock : w.storeLock = some a)
      (hlease : w.lease file = some ⟨ino, holder⟩) (hfree : config.free w holder = true) :
      Effect codec config clients a w (w.setLease file ⟨ino, some a⟩)
  | release (file : Bytes) (ino : Nat) (hallowed : w.storeLock = some a ∨ w.faulted a = true)
      (hlease : w.lease file = some ⟨ino, some a⟩) :
      Effect codec config clients a w (w.setLease file ⟨ino, none⟩)
  | removeLease (file : Bytes) (ino : Nat) (hlock : w.storeLock = some a)
      (hlease : w.lease file = some ⟨ino, some a⟩)
      (hcleared : ∀ id, file = leaseFile id → w.Cleared a id) :
      Effect codec config clients a w (w.eraseLease file)
  | stage (area : Area) (id : Bytes) (hlock : w.storeLock = some a)
      (harea : area.isStaging = true) (hheld : w.HeldBy a id) (hdrew : w.Drew a id)
      (honce : w.entered.Paired → ∀ other, w.StagedIn other id → other = area)
      (hfree : w.node area id = none) :
      Effect codec config clients a w (w.setNode area id (.dir []))
  | work (area : Area) (id : Bytes) (node node' : Node) (failed : Bool)
      (harea : area.isStaging = true) (hheld : w.HeldBy a id) (hnode : w.node area id = some node)
      (hdir : node'.isDir = node.isDir ∨ node'.isDir = true) :
      Effect codec config clients a w
        (if failed then (w.setNode area id node').fault a else w.setNode area id node')
  | unstage (area : Area) (id : Bytes) (hlock : w.storeLock = some a)
      (harea : area.isStaging = true) (hheld : w.HeldBy a id) :
      Effect codec config clients a w (w.eraseNode area id)
  | publish (name : Bytes) (id : StoreResultId) (entries : List (Bytes × Node)) (encoded : Bytes)
      (hlock : w.storeLock = some a) (hclient : clients a = .transaction)
      (hheld : w.HeldBy a name) (hfree : w.node .results id.hex = none)
      (hcommittable : Committable entries)
      (hencoded : codec.toToml (completeMetadata id) = .ok encoded)
      (hentered : w.entered.node .staging name = some (.dir entries))
      (hnode : w.node .staging name = some (withMetadata entries encoded))
      (hsame : w.entered.SameIn .results w.toShared) (hclaimed : w.entered.HeldBy a name) :
      Effect codec config clients a w
        { (w.eraseNode .staging name).setNode .results id.hex (withMetadata entries encoded) with
          published := (id.hex, withMetadata entries encoded) :: w.published }
  | rollBack (hex : Bytes) (node : Option Node) (hlock : w.storeLock = some a)
      (hclient : clients a = .transaction) (hfault : w.faulted a = true)
      (hentered : w.entered.node .results hex = none)
      (hnode : (w.node .results hex).isSome = true) :
      Effect codec config clients a w
        (match node with
          | some node => w.setNode .results hex node
          | none => w.eraseNode .results hex)

/-! ## Every call has its effect -/

section Respond

variable {codec : MetadataCodec} {config : Config} {clients : Agent → Client} {a : Agent}
  {w : World}

theorem isDir_modifyAt {f : Node → Node} (hf : ∀ node, (f node).isDir = node.isDir) (path : Path)
    (node : Node) : (node.modifyAt f path).isDir = node.isDir := by
  cases path with
  | nil => exact hf node
  | cons name rest => cases node <;> rfl

theorem isDir_addEntry (name : Bytes) (next node : Node) :
    (Node.addEntry name next node).isDir = node.isDir := by
  cases node <;> rfl

theorem isDir_appendContents (bytes : Bytes) (node : Node) :
    (node.appendContents bytes).isDir = node.isDir := by
  cases node <;> rfl

theorem isDir_dropEntry (name : Bytes) (node : Node) :
    (node.dropEntry name).isDir = node.isDir := by
  cases node <;> rfl

/-- A call that may fail fails, or goes through. -/
theorem mayFail_eq_some {α : Type} {choice : Choice}
    {act : Option (Reply (Except IoError α) World)} {reply : Reply (Except IoError α) World}
    (h : mayFail a w choice act = some reply) :
    (∃ code, reply = .done (.error (.other code)) (w.fault a)) ∨ act = some reply := by
  cases choice with
  | proceed => exact .inr h
  | fault code done => exact .inl ⟨code, (Option.some.inj h).symm⟩
  | stamp | delete | fill | command => cases h

/-- A call that may fail does what it does when it goes through, or has failed. -/
theorem effect_mayFail {α : Type} {choice : Choice}
    {act : Option (Reply (Except IoError α) World)} {reply : Reply (Except IoError α) World}
    (h : mayFail a w choice act = some reply)
    (hact : ∀ reply, act = some reply → Effect codec config clients a w reply.world) :
    Effect codec config clients a w reply.world := by
  rcases mayFail_eq_some h with ⟨code, rfl⟩ | h
  · exact .fault
  · exact hact reply h

theorem effect_work {area : Area} {id : Bytes} {node node' : Node} (harea : area.isStaging = true)
    (hheld : w.HeldBy a id) (hnode : w.node area id = some node)
    (hdir : node'.isDir = node.isDir ∨ node'.isDir = true) :
    Effect codec config clients a w (w.setNode area id node') :=
  .work area id node node' false harea hheld hnode hdir

theorem effect_release {file : Bytes} {ino : Nat}
    (hallowed : w.storeLock = some a ∨ w.faulted a = true) :
    Effect codec config clients a w (w.release a file ino) := by
  unfold World.release
  split
  · rename_i hlease
    exact .release file ino hallowed hlease
  · exact .same

theorem effect_createAt {place : Place} {next : Node} (harea : place.area.isStaging = true)
    (hheld : w.HeldBy a place.name)
    (hnew : place.below = [] → w.node place.area place.name = none →
      Effect codec config clients a w (w.setNode place.area place.name next)) :
    Effect codec config clients a w (createAt w place next).world := by
  unfold createAt
  split
  · exact .same
  · rename_i hfree
    split
    · rename_i hbelow
      refine hnew hbelow ?_
      rw [← Shared.at?_top, ← hbelow]
      exact hfree
    · split
      · rename_i node entries hnode hparent
        exact effect_work harea hheld hnode (.inl (isDir_modifyAt (isDir_addEntry _ _) _ _))
      · exact .same

theorem effect_cutShort (hlock : w.storeLock = some a) (area : Area) (id : Bytes) :
    Effect codec config clients a w ((w.cutShort area id).fault a) := by
  unfold World.cutShort
  split
  · rename_i node hnode
    exact .cutShort id node hlock hnode
  · exact .fault

theorem effect_removeStep {area : Area} {id : Bytes} {choice : Choice}
    {reply : Reply (Except IoError Unit) World}
    (h : removeStep a w area id choice = some reply) (hlock : w.storeLock = some a)
    (hset : ∀ node node', w.node area id = some node → node'.isDir = node.isDir →
      Effect codec config clients a w (w.setNode area id node'))
    (herase : (w.node area id).isSome = true →
      Effect codec config clients a w (w.eraseNode area id)) :
    Effect codec config clients a w reply.world := by
  unfold removeStep at h
  split at h
  · cases h
    exact effect_cutShort hlock area id
  · split at h
    · cases h
      exact .same
    · rename_i hnode
      cases h
      exact herase (by rw [hnode]; rfl)
    · cases h
    · cases h
      exact .same
  · split at h
    · rename_i node hnode
      split at h
      · cases h
        exact hset node _ hnode (isDir_modifyAt (isDir_dropEntry _) _ _)
      · cases h
    · cases h
  · cases h

/-- A call of an agent that may make it has one of the effects. -/
theorem respond_effect {c : Call} {choice : Choice} {reply : Reply (Answer c) World}
    (hguard : Guard codec config clients a c w)
    (hrespond : respond config a c choice w = some reply) :
    Effect codec config clients a w reply.world := by
  cases c with
  | quiet call =>
      refine effect_mayFail hrespond fun reply h => ?_
      cases h
      exact .same
  | lockStore =>
      refine effect_mayFail hrespond fun reply h => ?_
      split at h
      · rename_i hfree
        cases h
        exact .lock hfree
      · cases h
  | unlockStore outcome =>
      cases choice with
      | proceed =>
          cases hrespond
          exact .unlock outcome hguard.1 hguard.2.1 hguard.2.2
      | fault | stamp | delete | fill | command => cases hrespond
  | transactionId =>
      cases choice with
      | stamp stamp =>
          unfold respond at hrespond
          dsimp only at hrespond
          split at hrespond
          · cases hrespond
          · rename_i hnone
            cases hrespond
            refine .draw stamp fun b id hdrew heq => ?_
            rw [Bool.not_eq_true, List.any_eq_false] at hnone
            have hdead := hnone (b, id) hdrew
            rw [heq, beq_self_eq_true, Bool.true_and, Bool.not_eq_true, Bool.not_eq_false'] at hdead
            exact hdead
      | proceed | fault | delete | fill | command => cases hrespond
  | createLease file =>
      obtain ⟨hlock, id, rfl, hdrew⟩ := hguard
      refine effect_mayFail hrespond fun reply h => ?_
      split at h
      · cases h
        exact .same
      · rename_i hfree
        cases h
        exact .createLease id hlock hdrew hfree
  | statLease file | openLease file =>
      refine effect_mayFail hrespond fun reply h => ?_
      split at h <;> cases h <;> exact .same
  | lockLease file ino =>
      refine effect_mayFail hrespond fun reply h => ?_
      split at h
      · rename_i lease hlease
        split at h
        · cases h
          exact .same
        · rename_i hino
          split at h
          · rename_i hfree
            cases h
            rw [not_not] at hino
            exact .lockLease file ino lease.holder hguard (hino ▸ hlease) hfree
          · cases h
      · cases h
        exact .same
  | tryLockLease file ino =>
      refine effect_mayFail hrespond fun reply h => ?_
      split at h
      · rename_i lease hlease
        split at h
        · cases h
          exact .same
        · rename_i hino
          split at h
          · rename_i hfree
            cases h
            rw [not_not] at hino
            exact .lockLease file ino lease.holder hguard (hino ▸ hlease) hfree
          · cases h
            exact .same
      · cases h
        exact .same
  | removeLease file =>
      refine effect_mayFail hrespond fun reply h => ?_
      split at h
      · rename_i lease hlease
        cases h
        have hholder := hguard.2.1 lease hlease
        exact .removeLease file lease.ino hguard.1 (by rw [← hholder]; exact hlease) hguard.2.2
      · cases h
        exact .same
  | unlockLease file ino =>
      refine effect_mayFail hrespond fun reply h => ?_
      cases h
      exact effect_release hguard
  | closeLease file ino =>
      cases choice with
      | proceed =>
          cases hrespond
          exact effect_release hguard
      | fault | stamp | delete | fill | command => cases hrespond
  | readLeases | readNames =>
      refine effect_mayFail hrespond fun reply h => ?_
      cases h
      exact .same
  | createDir place =>
      obtain ⟨hlock, harea, hheld, hdrew, honce⟩ := hguard
      refine effect_mayFail hrespond fun reply h => ?_
      cases h
      exact effect_createAt harea hheld fun _ hfree =>
        .stage place.area place.name hlock harea hheld hdrew honce hfree
  | removeDirAll area id =>
      obtain ⟨hlock, ⟨harea, hheld | hnone⟩ | ⟨rfl, hclient, hfault, hentered⟩⟩ := hguard
      · exact effect_removeStep hrespond hlock
          (fun node node' hnode hdir => effect_work harea hheld hnode (.inl hdir))
          fun _ => .unstage area id hlock harea hheld
      · refine effect_removeStep hrespond hlock (fun node node' hnode _ => ?_) fun hsome => ?_
        · cases hnone.symm.trans hnode
        · rw [hnone] at hsome
          cases hsome
      · refine effect_removeStep hrespond hlock (fun node node' hnode _ => ?_) fun hsome => ?_
        · exact .rollBack id (some node') hlock hclient hfault hentered (by rw [hnode]; rfl)
        · exact .rollBack id none hlock hclient hfault hentered hsome
  | read place | canonicalize place =>
      refine effect_mayFail hrespond fun reply h => ?_
      split at h <;> cases h <;> exact .same
  | createNew place =>
      obtain ⟨harea, hheld, hbelow⟩ := hguard
      refine effect_mayFail hrespond fun reply h => ?_
      cases h
      exact effect_createAt harea hheld fun hnil => absurd hnil hbelow
  | write place bytes =>
      obtain ⟨harea, hheld, hbelow⟩ := hguard
      have happend : ∀ (bytes : Bytes) (failed : Bool), Effect codec config clients a w
          (if failed then (appendAt w place bytes).fault a else appendAt w place bytes) := by
        intro bytes failed
        unfold appendAt
        cases hnode : w.node place.area place.name with
        | some node =>
            exact .work place.area place.name node _ failed harea hheld hnode
              (.inl (isDir_modifyAt (isDir_appendContents _) _ _))
        | none =>
            cases failed
            · exact .same
            · exact .fault
      cases choice with
      | proceed =>
          cases hrespond
          exact happend bytes false
      | fault code done =>
          cases hrespond
          exact happend (bytes.take done) true
      | stamp | delete | fill | command => cases hrespond
  | rename name hex =>
      obtain ⟨hlock, hclient, hheld, hfree, id, entries, encoded, rfl, hcommittable, hencoded,
        hentered, hnode, hsame, hclaimed⟩ := hguard
      refine effect_mayFail hrespond fun reply h => ?_
      rw [hnode] at h
      dsimp only at h
      rw [hfree] at h
      cases h
      exact .publish name id entries encoded hlock hclient hheld hfree hcommittable hencoded
        hentered hnode hsame hclaimed
  | build id =>
      cases choice with
      | fill entries =>
          unfold respond at hrespond
          dsimp only at hrespond
          split at hrespond
          · rename_i hsome
            obtain ⟨node, hnode⟩ := Option.isSome_iff_exists.mp hsome
            cases hrespond
            exact effect_work rfl hguard hnode (.inr rfl)
          · cases hrespond
      | command command =>
          cases hrespond
          exact .same
      | proceed | fault | stamp | delete => cases hrespond
  | hold id =>
      cases choice with
      | fill entries =>
          unfold respond at hrespond
          dsimp only at hrespond
          split at hrespond
          · rename_i hsome
            obtain ⟨node, hnode⟩ := Option.isSome_iff_exists.mp hsome
            cases hrespond
            exact effect_work rfl hguard hnode (.inr rfl)
          · cases hrespond
      | proceed =>
          cases hrespond
          exact .same
      | fault | stamp | delete | command => cases hrespond

end Respond

end Prep.Store
