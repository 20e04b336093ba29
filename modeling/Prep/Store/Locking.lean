/-
  Store/Locking.lean --- nobody waits for ever.

  An agent waits for the store lock only while it does not have it, and locks a lease file
  only inside, right after it has created it.  So whoever waits waits for the store lock and
  for somebody who is not waiting, and from every state that is reached all living agents can
  be brought to their end, one after another.

  In the run up to the state that is asked about calls may fail and processes may die.  From
  there on a way on is shown on which no call fails; that it is taken is up to the scheduler. 
  An identifier can be drawn as long as the counter of the process has values left, which is the
  hypothesis on their number.
-/
import Mathlib.Data.Finset.Card
import Mathlib.Data.Fintype.Card
import Prep.Machine.Phases
import Prep.Store.CallKinds

set_option autoImplicit false

namespace Prep.Store

open Prep.Machine
open Prep.Text
open Prep.Fs (Node Path)
open Prep.Io (IoError)

/-! ## How far an agent is -/

/-- Outside the store lock, inside, or inside with a lease file that has just been created. -/
inductive Spot where
  | outside
  | inside
  | fresh (file : Bytes) (ino : Nat)

/-- A created lease file has been used, or left. -/
def Spot.settle : Spot → Spot
  | .outside => .outside
  | .inside | .fresh _ _ => .inside

/-- Where an agent is, and how many identifiers it may still draw. -/
structure LockPhase where
  spot : Spot
  draws : Nat

/-- The phase after an answer. -/
def LockPhase.next (phase : LockPhase) : (c : Call) → Answer c → LockPhase
  | .lockStore, answer =>
      match (answer : Except IoError Unit) with
      | .ok _ => { phase with spot := .inside }
      | .error _ => phase
  | .unlockStore _, _ => { phase with spot := .outside }
  | .transactionId, _ => ⟨phase.spot.settle, phase.draws - 1⟩
  | .createLease file, answer =>
      match (answer : Except IoError Nat) with
      | .ok ino => { phase with spot := .fresh file ino }
      | .error _ => { phase with spot := phase.spot.settle }
  | .quiet _, _ | .statLease _, _ => phase
  | _, _ => { phase with spot := phase.spot.settle }

/-- The order in which agents take locks. -/
def locking : Phases Call Answer LockPhase where
  allows phase
    | .lockStore => phase.spot = .outside
    | .unlockStore _ | .createLease _ => phase.spot ≠ .outside
    | .lockLease file ino => phase.spot = .fresh file ino
    | .transactionId => 0 < phase.draws
    | _ => True
  next := LockPhase.next

/-- What is so of the locks. -/
def Spot.Holds (a : Agent) (w : World) : Spot → Prop
  | .outside => w.storeLock ≠ some a
  | .inside => w.storeLock = some a
  | .fresh file ino => w.storeLock = some a ∧ w.lease file = some ⟨ino, none⟩

/-- How often `begin` tries. -/
def attempts : Nat := 128

/-- The agent is where it is said to be. -/
structure LockPhase.Holds (a : Agent) (phase : LockPhase) (w : World) : Prop where
  spot : phase.spot.Holds a w
  draws : phase.draws ≤ attempts

variable {σ : Setting} {a b : Agent} {s s' : StoreState} {steps : List StoreStep} {w w' : World}

theorem Spot.Holds.storeLock {spot : Spot} (h : spot.Holds a w) (hin : spot ≠ .outside) :
    w.storeLock = some a := by
  cases spot with
  | outside => exact absurd rfl hin
  | inside => exact h
  | fresh => exact h.1

theorem Spot.Holds.settle {spot : Spot} (h : spot.Holds a w) (hlock : w'.storeLock = w.storeLock) :
    spot.settle.Holds a w' := by
  cases spot with
  | outside => exact fun heq => h (hlock.symm.trans heq)
  | inside => exact hlock.trans h
  | fresh => exact hlock.trans h.1

theorem Spot.Holds.of_same {spot : Spot} (h : spot.Holds a w) (hlock : w'.storeLock = w.storeLock)
    (hlease : w'.leases = w.leases) : spot.Holds a w' := by
  cases spot with
  | outside => exact fun heq => h (hlock.symm.trans heq)
  | inside => exact hlock.trans h
  | fresh file ino =>
      refine ⟨hlock.trans h.1, ?_⟩
      rw [Shared.lease, hlease]
      exact h.2

/-! ## What a call does to the locks -/

/-- Only taking and letting go of the store lock changes who has it, and only drawing an
identifier what has been drawn. -/
structure Steady (c : Call) (w w' : World) : Prop where
  storeLock : c ≠ .lockStore → (∀ outcome, c ≠ .unlockStore outcome) → w'.storeLock = w.storeLock
  drawn : c ≠ .transactionId → w'.drawn = w.drawn

theorem steady_of_same {c : Call} (hlock : w'.storeLock = w.storeLock)
    (hdrawn : w'.drawn = w.drawn) : Steady c w w' := ⟨fun _ _ => hlock, fun _ => hdrawn⟩

theorem mayFail_steady {c : Call} {α : Type} {choice : Choice}
    {act : Option (Reply (Except IoError α) World)} {reply : Reply (Except IoError α) World}
    (h : mayFail a w choice act = some reply)
    (hact : ∀ reply, act = some reply → Steady c w reply.world) : Steady c w reply.world := by
  rcases mayFail_eq_some h with ⟨_, rfl⟩ | h
  · exact steady_of_same rfl rfl
  · exact hact reply h

theorem release_steady (c : Call) (a : Agent) (file : Bytes) (ino : Nat) :
    Steady c w (w.release a file ino) := by
  unfold World.release
  split <;> exact steady_of_same rfl rfl

theorem createAt_steady (c : Call) (place : Place) (next : Node) :
    Steady c w (createAt w place next).world := by
  unfold createAt
  split
  · exact steady_of_same rfl rfl
  · split
    · exact steady_of_same rfl rfl
    · split <;> exact steady_of_same rfl rfl

theorem appendAt_steady (c : Call) (place : Place) (bytes : Bytes) :
    Steady c w (appendAt w place bytes) := by
  unfold appendAt
  split <;> exact steady_of_same rfl rfl

theorem removeStep_steady (c : Call) {area : Area} {id : Bytes} {choice : Choice}
    {reply : Reply (Except IoError Unit) World}
    (h : removeStep a w area id choice = some reply) : Steady c w reply.world := by
  rcases removeStep_cases h with
    ⟨_, rfl⟩ | ⟨_, rfl⟩ | ⟨_, rfl⟩ | ⟨_, _, _, rfl⟩ | ⟨node, below, _, rfl⟩
  · unfold World.cutShort
    split <;> exact steady_of_same rfl rfl
  all_goals exact steady_of_same rfl rfl

theorem respond_steady {config : Config} {c : Call} {choice : Choice}
    {reply : Reply (Answer c) World} (h : respond config a c choice w = some reply) :
    Steady c w reply.world := by
  cases c with
  | quiet | readLeases | readNames =>
      refine mayFail_steady h fun reply h => ?_
      cases h
      exact steady_of_same rfl rfl
  | lockStore =>
      refine mayFail_steady h fun reply h => ?_
      split at h <;> cases h
      exact ⟨fun hne => absurd rfl hne, fun _ => rfl⟩
  | createLease | removeLease | statLease | openLease | read | canonicalize =>
      refine mayFail_steady h fun reply h => ?_
      split at h <;> cases h <;> exact steady_of_same rfl rfl
  | lockLease | tryLockLease =>
      refine mayFail_steady h fun reply h => ?_
      split at h
      · split at h
        · cases h
          exact steady_of_same rfl rfl
        · split at h <;> cases h <;> exact steady_of_same rfl rfl
      · cases h
        exact steady_of_same rfl rfl
  | unlockLease file ino =>
      refine mayFail_steady h fun reply h => ?_
      cases h
      exact release_steady _ a file ino
  | createDir place | createNew place =>
      refine mayFail_steady h fun reply h => ?_
      cases h
      exact createAt_steady _ place _
  | rename =>
      refine mayFail_steady h fun reply h => ?_
      split at h
      · cases h
        exact steady_of_same rfl rfl
      · split at h <;> cases h <;> exact steady_of_same rfl rfl
  | removeDirAll => exact removeStep_steady _ h
  | unlockStore outcome =>
      cases choice <;> cases h
      exact ⟨fun _ hne => absurd rfl (hne outcome), fun _ => rfl⟩
  | closeLease file ino =>
      cases choice <;> cases h
      exact release_steady _ a file ino
  | transactionId =>
      cases choice with
      | stamp stamp =>
          unfold respond at h
          dsimp only at h
          split at h <;> cases h
          exact ⟨fun _ _ => rfl, fun hne => absurd rfl hne⟩
      | proceed | fault | delete | fill | command => cases h
  | write place bytes =>
      cases choice with
      | proceed =>
          cases h
          exact appendAt_steady _ place bytes
      | fault code done =>
          cases h
          obtain ⟨hlock, hdrawn⟩ := @appendAt_steady w (.write place bytes) place (bytes.take done)
          exact ⟨hlock, hdrawn⟩
      | stamp | delete | fill | command => cases h
  | build | hold =>
      cases choice with
      | fill entries =>
          unfold respond at h
          dsimp only at h
          split at h <;> cases h
          exact steady_of_same rfl rfl
      | proceed | fault | stamp | delete | command => cases h <;> exact steady_of_same rfl rfl

/-- Who else makes a call does not hand the agent the store lock. -/
theorem effect_storeLock {codec : MetadataCodec} {config : Config} {clients : Agent → Client}
    (hne : a ≠ b) (h : Effect codec config clients b w w') (hnot : w.storeLock ≠ some a) :
    w'.storeLock ≠ some a := by
  cases h with
  | lock hfree => exact fun heq => hne (Option.some.inj heq).symm
  | unlock => exact fun heq => (by cases heq)
  | work _ _ _ _ failed => cases failed <;> exact hnot
  | rollBack _ node => cases node <;> exact hnot
  | _ => exact hnot

/-- A call that goes on for several steps leaves the locks alone. -/
theorem respond_more {config : Config} {c : Call} {choice : Choice}
    (h : respond config a c choice w = some (.more w')) :
    w'.storeLock = w.storeLock ∧ w'.leases = w.leases := by
  have hmay : ∀ {α : Type} {act : Option (Reply (Except IoError α) World)},
      mayFail a w choice act = some (.more w') → act = some (.more w') := by
    intro α act hact
    rcases mayFail_eq_some hact with ⟨_, hreply⟩ | hact
    · cases hreply
    · exact hact
  cases c with
  | removeDirAll area id =>
      rcases removeStep_cases h with ⟨_, h⟩ | ⟨_, h⟩ | ⟨_, h⟩ | ⟨_, _, _, h⟩ | ⟨node, below, _, h⟩
      all_goals cases h
      exact ⟨rfl, rfl⟩
  | build | hold =>
      cases choice with
      | fill entries =>
          unfold respond at h
          dsimp only at h
          split at h <;> cases h
          exact ⟨rfl, rfl⟩
      | proceed | fault | stamp | delete | command => cases h
  | unlockStore | closeLease | write => cases choice <;> cases h
  | transactionId =>
      cases choice with
      | stamp stamp =>
          unfold respond at h
          dsimp only at h
          split at h <;> cases h
      | proceed | fault | delete | fill | command => cases h
  | quiet | readLeases | readNames | unlockLease => cases hmay h
  | createDir place | createNew place =>
      have hact := hmay h
      unfold createAt at hact
      split at hact
      · cases hact
      · split at hact
        · cases hact
        · split at hact <;> cases hact
  | lockStore | createLease | removeLease | statLease | openLease | read | canonicalize =>
      have hact := hmay h
      split at hact <;> cases hact
  | lockLease | tryLockLease =>
      have hact := hmay h
      split at hact
      · split at hact
        · cases hact
        · split at hact <;> cases hact
      · cases hact
  | rename =>
      have hact := hmay h
      split at hact
      · cases hact
      · split at hact <;> cases hact

/-! ## The phases say what is so -/

theorem draws_next (phase : LockPhase) (c : Call) (answer : Answer c) :
    (c = .transactionId ∧ (phase.next c answer).draws = phase.draws - 1) ∨
      c ≠ .transactionId ∧ (phase.next c answer).draws = phase.draws := by
  cases c with
  | transactionId => exact .inl ⟨rfl, rfl⟩
  | lockStore | createLease => exact .inr ⟨fun heq => (by cases heq), by cases answer <;> rfl⟩
  | _ => exact .inr ⟨fun heq => (by cases heq), rfl⟩

/-- After an agent's own call it is where the next phase says. -/
theorem spot_next {phase : LockPhase} {c : Call} {choice : Choice} {answer : Answer c}
    (h : phase.spot.Holds a w) (hallows : locking.allows phase c)
    (hrespond : respond σ.config a c choice w = some (.done answer w')) :
    (phase.next c answer).spot.Holds a w' := by
  have hsteady := respond_steady hrespond
  cases c with
  | lockStore =>
      rcases mayFail_eq_some hrespond with ⟨code, hreply⟩ | hact
      · cases hreply
        exact h.of_same rfl rfl
      · split at hact <;> cases hact
        rfl
  | unlockStore outcome =>
      cases choice <;> cases hrespond
      exact fun heq => (by cases heq)
  | createLease file =>
      rcases mayFail_eq_some hrespond with ⟨code, hreply⟩ | hact
      · cases hreply
        exact h.settle rfl
      · split at hact
        · cases hact
          exact h.settle rfl
        · cases hact
          exact ⟨h.storeLock hallows, (World.lease_setLease w file file _).trans (if_pos rfl)⟩
  | quiet =>
      rcases mayFail_eq_some hrespond with ⟨code, hreply⟩ | hact
      · cases hreply
        exact h.of_same rfl rfl
      · cases hact
        exact h
  | statLease file =>
      rcases mayFail_eq_some hrespond with ⟨code, hreply⟩ | hact
      · cases hreply
        exact h.of_same rfl rfl
      · split at hact <;> cases hact <;> exact h
  | _ =>
      exact Spot.Holds.settle h
        (hsteady.storeLock (fun heq => by cases heq) fun outcome heq => by cases heq)

theorem tracks_locking : locking.Tracks σ.discipline LockPhase.Holds where
  done a phase c choice answer w w' h hallows hrespond := by
    refine ⟨spot_next h.spot hallows hrespond, ?_⟩
    have hdraws := h.draws
    rcases draws_next phase c answer with ⟨_, heq⟩ | ⟨_, heq⟩
    all_goals
      change (phase.next c answer).draws ≤ attempts
      omega
  more _ _ _ _ _ _ h _ hrespond :=
    ⟨h.spot.of_same (respond_more hrespond).1 (respond_more hrespond).2, h.draws⟩
  act a b phase c choice w reply hne hinv ha hb hguard h hrespond := by
    have hrely := σ.discipline.rely_act a b c choice w reply hne hinv ha hb hguard hrespond
    have hinside := fun hlock => Rely.inside hrely hlock
    obtain ⟨spot, draws⟩ := phase
    refine ⟨?_, h.draws⟩
    have hspot := h.spot
    cases spot with
    | outside => exact effect_storeLock hne (respond_effect hguard hrespond) hspot
    | inside => exact (hinside hspot).storeLock
    | fresh file ino =>
        refine ⟨(hinside hspot.1).storeLock, ?_⟩
        rcases (hinside hspot.1).leases file with heq | ⟨_, _, _, hheld, _⟩
        · exact heq.trans hspot.2
        · cases hspot.2.symm.trans hheld
  event a phase e w w' _ hhappen _ h := by
    rw [die_eq_some hhappen]
    exact ⟨h.spot.of_same rfl rfl, h.draws⟩

/-! ## The programs follow the phases -/

/-- Inside the store lock, with so many identifiers left to draw. -/
def LockPhase.Inner (count : Nat) (phase : LockPhase) : Prop :=
  phase.spot ≠ .outside ∧ count ≤ phase.draws

theorem settle_ne_outside {spot : Spot} (h : spot ≠ .outside) : spot.settle ≠ .outside := by
  cases spot with
  | outside => exact absurd rfl h
  | inside | fresh => exact fun heq => (by cases heq)

/-- A program that only looks leaves the phase as it is. -/
theorem follows_of_looks {α : Type} {act : Act α} (h : act.Only Call.Looks) (phase : LockPhase) :
    act.Follows locking (fun _ after => after = phase) phase := by
  refine Program.Only.follows h (fun other c hother hc => ?_) rfl
  cases hother
  cases c with
  | quiet | statLease => exact ⟨trivial, fun _ => rfl⟩
  | _ => cases hc

/-- Plain calls may be made everywhere, and nobody goes in or out by them. -/
theorem plain_next {c : Call} (hc : c.Plain) (phase : LockPhase) :
    locking.allows phase c ∧ ∀ answer, (locking.next phase c answer).draws = phase.draws ∧
      (phase.spot = .outside → (locking.next phase c answer).spot = .outside) ∧
      (phase.spot ≠ .outside → (locking.next phase c answer).spot ≠ .outside) := by
  cases c with
  | lockStore | unlockStore | transactionId | createLease | lockLease => cases hc
  | quiet | statLease => exact ⟨trivial, fun _ => ⟨rfl, id, id⟩⟩
  | _ => exact ⟨trivial, fun _ => ⟨rfl, fun h => congrArg Spot.settle h, settle_ne_outside⟩⟩

theorem follows_inner {α : Type} {act : Act α} {count : Nat} {phase : LockPhase}
    (h : act.Only Call.Plain) (hphase : phase.Inner count) :
    act.Follows locking (fun _ => LockPhase.Inner count) phase := by
  refine Program.Only.follows h (fun phase c hinner hc => ?_) hphase
  obtain ⟨hallows, hnext⟩ := plain_next hc phase
  refine ⟨hallows, fun answer => ⟨(hnext answer).2.2 hinner.1, ?_⟩⟩
  rw [(hnext answer).1]
  exact hinner.2

theorem follows_outside {α : Type} {act : Act α} {phase : LockPhase} (h : act.Only Call.Plain)
    (hphase : phase.spot = .outside) :
    act.Follows locking (fun _ after => after.spot = .outside) phase :=
  Program.Only.follows h (fun phase _ houtside hc =>
    ⟨(plain_next hc phase).1, fun answer => ((plain_next hc phase).2 answer).2.1 houtside⟩) hphase

theorem plain_publish (codec : MetadataCodec) (tx : StoreTransaction) (id : StoreResultId) :
    (publish codec tx id).Only Call.Plain := by
  have hfound : ∀ place, Program.Only Call.Plain (nodeExists place).run := fun place =>
    plain_of_tame (tame_nodeExists place)
  have hdiscard : ∀ operation, (discardRedundant codec tx id operation).Only Call.Plain :=
    fun operation => plain_of_tame (tame_discardRedundant codec tx id operation)
  refine Program.Only.bind (hfound _) fun found => ?_
  rcases found with e | _ | _
  · exact Program.only_ret _
  · refine Program.Only.bind (Program.only_perform trivial) fun renamed => ?_
    cases renamed with
    | ok _ => exact plain_of_tame (tame_confirm codec tx id)
    | error source =>
        refine Program.Only.bind (hfound _) fun found => ?_
        rcases found with e | _ | _
        · exact Program.only_ret _
        · exact Program.only_ret _
        · exact hdiscard _
  · exact hdiscard _

section Follow

variable {phase : LockPhase} {α : Type}

theorem follows_orIo {post : Except StoreError α → LockPhase → Prop} (operation : String)
    (path : Path) {act : Act (Except IoError α)}
    (h : act.Follows locking (fun result phase => (∀ x, result = .ok x → post (.ok x) phase) ∧
      ∀ source, result = .error source → post (.error (.io operation path source)) phase) phase) :
    Program.Follows locking post (orIo operation path act).run phase := by
  refine Program.Follows.bind h fun result phase hresult => ?_
  cases result with
  | ok x => exact Program.follows_ret (hresult.1 x rfl)
  | error source => exact Program.follows_ret (hresult.2 source rfl)

/-- Taking the store lock: inside if it was taken, outside if not. -/
theorem follows_lockStore (hphase : phase.spot = .outside) :
    Program.Follows locking (fun result after =>
      (result = .ok () → after = { phase with spot := .inside }) ∧
        ∀ e, result = .error e → after = phase) lockStore.run phase := by
  have hlooks : ∀ {op : Op Unit} {now : LockPhase}, Program.Only Call.Looks op.run → now = phase →
      Program.Follows locking (fun _ after => after = phase) op.run now := by
    rintro op _ h rfl
    exact follows_of_looks h _
  refine Program.Follows.bindE (hlooks looks_verifyLayout rfl) (fun _ _ heq => ?_)
    fun e _ heq => ⟨fun h => (by cases h), fun _ _ => heq⟩
  refine Program.Follows.bindE (hlooks looks_openLockFile heq) (fun _ _ heq => ?_)
    fun e _ heq => ⟨fun h => (by cases h), fun _ _ => heq⟩
  cases heq
  refine follows_orIo _ _ (Program.follows_perform hphase fun answer => ?_)
  cases answer with
  | ok _ => exact ⟨fun _ _ => ⟨fun _ => rfl, fun _ h => (by cases h)⟩, fun _ h => (by cases h)⟩
  | error source =>
      exact ⟨fun _ h => (by cases h), fun _ _ => ⟨fun h => (by cases h), fun _ _ => rfl⟩⟩

/-- What is done inside, up to where the lock is let go. -/
theorem follows_unlocking {act : Act α} {outcome : α → Outcome} {n : Nat}
    (h : act.Follows locking (fun _ => LockPhase.Inner n) phase) :
    (unlocking act outcome).Follows locking (fun _ after => after.spot = .outside) phase := by
  refine Program.Follows.bind h fun result phase hinner => ?_
  exact ⟨hinner.1, fun _ => rfl⟩

/-- An operation under the store lock begins and ends outside. -/
theorem follows_locked {op : Op α} {outcome : Except StoreError α → Outcome} {n : Nat}
    (hop : ∀ phase : LockPhase, phase.Inner n →
      Program.Follows locking (fun _ => LockPhase.Inner 0) op.run phase)
    (hphase : phase.spot = .outside) (hdraws : n ≤ phase.draws) :
    Program.Follows locking (fun _ after => after.spot = .outside) (locked op outcome).run
      phase := by
  refine Program.Follows.bindE (follows_lockStore hphase) (fun _ after h => ?_)
    fun e after h => (h.2 e rfl) ▸ hphase
  refine follows_unlocking (hop after ?_)
  rw [h.1 rfl]
  exact ⟨fun heq => (by cases heq), hdraws⟩

theorem follows_locked_plain {op : Op α} {outcome : Except StoreError α → Outcome}
    (hop : Program.Only Call.Plain op.run) (hphase : phase.spot = .outside) :
    Program.Follows locking (fun _ after => after.spot = .outside) (locked op outcome).run phase :=
  follows_locked (fun _ hinner => follows_inner hop hinner) hphase (Nat.zero_le _)

/-- A new lease file: its creator is there with it. -/
theorem follows_createNewLockFile {n : Nat} {file : Bytes} (hphase : phase.Inner n) :
    Program.Follows locking (fun result after =>
      (∀ ino, result = .ok ino → after.spot = .fresh file ino) ∧ after.Inner n)
      (createNewLockFile file).run phase := by
  have hcreate : Program.Follows locking (fun result after =>
      (∀ ino, result = .ok ino → after.spot = .fresh file ino) ∧ after.Inner n)
      (orIo "create lock file" (leasePath file) (perform (.createLease file))).run phase := by
    refine follows_orIo _ _ (Program.follows_perform hphase.1 fun answer => ?_)
    cases answer with
    | ok ino =>
        refine ⟨fun _ heq => ?_, fun _ heq => (by cases heq)⟩
        cases heq
        refine ⟨fun other hother => ?_, fun heq => (by cases heq), hphase.2⟩
        cases hother
        rfl
    | error source =>
        exact ⟨fun _ heq => (by cases heq), fun _ _ =>
          ⟨fun _ heq => (by cases heq), settle_ne_outside hphase.1, hphase.2⟩⟩
  refine Program.Follows.bindE hcreate (fun ino after h => ?_)
    fun e after h => ⟨fun _ heq => (by cases heq), h.2⟩
  refine Program.Follows.bindE (follows_of_looks (looks_verifyOpenFileIdentity _ _) after)
    (fun _ last heq => ?_) fun e last heq => ⟨fun _ heq => (by cases heq), heq ▸ h.2⟩
  cases heq
  refine ⟨fun other hother => ?_, h.2⟩
  cases hother
  exact h.1 ino rfl

/-- A lease file is locked right after it has been created. -/
theorem follows_newLease {n : Nat} (operation : String) (hphase : phase.Inner (n + 1)) :
    (newLease operation).Follows locking (fun _ => LockPhase.Inner n) phase := by
  have hdraw : (perform .transactionId).Follows locking (fun _ => LockPhase.Inner n) phase :=
    ⟨Nat.lt_of_lt_of_le (Nat.succ_pos _) hphase.2, fun _ =>
      ⟨settle_ne_outside hphase.1, Nat.le_sub_one_of_lt hphase.2⟩⟩
  refine Program.Follows.bind hdraw fun id phase hinner => ?_
  refine Program.Follows.bind (follows_createNewLockFile hinner) fun result after h => ?_
  rcases result with e | ino
  · split
    · exact Program.follows_ret h.2
    · exact Program.follows_ret h.2
    · rename_i heq
      cases heq
  · have hlock : (perform (.lockLease (leaseFile id) ino)).Follows locking
        (fun _ => LockPhase.Inner n) after :=
      ⟨h.1 ino rfl, fun _ => ⟨settle_ne_outside h.2.1, h.2.2⟩⟩
    refine Program.Follows.bind hlock fun answer after hinner => ?_
    cases answer with
    | error source =>
        exact Program.Follows.bind (follows_inner (Program.only_perform trivial) hinner)
          fun _ _ hinner => Program.follows_ret hinner
    | ok _ => exact Program.follows_ret hinner

/-- One attempt, and what is done when it has found its identifier taken. -/
theorem follows_attempt {δ : Type} {n : Nat} {operation : String}
    {again : Act (Except StoreError δ)}
    {create : Bytes → Nat → Act (Option (Except StoreError δ))}
    {next : Option (Except StoreError (Bytes × Nat)) → Act (Except StoreError δ)}
    {last : Option (Except StoreError δ) → Act (Except StoreError δ)}
    (hnone : next none = again) (herror : ∀ e, next (some (.error e)) = .ret (.error e))
    (hok : ∀ id ino, next (some (.ok (id, ino))) = create id ino >>= last)
    (hlast : last none = again ∧ ∀ result, last (some result) = .ret result)
    (hagain : ∀ phase : LockPhase, phase.Inner n →
      again.Follows locking (fun _ => LockPhase.Inner 0) phase)
    (hcreate : ∀ id ino, (create id ino).Only Call.Plain) (hphase : phase.Inner (n + 1)) :
    (newLease operation >>= next).Follows locking (fun _ => LockPhase.Inner 0) phase := by
  refine Program.Follows.bind (follows_newLease operation hphase) fun lease phase hinner => ?_
  rcases lease with _ | e | ⟨id, ino⟩
  · rw [hnone]
    exact hagain phase hinner
  · rw [herror]
    exact Program.follows_ret ⟨hinner.1, Nat.zero_le _⟩
  · rw [hok]
    refine Program.Follows.bind (follows_inner (hcreate id ino) hinner)
      fun result phase hinner => ?_
    cases result with
    | none =>
        rw [hlast.1]
        exact hagain phase hinner
    | some result =>
        rw [hlast.2]
        exact Program.follows_ret ⟨hinner.1, Nat.zero_le _⟩

theorem follows_beginAttempts (n : Nat) (hphase : phase.Inner n) :
    Program.Follows locking (fun _ => LockPhase.Inner 0) (beginAttempts n).run phase := by
  induction n generalizing phase with
  | zero => exact Program.follows_ret hphase
  | succ n ih =>
      exact follows_attempt rfl (fun _ => rfl) (fun _ _ => rfl) ⟨rfl, fun _ => rfl⟩
        (fun _ => ih) (fun _ _ => plain_of_tame (tame_createStaging _ _)) hphase

theorem follows_beginUnverifiedSourceAttempts (n : Nat) (hphase : phase.Inner n) :
    Program.Follows locking (fun _ => LockPhase.Inner 0) (beginUnverifiedSourceAttempts n).run
      phase := by
  induction n generalizing phase with
  | zero => exact Program.follows_ret hphase
  | succ n ih =>
      exact follows_attempt rfl (fun _ => rfl) (fun _ _ => rfl) ⟨rfl, fun _ => rfl⟩
        (fun _ => ih) (fun _ _ => plain_of_tame (tame_createSourceStaging _ _)) hphase

theorem follows_drop {act : Act Unit} {outcome : Unit → Outcome} (h : Drops outcome act)
    (hphase : phase.spot = .outside) :
    act.Follows locking (fun _ after => after.spot = .outside) phase := by
  cases h with
  | closes h => exact follows_outside (plain_of_tame h) hphase
  | removes herror hok hinside hclose =>
      refine Program.Follows.bind (follows_lockStore hphase) fun result after h => ?_
      cases result with
      | error e =>
          rw [herror, h.2 e rfl]
          exact follows_outside (plain_of_tame hclose) hphase
      | ok _ =>
          rw [hok, h.1 rfl]
          exact follows_unlocking
            (follows_inner (plain_of_tame hinside) ⟨fun heq => (by cases heq), Nat.zero_le _⟩)

theorem follows_commit (codec : MetadataCodec) (tx : StoreTransaction) (id : StoreResultId)
    (hphase : phase.spot = .outside) :
    (commit codec tx id).Follows locking (fun _ after => after.spot = .outside) phase := by
  have hbody : (prepare codec tx id).run.Only Call.Plain :=
    plain_of_tame (tame_prepare codec tx id)
  have hend : ∀ (result : Except StoreError PublishOutcome) (tx : StoreTransaction)
      (phase : LockPhase), phase.spot = .outside →
        (dropTransaction tx >>= fun _ => .ret result).Follows locking
          (fun _ after => after.spot = .outside) phase := fun _ tx _ houtside =>
    Program.Follows.bind (follows_drop (drops_dropTransaction tx) houtside)
      fun _ _ h => Program.follows_ret h
  refine Program.Follows.bind (follows_lockStore hphase) fun result after h => ?_
  cases result with
  | error e => exact hend (.error e) tx after ((h.2 e rfl) ▸ hphase)
  | ok _ =>
      rw [h.1 rfl]
      refine Program.Follows.bind (follows_unlocking (follows_inner (Program.Only.bind hbody
        fun prepared => ?_) ⟨fun heq => (by cases heq), Nat.zero_le _⟩))
        fun committed phase houtside => hend committed.1 committed.2 phase houtside
      cases prepared with
      | error e => exact Program.only_ret _
      | ok _ => exact plain_publish codec tx id

/-- What an agent uses the store for follows the order. -/
theorem follows_program (codec : MetadataCodec) (client : Client) :
    (client.program codec).Follows locking (fun _ after => after.spot = .outside)
      ⟨.outside, attempts⟩ := by
  cases client with
  | transaction =>
      refine Program.Follows.bind (follows_locked (fun _ => follows_beginAttempts 128) rfl
        le_rfl)
        fun begun phase houtside => ?_
      cases begun with
      | error e => exact Program.follows_ret houtside
      | ok tx =>
          refine Program.Follows.bind (follows_outside (Program.only_perform trivial) houtside)
            fun command phase houtside => ?_
          cases command with
          | drop => exact follows_drop (drops_dropTransaction tx) houtside
          | commit id =>
              exact Program.Follows.bind (follows_commit codec tx id houtside)
                fun _ _ houtside => Program.follows_ret houtside
  | sourceStage =>
      refine Program.Follows.bind (follows_locked
        (fun _ => follows_beginUnverifiedSourceAttempts 128) rfl le_rfl)
        fun begun phase houtside => ?_
      cases begun with
      | error e => exact Program.follows_ret houtside
      | ok stage =>
          exact Program.Follows.bind (follows_outside (Program.only_perform trivial) houtside)
            fun _ _ houtside => follows_drop (drops_dropStage stage) houtside
  | recovery =>
      exact Program.Follows.bind (follows_locked_plain (plain_of_tame tame_recoverAll) rfl)
        fun _ _ houtside => Program.follows_ret houtside
  | reader id =>
      exact Program.Follows.bind (follows_locked_plain (plain_of_tame (tame_lookUp codec id)) rfl)
        fun _ _ houtside => Program.follows_ret houtside

end Follow

/-! ## Who waits -/

/-- Each living agent is where its program has got to. -/
theorem Setting.Runs.obeyed (h : σ.Runs steps s) :
    locking.Obeyed σ.config.system LockPhase.Holds (fun after => after.spot = .outside) s := by
  refine Phases.Obeyed.run (fun a _ => ⟨⟨.outside, attempts⟩, ⟨fun heq => (by cases heq), le_rfl⟩,
    follows_program σ.codec (σ.clients a)⟩) tracks_locking good_initial h

theorem toHexadecimal_injective : Function.Injective toHexadecimal := by
  have hread : ∀ n, ofDigits 16 (toHexadecimal n) = n := by
    intro n
    unfold toHexadecimal
    split
    · rename_i hzero
      rw [hzero]
      rfl
    · rw [ofDigits_map_reverse, Nat.ofDigits_digits]
      exact fun d hd => Nat.digits_lt_base (by norm_num) hd
  intro m n h
  rw [← hread m, h, hread]

/-- Some identifier has not been drawn. -/
theorem exists_stamp {drawn : List (Agent × Bytes)} (h : drawn.length < 2 ^ 64) :
    ∃ stamp : Stamp, ∀ x ∈ drawn, x.2 ≠ stamp.transactionId := by
  let stamp (counter : Fin (2 ^ 64)) : Stamp := ⟨0, 0, UInt64.ofFin counter, playStamp_lt⟩
  have hinj : Function.Injective fun counter => (stamp counter).transactionId := by
    intro m n heq
    have hcounter := toHexadecimal_injective (List.append_cancel_left heq)
    exact Fin.ext hcounter
  by_contra hnone
  have hall : ∀ stamp : Stamp, ∃ x ∈ drawn, x.2 = stamp.transactionId := fun stamp => by
    by_contra hnot
    exact hnone ⟨stamp, fun x hx heq => hnot ⟨x, hx, heq⟩⟩
  have hsub : Finset.univ.image (fun counter => (stamp counter).transactionId) ⊆
      (drawn.map Prod.snd).toFinset := by
    intro id hid
    obtain ⟨counter, _, rfl⟩ := Finset.mem_image.mp hid
    obtain ⟨x, hx, heq⟩ := hall (stamp counter)
    exact List.mem_toFinset.mpr (List.mem_map.mpr ⟨x, hx, heq⟩)
  have hcard := Finset.card_le_card hsub
  rw [Finset.card_image_of_injective _ hinj, Finset.card_univ, Fintype.card_fin] at hcard
  have hlength := (List.toFinset_card_le (drawn.map Prod.snd)).trans_eq (List.length_map _)
  omega

/-- An agent that may go on alone: it has the store lock, or nobody alive has it, and there
are identifiers left to draw. -/
structure Unhindered (σ : Setting) (a : Agent) (limit : Nat) (phase : LockPhase) (w : World) :
    Prop where
  spot : phase.spot.Holds a w
  free : phase.spot = .outside → σ.config.free w w.storeLock = true
  alive : w.dead (σ.config.process a) = false
  room : w.drawn.length + phase.draws ≤ limit

section Alone

variable {limit : Nat} {phase : LockPhase}

theorem free_congr (config : Config) (hdead : w'.dead = w.dead) (holder : Option Agent) :
    config.free w' holder = config.free w holder := by
  cases holder with
  | none => rfl
  | some b => exact congrFun hdead _

theorem outside_of_settle {spot : Spot} (h : spot.settle = .outside) : spot = .outside := by
  cases spot with
  | outside => rfl
  | inside | fresh => cases h

theorem unhindered_done {c : Call} {choice : Choice} {answer : Answer c}
    (h : Unhindered σ a limit phase w) (hallows : locking.allows phase c)
    (hrespond : respond σ.config a c choice w = some (.done answer w')) :
    Unhindered σ a limit (locking.next phase c answer) w' := by
  have hsteady : Steady c w w' := respond_steady hrespond
  have hdead : w'.dead = w.dead := (respond_settled hrespond).dead
  have hstill : phase.spot = .outside → w'.storeLock = w.storeLock →
      σ.config.free w' w'.storeLock = true := fun hphase hlock => by
    rw [hlock, free_congr σ.config hdead]
    exact h.free hphase
  refine ⟨spot_next h.spot hallows hrespond, fun houtside => ?_, by rw [hdead]; exact h.alive, ?_⟩
  · cases c with
    | lockStore =>
        rcases mayFail_eq_some hrespond with ⟨code, hreply⟩ | hact
        · cases hreply
          exact hstill houtside rfl
        · split at hact <;> cases hact
          cases houtside
    | unlockStore outcome =>
        cases choice <;> cases hrespond
        rfl
    | createLease file =>
        cases answer with
        | ok ino => cases houtside
        | error source => exact absurd (outside_of_settle houtside) hallows
    | quiet | statLease =>
        exact hstill houtside
          (hsteady.storeLock (fun heq => by cases heq) fun outcome heq => by cases heq)
    | _ =>
        exact hstill (outside_of_settle houtside)
          (hsteady.storeLock (fun heq => by cases heq) fun outcome heq => by cases heq)
  · have hroom := h.room
    rcases draws_next phase c answer with ⟨rfl, hdraws⟩ | ⟨hne, hdraws⟩
    · have hleft : 0 < phase.draws := hallows
      cases choice with
      | stamp stamp =>
          unfold respond at hrespond
          dsimp only at hrespond
          split at hrespond <;> cases hrespond
          change w.drawn.length + 1 + (phase.draws - 1) ≤ limit
          omega
      | proceed | fault | delete | fill | command => cases hrespond
    · change w'.drawn.length + (phase.next c answer).draws ≤ limit
      rw [hdraws, hsteady.drawn hne]
      exact hroom

theorem unhindered_more {c : Call} {choice : Choice} (h : Unhindered σ a limit phase w)
    (hrespond : respond σ.config a c choice w = some (.more w')) :
    Unhindered σ a limit phase w' := by
  have hsteady : Steady c w w' := respond_steady hrespond
  have hdead : w'.dead = w.dead := (respond_settled hrespond).dead
  obtain ⟨hlock, hleases⟩ := respond_more hrespond
  have hnot : c ≠ .transactionId := by
    rintro rfl
    cases choice with
    | stamp stamp =>
        unfold respond at hrespond
        dsimp only at hrespond
        split at hrespond <;> cases hrespond
    | proceed | fault | delete | fill | command => cases hrespond
  refine ⟨h.spot.of_same hlock hleases, fun houtside => ?_, by rw [hdead]; exact h.alive, ?_⟩
  · rw [hlock, free_congr σ.config hdead]
    exact h.free houtside
  · rw [hsteady.drawn hnot]
    exact h.room

theorem calm_stamp (stamp : Stamp) : Choice.Calm (.stamp stamp) := rfl

theorem calm_drop : Choice.Calm (.command .drop) := rfl

/-- A call that may be made in its phase can be answered. -/
theorem exists_answer {c : Call} (hspot : phase.spot.Holds a w)
    (halive : w.dead (σ.config.process a) = false)
    (hfree : c = .lockStore → σ.config.free w w.storeLock = true)
    (hroom : w.drawn.length + phase.draws ≤ 2 ^ 64) (hallows : locking.allows phase c) :
    ∃ answer w', σ.Alone a (perform c) w answer w' := by
  have hcall : ∀ {c : Call} {answer : Answer c} {w' : World},
      respond σ.config a c .proceed w = some (.done answer w') →
        ∃ answer w', σ.Alone a (perform c) w answer w' :=
    fun hrespond => ⟨_, _, alone_call halive hrespond⟩
  have hrecovers : c.Recovers → ∃ answer w', σ.Alone a (perform c) w answer w' := fun hc => by
    obtain ⟨answer, w', halone, _⟩ := alone_recovers halive hc
    exact ⟨answer, w', halone⟩
  have hcreate : ∀ place next, ∃ answer w', createAt w place next = .done answer w' := by
    intro place next
    unfold createAt
    split
    · exact ⟨_, _, rfl⟩
    · split
      · exact ⟨_, _, rfl⟩
      · split <;> exact ⟨_, _, rfl⟩
  cases c with
  | lockStore =>
      have hrespond : respond σ.config a .lockStore .proceed w =
          some (.done (.ok ()) { w with storeLock := some a, entered := w.toShared }) := by
        rw [respond, mayFail]
        exact if_pos (hfree rfl)
      exact hcall hrespond
  | unlockStore outcome => exact hcall rfl
  | transactionId =>
      have hleft : 0 < phase.draws := hallows
      obtain ⟨stamp, hstamp⟩ := exists_stamp (show w.drawn.length < 2 ^ 64 by omega)
      have hrespond : respond σ.config a .transactionId (.stamp stamp) w =
          some (.done stamp.transactionId
            { w with drawn := (a, stamp.transactionId) :: w.drawn }) := by
        refine if_neg fun hany => ?_
        obtain ⟨x, hx, heq⟩ := List.any_eq_true.mp hany
        rw [Bool.and_eq_true, beq_iff_eq] at heq
        exact hstamp x hx heq.1
      exact ⟨_, _, Alone.of_done (alive_iff.mpr halive) (calm_stamp stamp) hrespond⟩
  | createLease file =>
      cases hlease : w.leases.lookup file with
      | none => exact hcall (by rw [respond, mayFail, hlease])
      | some lease => exact hcall (by rw [respond, mayFail, hlease])
  | lockLease file ino =>
      rw [show phase.spot = .fresh file ino from hallows] at hspot
      have hlease : w.leases.lookup file = some ⟨ino, none⟩ := hspot.2
      have hrespond : respond σ.config a (.lockLease file ino) .proceed w =
          some (.done (.ok ()) (w.setLease file ⟨ino, some a⟩)) := by
        rw [respond, mayFail, hlease]
        exact (if_neg (not_not.mpr rfl)).trans (if_pos rfl)
      exact hcall hrespond
  | createDir place =>
      obtain ⟨answer, w', hdone⟩ := hcreate place (.dir [])
      exact hcall (by rw [respond, mayFail, hdone])
  | createNew place =>
      obtain ⟨answer, w', hdone⟩ := hcreate place (.file [] 1)
      exact hcall (by rw [respond, mayFail, hdone])
  | write place bytes => exact hcall rfl
  | rename name hex =>
      cases hstaged : w.node .staging name with
      | none => exact hcall (by rw [respond, mayFail, hstaged])
      | some node =>
          cases hresult : w.node .results hex with
          | none => exact hcall (by rw [respond, mayFail, hstaged, hresult])
          | some found =>
              rcases found with ⟨contents, nlink⟩ | ⟨target⟩ | _ | ⟨_ | ⟨entry, rest⟩⟩
              all_goals exact hcall (by rw [respond, mayFail, hstaged, hresult])
  | build name =>
      have hrespond : respond σ.config a (.build name) (.command .drop) w =
          some (.done .drop w) := rfl
      exact ⟨_, _, Alone.of_done (alive_iff.mpr halive) calm_drop hrespond⟩
  | hold name => exact hcall rfl
  | _ => exact hrecovers trivial

/-- An agent that is not hindered gets to the end of its program by calls of its own. -/
theorem Setting.Runs.finish (hruns : σ.Runs steps s)
    (halive : s.world.dead (σ.config.process a) = false)
    (hlock : s.world.storeLock = some a ∨ σ.config.free s.world s.world.storeLock = true)
    (hroom : s.world.drawn.length + attempts ≤ 2 ^ 64) :
    ∃ more s', (∀ step ∈ more, ∃ choice, step = .act a choice ∧ Choice.Calm choice) ∧
      σ.Runs (steps ++ more) s' ∧ s'.program = Function.update s.program a (.ret ()) ∧
      s'.world.dead = s.world.dead ∧ σ.config.free s'.world s'.world.storeLock = true ∧
      s'.world.drawn.length ≤ s.world.drawn.length + attempts := by
  obtain ⟨phase, hholds, hfollows⟩ := hruns.obeyed a (alive_iff.mpr halive)
  have hstart : Unhindered σ a (s.world.drawn.length + attempts) phase s.world := by
    refine ⟨hholds.spot, fun houtside => hlock.resolve_left fun hmine => ?_, halive,
      Nat.add_le_add_left hholds.draws _⟩
    have hspot := hholds.spot
    rw [houtside] at hspot
    exact hspot hmine
  have hanswer : ∀ phase c w, Unhindered σ a (s.world.drawn.length + attempts) phase w ∧
      w.dead = s.world.dead → locking.allows phase c →
        ∃ answer v, σ.Alone a (perform c) w answer v := by
    rintro phase c w ⟨h, _⟩ hallows
    refine exists_answer h.spot h.alive (fun heq => h.free ?_) (h.room.trans hroom) hallows
    subst heq
    exact hallows
  obtain ⟨x, v, last, halone, houtside, hend, hdead⟩ := Machine.Alone.exists_of_follows
    (fun _ _ _ _ _ _ h hallows hrespond =>
      ⟨unhindered_done h.1 hallows hrespond, (respond_settled hrespond).dead.trans h.2⟩)
    (fun _ _ _ _ _ h _ hrespond =>
      ⟨unhindered_more h.1 hrespond, (respond_settled hrespond).dead.trans h.2⟩)
    hanswer hfollows ⟨hstart, rfl⟩
  obtain ⟨more, hmore, hrun⟩ := halone.exists_run rfl
  refine ⟨more, ⟨v, Function.update s.program a (.ret x)⟩, hmore, ?_, rfl, hdead,
    hend.free houtside, (Nat.le_add_right _ _).trans hend.room⟩
  unfold Setting.Runs at hruns ⊢
  rw [System.run_append, hruns]
  exact hrun

end Alone

/-! ## Nobody is stuck -/

/-- An agent can make a step, with no call made to fail. -/
def Setting.CanGoOn (σ : Setting) (s : StoreState) (a : Agent) : Prop :=
  ∃ choice s', Choice.Calm choice ∧ σ.config.system.step s (.act a choice) = some s'

/-- An agent has come to where it takes the store lock. -/
def AtStoreLock (s : StoreState) (a : Agent) : Prop := ∃ next, s.program a = .call .lockStore next

theorem canGoOn_of_alone {c : Call} {next : Answer c → Act Unit} {answer : Answer c}
    (halive : s.world.dead (σ.config.process a) = false) (hprogram : s.program a = .call c next)
    (h : σ.Alone a (perform c) s.world answer w') : σ.CanGoOn s a := by
  obtain ⟨choice, reply, hcalm, hrespond⟩ := Alone.exists_respond h
  cases reply with
  | done answer w =>
      refine ⟨choice, ⟨w, Function.update s.program a (next answer)⟩, hcalm, ?_⟩
      rw [System.step]
      simp only [alive_iff.mpr halive, if_true, hprogram,
        show σ.config.system.respond a c choice s.world = _ from hrespond]
  | more w =>
      refine ⟨choice, ⟨w, s.program⟩, hcalm, ?_⟩
      rw [System.step]
      simp only [alive_iff.mpr halive, if_true, hprogram,
        show σ.config.system.respond a c choice s.world = _ from hrespond]

/-- A living agent that is not at the store lock, or finds it free, can go on. -/
theorem Setting.Runs.canGoOn (hruns : σ.Runs steps s)
    (halive : s.world.dead (σ.config.process a) = false) (hnot : s.program a ≠ .ret ())
    (hfree : AtStoreLock s a → σ.config.free s.world s.world.storeLock = true)
    (hroom : s.world.drawn.length + attempts ≤ 2 ^ 64) : σ.CanGoOn s a := by
  obtain ⟨phase, hholds, hfollows⟩ := hruns.obeyed a (alive_iff.mpr halive)
  cases hprogram : s.program a with
  | ret x => exact absurd hprogram hnot
  | call c next =>
      rw [hprogram] at hfollows
      have hdraws := hholds.draws
      obtain ⟨answer, w', halone⟩ := exists_answer hholds.spot halive
        (fun heq => hfree ⟨heq ▸ next, by subst heq; exact hprogram⟩) (by omega) hfollows.1
      exact canGoOn_of_alone halive hprogram halone

/-- Who lives and has the store lock is past where it was taken, and not at its end. -/
theorem Setting.Runs.inside (hruns : σ.Runs steps s) (hlock : s.world.storeLock = some a)
    (halive : s.world.dead (σ.config.process a) = false) :
    s.program a ≠ .ret () ∧ ¬ AtStoreLock s a := by
  obtain ⟨phase, hholds, hfollows⟩ := hruns.obeyed a (alive_iff.mpr halive)
  have hnot : phase.spot ≠ .outside := fun houtside => by
    have hspot := hholds.spot
    rw [houtside] at hspot
    exact hspot hlock
  refine ⟨fun hend => ?_, ?_⟩
  · rw [hend] at hfollows
    exact hnot hfollows
  · rintro ⟨next, hprogram⟩
    rw [hprogram] at hfollows
    exact hnot hfollows.1

/-- When the store lock is free, agents can be brought to their end one after another. -/
theorem Setting.Runs.finish_all (agents : List Agent) (hruns : σ.Runs steps s)
    (hfree : σ.config.free s.world s.world.storeLock = true)
    (hroom : s.world.drawn.length + attempts * agents.length ≤ 2 ^ 64) :
    ∃ more s', (∀ step ∈ more, ∃ a choice, step = .act a choice ∧ Choice.Calm choice) ∧
      σ.Runs (steps ++ more) s' ∧ (∀ a, s.program a = .ret () → s'.program a = .ret ()) ∧
      ∀ a ∈ agents, s.world.dead (σ.config.process a) = false → s'.program a = .ret () := by
  induction agents generalizing s steps with
  | nil =>
      refine ⟨[], s, fun step hstep => absurd hstep List.not_mem_nil, ?_, fun _ h => h,
        fun a ha => absurd ha List.not_mem_nil⟩
      rw [List.append_nil]
      exact hruns
  | cons first rest ih =>
      rw [List.length_cons, Nat.mul_succ] at hroom
      cases hfirst : s.world.dead (σ.config.process first) with
      | true =>
          obtain ⟨more, s', hmore, hruns', hkept, hdone⟩ := ih hruns hfree (by omega)
          refine ⟨more, s', hmore, hruns', hkept, fun a ha halive => ?_⟩
          rcases List.mem_cons.mp ha with rfl | ha
          · cases hfirst.symm.trans halive
          · exact hdone a ha halive
      | false =>
          obtain ⟨front, mid, hfront, hmid, hprogram, hdead, hfree', hlength⟩ :=
            hruns.finish hfirst (.inr hfree) (by omega)
          obtain ⟨back, s', hback, hruns', hkept, hdone⟩ := ih hmid hfree' (by omega)
          have hfinished : ∀ a, s.program a = .ret () ∨ a = first → s'.program a = .ret () := by
            intro a ha
            refine hkept a ?_
            rw [hprogram, Function.update_apply]
            split
            · rfl
            · rename_i hne
              exact ha.resolve_right hne
          refine ⟨front ++ back, s', fun step hstep => ?_, ?_, fun a h => hfinished a (.inl h),
            fun a ha halive => ?_⟩
          · rcases List.mem_append.mp hstep with hstep | hstep
            · obtain ⟨choice, heq, hcalm⟩ := hfront step hstep
              exact ⟨first, choice, heq, hcalm⟩
            · exact hback step hstep
          · rw [← List.append_assoc]
            exact hruns'
          · rcases List.mem_cons.mp ha with rfl | ha
            · exact hfinished a (.inr rfl)
            · refine hdone a ha ?_
              rw [hdead]
              exact halive

/-- In every state that is reached, an agent that lives and has not come to its end can go on,
or it is at the store lock and another has it who lives and can go on.  And all the living can
be brought to their end by calls none of which fails.  The counters have room for the draws of
those agents, and for as many once more; calls may have failed and processes died before. -/
theorem nobody_stuck (hruns : σ.Runs steps s) (agents : List Agent)
    (hroom : s.world.drawn.length + attempts * (agents.length + 1) ≤ 2 ^ 64) :
    (∀ a, s.world.dead (σ.config.process a) = false → s.program a ≠ .ret () →
      σ.CanGoOn s a ∨ AtStoreLock s a ∧ ∃ b, b ≠ a ∧ s.world.storeLock = some b ∧
        s.world.dead (σ.config.process b) = false ∧ σ.CanGoOn s b) ∧
    ∃ more s', (∀ step ∈ more, ∃ a choice, step = .act a choice ∧ Choice.Calm choice) ∧
      σ.Runs (steps ++ more) s' ∧
      ∀ a ∈ agents, s.world.dead (σ.config.process a) = false → s'.program a = .ret () := by
  rw [Nat.mul_succ] at hroom
  have hgoes : ∀ b, s.world.storeLock = some b → s.world.dead (σ.config.process b) = false →
      σ.CanGoOn s b := fun b hlock halive =>
    hruns.canGoOn halive (hruns.inside hlock halive).1
      (fun hat => absurd hat (hruns.inside hlock halive).2) (by omega)
  have hholder : σ.config.free s.world s.world.storeLock = true ∨
      ∃ b, s.world.storeLock = some b ∧ s.world.dead (σ.config.process b) = false := by
    cases hlock : s.world.storeLock with
    | none => exact .inl rfl
    | some b =>
        cases hdead : s.world.dead (σ.config.process b) with
        | true => exact .inl hdead
        | false => exact .inr ⟨b, rfl, hdead⟩
  refine ⟨fun a halive hnot => ?_, ?_⟩
  · rcases hholder with hfree | ⟨b, hlock, hb⟩
    · exact .inl (hruns.canGoOn halive hnot (fun _ => hfree) (by omega))
    · by_cases hat : AtStoreLock s a
      · refine .inr ⟨hat, b, fun heq => ?_, hlock, hb, hgoes b hlock hb⟩
        subst heq
        exact (hruns.inside hlock hb).2 hat
      · exact .inl (hruns.canGoOn halive hnot (fun h => absurd h hat) (by omega))
  · rcases hholder with hfree | ⟨b, hlock, hb⟩
    · obtain ⟨more, s', hmore, hruns', _, hdone⟩ := hruns.finish_all agents hfree (by omega)
      exact ⟨more, s', hmore, hruns', hdone⟩
    · -- who has it comes first
      obtain ⟨front, mid, hfront, hmid, hprogram, hdead, hfree, hlength⟩ :=
        hruns.finish hb (.inl hlock) (by omega)
      obtain ⟨back, s', hback, hruns', _, hdone⟩ := hmid.finish_all agents hfree (by omega)
      refine ⟨front ++ back, s', fun step hstep => ?_, ?_, fun a ha halive => ?_⟩
      · rcases List.mem_append.mp hstep with hstep | hstep
        · obtain ⟨choice, heq, hcalm⟩ := hfront step hstep
          exact ⟨b, choice, heq, hcalm⟩
        · exact hback step hstep
      · rw [← List.append_assoc]
        exact hruns'
      · refine hdone a ha ?_
        rw [hdead]
        exact halive

/-- `nobody_stuck` where a recovery waits for a builder that begins. -/
theorem nobody_stuck_waiting : ∃ s : StoreState,
    (playSetting workersAndRecovery).Runs (goesOn 0 16 ++ goesOn 1 15) s ∧
      (playSetting workersAndRecovery).CanGoOn s 0 ∧
      ∃ more s', (playSetting workersAndRecovery).Runs (goesOn 0 16 ++ goesOn 1 15 ++ more) s' ∧
        s'.program 0 = .ret () ∧ s'.program 1 = .ret () := by
  have hplay : (playSetting workersAndRecovery).play (goesOn 0 16 ++ goesOn 1 15)
      (fun w => (w.storeLock, w.drawn.length, w.dead 0, w.dead 1)) =
        some (some 0, 0, false, false) := by
    decide +kernel
  obtain ⟨s, hruns, hseen⟩ := Setting.Runs.of_play hplay
  simp only [Prod.mk.injEq] at hseen
  obtain ⟨hlock, hdrawn, hzero, hone⟩ := hseen
  obtain ⟨hgoes, more, s', _, hruns', hdone⟩ := nobody_stuck hruns [0, 1] (by
    rw [hdrawn]
    decide)
  refine ⟨s, hruns, ?_, more, s', hruns', hdone 0 List.mem_cons_self hzero,
    hdone 1 (List.mem_cons_of_mem _ List.mem_cons_self) hone⟩
  refine (hgoes 0 hzero (hruns.inside hlock hzero).1).resolve_right ?_
  rintro ⟨hat, _⟩
  exact (hruns.inside hlock hzero).2 hat

end Prep.Store
