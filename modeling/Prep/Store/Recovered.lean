/-
  Store/Recovered.lean --- what `Store::recover_abandoned` leaves, over whole runs.

  No recovery harms live work, and in a run without failing calls it leaves no staged
  work behind but what others hold.  A recovery insists on a lease for every staged
  directory.  In a run that never takes a lease away under which something is staged it
  succeeds, and comes to its end if it is left alone; `Drop` takes the lease away even if
  its `remove_dir_all` has failed, and then no recovery succeeds any more.

  An agent is one handle of the store and what is done with it; whoever writes into the
  directories of the store without a handle is left out.  A process that dies lets its
  locks go and leaves its files as they are.
-/
import Prep.Fs.Removal
import Prep.Store.Pairing

set_option autoImplicit false

namespace Prep.Store

open Prep.Machine
open Prep.Text
open Prep.Fs (Node Path)
open Prep.Io (IoError)

variable {σ : Setting} {a b : Agent} {s s' : StoreState} {steps : List StoreStep} {w w' : World}

/-! ## Recoveries among others -/

/-- A lease that somebody else, alive when a visit began, held from its beginning to its
end. -/
def HeldThrough (config : Config) (visit : Visit) (file : Bytes) : Prop :=
  ∃ ino holder, holder ≠ visit.agent ∧ visit.before.dead (config.process holder) = false ∧
    visit.before.lease file = some ⟨ino, some holder⟩ ∧
    visit.after.lease file = some ⟨ino, some holder⟩

theorem HeldSince.heldThrough {visit : Visit} {file : Bytes} (hfree : w.FaultFree)
    (h : HeldSince σ.config w.faulted visit.agent visit.before visit.after file) :
    HeldThrough σ.config visit file := by
  obtain ⟨ino, holder, hne, hbefore, halive, hafter⟩ := h
  refine ⟨ino, holder, hne, halive, hbefore, hafter.resolve_right fun hfault => ?_⟩
  exact Bool.false_ne_true ((hfree holder).symm.trans hfault.2)

/-- A recovery none of whose calls has failed succeeds if what was staged had its lease, and
leaves what others have held all along. -/
theorem recovered_of_paired {codec : MetadataCodec} {config : Config} {faulted : Agent → Bool}
    {visit : Visit} (hkept : visit.Kept codec config faulted) (hpaired : visit.before.Paired)
    {result : Except StoreError Nat} (houtcome : visit.outcome = .recovered result)
    (hcalm : faulted visit.agent = false) :
    (∃ count, result = .ok count) ∧
      (∀ area id, visit.after.StagedIn area id →
        HeldSince config faulted visit.agent visit.before visit.after (leaseFile id)) ∧
      ∀ file, (visit.after.lease file).isSome = true →
        HeldSince config faulted visit.agent visit.before visit.after file := by
  obtain ⟨_, hkept⟩ := hkept
  rw [houtcome] at hkept
  obtain ⟨_, hkept⟩ := hkept
  cases result with
  | error e =>
      rcases hkept with hfault | hnot
      · exact absurd (hcalm.symm.trans hfault) Bool.false_ne_true
      · exact absurd hpaired hnot
  | ok count =>
      obtain ⟨hstaged, hleases⟩ := hkept hpaired
      refine ⟨⟨count, rfl⟩, hstaged, fun file hfile => ?_⟩
      rcases hleases file hfile with ⟨area, id, rfl, hid⟩ | hheld
      · exact hstaged area id hid
      · exact hheld

/-- However agents take turns and wherever processes die, a recovery in a run without failing
calls succeeds, changes no result and no cached source, and leaves the staged work and the
leases that others have held all along, and no others. -/
theorem recovery_spares_liveWork (hruns : σ.Runs steps s) (hsteps : Faultless steps)
    {visit : Visit} (hvisit : visit ∈ s.world.visits) {result : Except StoreError Nat}
    (houtcome : visit.outcome = .recovered result) :
    (∃ count, result = .ok count) ∧ visit.before.SameIn .results visit.after ∧
      visit.before.SameIn .sources visit.after ∧
      (∀ area id, visit.after.StagedIn area id → HeldThrough σ.config visit (leaseFile id)) ∧
      ∀ file, (visit.after.lease file).isSome = true → HeldThrough σ.config visit file := by
  have hfree := hruns.faultFree hsteps
  have hpaired := ((hruns.matched (hruns.keepsPairs hsteps)).visits visit hvisit).1
  have hkept := hruns.good.1.visits visit hvisit
  obtain ⟨hok, hstaged, hleases⟩ := recovered_of_paired hkept hpaired houtcome (hfree visit.agent)
  obtain ⟨hsources, hkept⟩ := hkept
  rw [houtcome] at hkept
  exact ⟨hok, hkept.1, hsources, fun area id hid => (hstaged area id hid).heldThrough hfree,
    fun file hfile => (hleases file hfile).heldThrough hfree⟩

/-- Whether a recovery has succeeded. -/
def Outcome.recoveredOk : Outcome → Option Bool
  | .recovered (.ok _) => some true
  | .recovered (.error _) => some false
  | _ => none

theorem Outcome.eq_of_recoveredOk {outcome : Outcome} {ok : Bool}
    (h : outcome.recoveredOk = some ok) :
    ∃ result, outcome = .recovered result ∧ result.toOption.isSome = ok := by
  unfold Outcome.recoveredOk at h
  split at h <;> cases h
  · exact ⟨_, rfl, rfl⟩
  · exact ⟨_, rfl, rfl⟩

/-- What is seen of the last visit after a run. -/
theorem exists_lastVisit {α : Type} {see : World → Visit → α} {seen : α}
    (h : σ.play steps (fun w => w.visits.getLast?.map (see w)) = some (some seen)) :
    ∃ s, σ.Runs steps s ∧ ∃ visit ∈ s.world.visits, see s.world visit = seen := by
  obtain ⟨s, hruns, hseen⟩ := Setting.Runs.of_play h
  obtain ⟨visit, hlast, heq⟩ := Option.map_eq_some_iff.mp hseen
  exact ⟨s, hruns, visit, List.mem_of_getLast? hlast, heq⟩

theorem play_building : (playSetting workersAndRecovery).play (beginsAs 0 playStamp ++ goesOn 1 31)
    (fun w => w.visits.getLast?.map fun visit => (visit.outcome.recoveredOk,
      (visit.after.node .staging playStamp.transactionId).isSome)) =
      some (some (some true, true)) := by
  decide +kernel

theorem faultless_building : Faultless (beginsAs 0 playStamp ++ goesOn 1 31) := by decide +kernel

/-- `recovery_spares_liveWork` where a recovery comes while a builder works. -/
theorem recovery_spares_liveWork_building : ∃ s : StoreState,
    (playSetting workersAndRecovery).Runs (beginsAs 0 playStamp ++ goesOn 1 31) s ∧
      ∃ visit ∈ s.world.visits, HeldThrough (playSetting workersAndRecovery).config visit
        (leaseFile playStamp.transactionId) := by
  obtain ⟨s, hruns, visit, hvisit, hseen⟩ := exists_lastVisit play_building
  obtain ⟨hok, hstaged⟩ := Prod.mk.inj hseen
  obtain ⟨result, houtcome, _⟩ := Outcome.eq_of_recoveredOk hok
  exact ⟨s, hruns, visit, hvisit, (recovery_spares_liveWork hruns faultless_building hvisit
    houtcome).2.2.2.1 .staging _ ⟨rfl, hstaged⟩⟩

/-- A lease that somebody else holds when a visit ends: alive, or dead only since it began. -/
def HeldAtEnd (config : Config) (visit : Visit) (file : Bytes) : Prop :=
  ∃ ino holder, holder ≠ visit.agent ∧ visit.after.lease file = some ⟨ino, some holder⟩ ∧
    (visit.after.dead (config.process holder) = true →
      visit.before.dead (config.process holder) = false)

theorem HeldThrough.atEnd {config : Config} {visit : Visit} {file : Bytes}
    (h : HeldThrough config visit file) : HeldAtEnd config visit file := by
  obtain ⟨ino, holder, hne, halive, _, hafter⟩ := h
  exact ⟨ino, holder, hne, hafter, fun _ => halive⟩

/-- No step of a recovery changes a published result, a cached source, a lease that a living
agent holds, or what is staged under it: so in every run, whatever fails and whoever dies.  Where
no call fails, a recovery that returns `Ok` leaves a staged directory or a lease file only where
another agent holds the lease, whose process can have died only while the recovery was under
way. -/
theorem recovery_harms_nothing (hruns : σ.Runs steps s) :
    (∀ a choice s', σ.clients a = .recovery →
      σ.config.system.step s (.act a choice) = some s' →
        s.world.SameIn .results s'.world.toShared ∧ s.world.SameIn .sources s'.world.toShared ∧
        ∀ b id ino, b ≠ a → s.world.dead (σ.config.process b) = false →
          s.world.lease (leaseFile id) = some ⟨ino, some b⟩ →
            s'.world.lease (leaseFile id) = some ⟨ino, some b⟩ ∧
            ∀ area, area.isStaging = true → s'.world.node area id = s.world.node area id) ∧
    (Faultless steps → ∀ visit ∈ s.world.visits, ∀ count, visit.outcome = .recovered (.ok count) →
      (∀ area id, visit.after.StagedIn area id → HeldAtEnd σ.config visit (leaseFile id)) ∧
      ∀ file, (visit.after.lease file).isSome = true → HeldAtEnd σ.config visit file) := by
  refine ⟨fun a choice s' hclient hstep => ?_, fun hsteps visit hvisit count houtcome => ?_⟩
  · rcases step_effect hruns.good hstep with ⟨_, hact, _⟩ | ⟨_, _, hact, ha, heffect⟩
    · cases hact
    · cases hact
      have helsewhere : σ.clients a ≠ .transaction := by
        rw [hclient]
        exact nofun
      refine ⟨effect_elsewhere heffect helsewhere rfl, effect_elsewhere heffect helsewhere rfl,
        fun b id ino hne hb hlease => ?_⟩
      have hrely : Rely b s.world s'.world := rely_effect hne hruns.good.1 hb ha heffect
      exact ⟨(hrely.lease _ _).mpr hlease, fun area harea => hrely.node area id harea ⟨ino, hlease⟩⟩
  · have hfree := hruns.faultFree hsteps
    have hpaired := ((hruns.matched (hruns.keepsPairs hsteps)).visits visit hvisit).1
    obtain ⟨_, hstaged, hleases⟩ := recovered_of_paired (hruns.good.1.visits visit hvisit) hpaired
      houtcome (hfree visit.agent)
    exact ⟨fun area id hid => ((hstaged area id hid).heldThrough hfree).atEnd,
      fun file hfile => ((hleases file hfile).heldThrough hfree).atEnd⟩

/-- A builder goes on while a recovery comes and goes. -/
theorem recovery_harms_nothing_building : ∃ s : StoreState,
    (playSetting workersAndRecovery).Runs (beginsAs 0 playStamp ++ goesOn 1 31) s ∧
      ∃ visit ∈ s.world.visits, ∃ count, visit.outcome = .recovered (.ok count) ∧
        visit.after.StagedIn .staging playStamp.transactionId ∧
        HeldAtEnd (playSetting workersAndRecovery).config visit
          (leaseFile playStamp.transactionId) := by
  obtain ⟨s, hruns, visit, hvisit, hseen⟩ := exists_lastVisit play_building
  obtain ⟨hok, hsome⟩ := Prod.mk.inj hseen
  have hstaged : visit.after.StagedIn .staging playStamp.transactionId := ⟨rfl, hsome⟩
  obtain ⟨result, houtcome, hresult⟩ := Outcome.eq_of_recoveredOk hok
  cases result with
  | error e => cases hresult
  | ok count =>
      exact ⟨s, hruns, visit, hvisit, count, houtcome, hstaged,
        ((recovery_harms_nothing hruns).2 faultless_building visit hvisit count houtcome).1
          .staging _ hstaged⟩

/-- The process of a builder dies after a recovery has found its lease held. -/
def dyingRun : List StoreStep :=
  beginsAs 0 playStamp ++ (goesOn 1 26 ++ .event 0 :: goesOn 1 5)

theorem play_dying : (playSetting workersAndRecovery).play dyingRun (fun w =>
    w.visits.getLast?.map fun visit => (visit.outcome.recoveredOk,
      (visit.after.node .staging playStamp.transactionId).isSome,
      visit.after.lease (leaseFile playStamp.transactionId), visit.after.dead 0)) =
      some (some (some true, true, some ⟨0, some 0⟩, true)) := by
  decide +kernel

/-- What such a recovery leaves, nobody holds any more. -/
theorem dying_holder_left : ¬ ∀ (σ : Setting) (steps : List StoreStep) (s : StoreState),
    σ.Runs steps s → Faultless steps → ∀ visit ∈ s.world.visits, ∀ count,
      visit.outcome = .recovered (.ok count) → ∀ area id, visit.after.StagedIn area id →
        ∃ ino holder, visit.after.lease (leaseFile id) = some ⟨ino, some holder⟩ ∧
          visit.after.dead (σ.config.process holder) = false := by
  intro h
  obtain ⟨s, hruns, visit, hvisit, hseen⟩ := exists_lastVisit play_dying
  simp only [Prod.mk.injEq] at hseen
  obtain ⟨hok, hstaged, hlease, hdead⟩ := hseen
  obtain ⟨result, houtcome, hresult⟩ := Outcome.eq_of_recoveredOk hok
  cases result with
  | error e => cases hresult
  | ok count =>
      have hsteps : Faultless dyingRun := by decide +kernel
      obtain ⟨ino, holder, hheld, halive⟩ := h _ _ s hruns hsteps visit hvisit count houtcome
        .staging _ ⟨rfl, hstaged⟩
      cases hlease.symm.trans hheld
      exact Bool.false_ne_true (halive.symm.trans hdead)

/-! ## A recovery alone -/

/-- A choice that lets no call fail. -/
def Choice.Calm (choice : Choice) : Prop := choice.isFault = false

theorem calm_proceed : Choice.Calm .proceed := rfl

theorem calm_delete (below : Path) : Choice.Calm (.delete below) := rfl

/-- What an agent under the store lock leaves as it is. -/
structure Within (w w' : World) : Prop where
  storeLock : w'.storeLock = w.storeLock
  entered : w'.entered = w.entered
  visits : w'.visits = w.visits
  dead : w'.dead = w.dead
  faulted : w'.faulted = w.faulted

theorem within_refl (w : World) : Within w w := ⟨rfl, rfl, rfl, rfl, rfl⟩

theorem Within.trans {u : World} (h : Within w w') (h' : Within w' u) : Within w u :=
  ⟨h'.storeLock.trans h.storeLock, h'.entered.trans h.entered, h'.visits.trans h.visits,
    h'.dead.trans h.dead, h'.faulted.trans h.faulted⟩

theorem within_release (w : World) (a : Agent) (file : Bytes) (ino : Nat) :
    Within w (w.release a file ino) := by
  unfold World.release
  split <;> exact ⟨rfl, rfl, rfl, rfl, rfl⟩

/-- A program of an agent comes to its end with nobody else doing anything. -/
abbrev Setting.Alone (σ : Setting) (a : Agent) {α : Type} (p : Act α) (w : World) (x : α)
    (w' : World) : Prop :=
  Machine.Alone σ.config.system Choice.Calm a p w x w'

/-- The calls a recovery makes between taking the store lock and letting it go. -/
def Call.Recovers : Call → Prop
  | .quiet _ | .statLease _ | .openLease _ | .tryLockLease _ _ | .removeLease _
  | .unlockLease _ _ | .closeLease _ _ | .readLeases | .readNames _ | .removeDirAll _ _
  | .read _ | .canonicalize _ => True
  | _ => False

section Calls

variable (halive : w.dead (σ.config.process a) = false)

include halive

theorem alone_call {c : Call} {answer : Answer c}
    (h : respond σ.config a c .proceed w = some (.done answer w')) :
    σ.Alone a (perform c) w answer w' :=
  Alone.of_done (alive_iff.mpr halive) calm_proceed h

/-- `remove_dir_all` comes to an end: every step takes a leaf. -/
theorem alone_removeDirAll (area : Area) (id : Bytes) :
    ∃ answer w', σ.Alone a (perform (.removeDirAll area id)) w answer w' ∧ Within w w' := by
  induction hsize : ((w.node area id).map Node.size).getD 0 using Nat.strong_induction_on
    generalizing w with
  | _ size ih =>
      have hdone : ∀ answer w', removeStep a w area id .proceed = some (.done answer w') →
          Within w w' → ∃ answer w',
            σ.Alone a (perform (.removeDirAll area id)) w answer w' ∧ Within w w' :=
        fun answer w' hstep hwithin => ⟨answer, w', alone_call halive hstep, hwithin⟩
      cases hnode : w.node area id with
      | none => exact hdone (.error .notFound) w (by rw [removeStep, hnode]) (within_refl w)
      | some node =>
          rcases node with ⟨contents, nlink⟩ | ⟨target⟩ | _ | ⟨_ | ⟨entry, rest⟩⟩
          · exact hdone (.error (.other 20)) w (by rw [removeStep, hnode]) (within_refl w)
          · exact hdone (.error (.other 20)) w (by rw [removeStep, hnode]) (within_refl w)
          · exact hdone (.error (.other 20)) w (by rw [removeStep, hnode]) (within_refl w)
          · exact hdone (.ok ()) (w.eraseNode area id) (by rw [removeStep, hnode])
              ⟨rfl, rfl, rfl, rfl, rfl⟩
          · obtain ⟨below, hleaf, hne⟩ := Node.exists_leaf (.dir (entry :: rest))
            have hbelow := hne rfl
            have hstep : respond σ.config a (.removeDirAll area id) (.delete below) w =
                some (.more (w.setNode area id ((Node.dir (entry :: rest)).removeAt below))) := by
              rw [respond, removeStep, hnode]
              exact if_pos ⟨hbelow, hleaf⟩
            have hsome : ((Node.dir (entry :: rest)).get? below).isSome = true := by
              cases hget : (Node.dir (entry :: rest)).get? below with
              | none =>
                  rw [hget] at hleaf
                  cases hleaf
              | some found => rfl
            have hsmaller := Node.size_removeAt_lt hbelow hsome
            have hset : Within w (w.setNode area id ((Node.dir (entry :: rest)).removeAt below)) :=
              ⟨rfl, rfl, rfl, rfl, rfl⟩
            obtain ⟨answer, w', hrest, hwithin⟩ := ih _ (by
              rw [← hsize, hnode, World.node_setNode, if_pos ⟨rfl, rfl⟩]
              exact hsmaller) (w := w.setNode area id _) halive rfl
            exact ⟨answer, w', .more (alive_iff.mpr halive) (calm_delete below) hstep hrest,
              hset.trans hwithin⟩

/-- Each call of a recovery can be answered. -/
theorem alone_recovers {c : Call} (hc : c.Recovers) :
    ∃ answer w', σ.Alone a (perform c) w answer w' ∧ Within w w' := by
  cases c with
  | quiet call => exact ⟨_, w, alone_call halive rfl, within_refl w⟩
  | readLeases => exact ⟨_, w, alone_call halive rfl, within_refl w⟩
  | readNames area => exact ⟨_, w, alone_call halive rfl, within_refl w⟩
  | unlockLease file ino => exact ⟨_, _, alone_call halive rfl, within_release w a file ino⟩
  | closeLease file ino => exact ⟨_, _, alone_call halive rfl, within_release w a file ino⟩
  | removeDirAll area id => exact alone_removeDirAll halive area id
  | statLease file | openLease file =>
      cases hlease : w.leases.lookup file with
      | none => exact ⟨.error .notFound, w, alone_call halive (by rw [respond, mayFail, hlease]),
          within_refl w⟩
      | some lease => exact ⟨.ok lease.ino, w, alone_call halive (by rw [respond, mayFail, hlease]),
          within_refl w⟩
  | removeLease file =>
      cases hlease : w.leases.lookup file with
      | none => exact ⟨.error .notFound, w, alone_call halive (by rw [respond, mayFail, hlease]),
          within_refl w⟩
      | some lease => exact ⟨.ok (), w.eraseLease file,
          alone_call halive (by rw [respond, mayFail, hlease]), ⟨rfl, rfl, rfl, rfl, rfl⟩⟩
  | tryLockLease file ino =>
      cases hlease : w.leases.lookup file with
      | none => exact ⟨.ok true, w, alone_call halive (by rw [respond, mayFail, hlease]),
          within_refl w⟩
      | some lease =>
          by_cases hino : lease.ino ≠ ino
          · exact ⟨.ok true, w, alone_call halive (by
              rw [respond, mayFail, hlease]
              exact if_pos hino), within_refl w⟩
          · cases hfree : σ.config.free w lease.holder with
            | true => exact ⟨.ok true, w.setLease file ⟨ino, some a⟩, alone_call halive (by
                rw [respond, mayFail, hlease]
                exact (if_neg hino).trans (if_pos hfree)), ⟨rfl, rfl, rfl, rfl, rfl⟩⟩
            | false => exact ⟨.ok false, w, alone_call halive (by
                rw [respond, mayFail, hlease]
                exact (if_neg hino).trans (if_neg (Bool.eq_false_iff.mp hfree))), within_refl w⟩
  | read place | canonicalize place =>
      cases hnode : w.at? place with
      | none => exact ⟨.error .notFound, w, alone_call halive (by rw [respond, mayFail, hnode]),
          within_refl w⟩
      | some node => exact ⟨.ok _, w, alone_call halive (by rw [respond, mayFail, hnode]),
          within_refl w⟩
  | _ => cases hc

end Calls

/-! ## The calls of a recovery -/

section Only

theorem only_orIo {ok : Call → Prop} {α : Type} (operation : String) (path : Path)
    {act : Act (Except IoError α)} (h : act.Only ok) :
    Program.Only ok (orIo operation path act).run := by
  refine Program.Only.bind h fun result => ?_
  cases result <;> exact Program.only_ret _

theorem recovers_nodeExists (place : Place) :
    Program.Only Call.Recovers (nodeExists place).run := by
  refine Program.Only.bind (Program.only_perform trivial) fun result => ?_
  rcases result with ⟨source⟩ | ⟨node⟩
  · cases source <;> exact Program.only_ret _
  · exact Program.only_ret _

theorem recovers_verifyRealDirectoryWithin (place : Place) (label : String) :
    Program.Only Call.Recovers (verifyRealDirectoryWithin place label).run := by
  refine Program.Only.bindE (Program.Only.bindE
    (only_orIo _ _ (Program.only_perform trivial)) fun node => ?_) fun _ =>
      only_orIo _ _ (Program.only_perform trivial)
  split <;> exact Program.only_ret _

theorem recovers_verifyOpenFileIdentity (file : Bytes) (ino : Nat) :
    Program.Only Call.Recovers (verifyOpenFileIdentity file ino).run := by
  refine Program.Only.bindE (only_orIo _ _ (Program.only_perform trivial)) fun found => ?_
  refine Program.Only.bindE (only_orIo _ _ (Program.only_perform trivial)) fun _ => ?_
  split <;> exact Program.only_ret _

theorem recovers_openExistingLockFile (file : Bytes) :
    Program.Only Call.Recovers (openExistingLockFile file).run :=
  Program.Only.bindE (only_orIo _ _ (Program.only_perform trivial)) fun _ =>
    Program.Only.bindE (only_orIo _ _ (Program.only_perform trivial)) fun _ =>
      Program.Only.bindE (recovers_verifyOpenFileIdentity _ _) fun _ => Program.only_ret _

theorem recovers_releaseAndRemoveLockFile (file : Bytes) (ino : Nat) :
    (releaseAndRemoveLockFile file ino).Only Call.Recovers := by
  refine Program.Only.bind (Program.Only.bindE (recovers_verifyOpenFileIdentity _ _) fun _ => ?_)
    fun result => Program.Only.bind (Program.only_perform trivial) fun _ => Program.only_ret _
  exact Program.Only.bindE (only_orIo _ _ (Program.only_perform trivial)) fun _ =>
    only_orIo _ _ (Program.only_perform trivial)

theorem recovers_removeAbandoned (area : Area) (name : Bytes) (ino : Nat) :
    (removeAbandoned area name ino).Only Call.Recovers := by
  refine Program.Only.bind (Program.only_perform trivial) fun locked => ?_
  rcases locked with source | _ | _
  · exact Program.only_ret _
  · exact Program.only_ret _
  · refine Program.Only.bind (Program.only_perform trivial) fun removed => ?_
    cases removed with
    | error source =>
        exact Program.Only.bind (Program.only_perform trivial) fun _ => Program.only_ret _
    | ok _ =>
        refine Program.Only.bind (recovers_releaseAndRemoveLockFile _ _) fun released => ?_
        cases released <;> exact Program.only_ret _

theorem recovers_recoverEntry (area : Area) (name : Bytes) :
    Program.Only Call.Recovers (recoverEntry area name).run := by
  refine Program.Only.bindE (only_orIo _ _ (Program.only_perform trivial)) fun _ => ?_
  refine Program.Only.bindE (only_orIo _ _ (Program.only_perform trivial)) fun node => ?_
  split
  · exact Program.only_ret _
  · split
    · exact Program.only_ret _
    · split
      · exact Program.only_ret _
      · exact Program.Only.bindE (recovers_verifyRealDirectoryWithin _ _) fun _ =>
          Program.Only.bindE (recovers_openExistingLockFile _) fun ino =>
            recovers_removeAbandoned area name ino

theorem recovers_recoverEntries (area : Area) (recovered : Nat) (names : List Bytes) :
    Program.Only Call.Recovers (recoverEntries area recovered names).run := by
  induction names generalizing recovered with
  | nil => exact Program.only_ret _
  | cons name rest ih => exact Program.Only.bindE (recovers_recoverEntry area name) fun _ => ih _

theorem recovers_recoverStagingRoot (area : Area) :
    Program.Only Call.Recovers (recoverStagingRoot area).run :=
  Program.Only.bindE (only_orIo _ _ (Program.only_perform trivial)) fun names =>
    recovers_recoverEntries area 0 names

theorem recovers_removeOrphan (file : Bytes) :
    Program.Only Call.Recovers (removeOrphan file).run := by
  refine Program.Only.bindE (only_orIo _ _ (Program.only_perform trivial)) fun _ => ?_
  split
  · exact Program.only_ret _
  · split
    · exact Program.only_ret _
    · split
      · exact Program.only_ret _
      · refine Program.Only.bindE (recovers_nodeExists _) fun staged => ?_
        split
        · exact Program.only_ret _
        · refine Program.Only.bindE (recovers_nodeExists _) fun staged => ?_
          split
          · exact Program.only_ret _
          · refine Program.Only.bindE (recovers_openExistingLockFile file) fun ino => ?_
            refine Program.Only.bind (Program.only_perform trivial) fun locked => ?_
            rcases locked with source | _ | _
            · exact Program.only_ret _
            · exact Program.only_ret _
            · exact recovers_releaseAndRemoveLockFile file ino

theorem recovers_removeOrphans (files : List Bytes) :
    Program.Only Call.Recovers (removeOrphans files).run := by
  induction files with
  | nil => exact Program.only_ret _
  | cons file rest ih => exact Program.Only.bindE (recovers_removeOrphan file) fun _ => ih

end Only

/-! ## The whole recovery -/

section Whole

theorem alone_orIo {α : Type} {x : α} {act : Act (Except IoError α)} (operation : String)
    (path : Path) (h : σ.Alone a act w (.ok x) w') :
    σ.Alone a (orIo operation path act).run w (.ok x) w' := by
  unfold orIo
  exact Alone.bind h (.ret _ _)

variable (halive : w.dead (σ.config.process a) = false)

include halive

theorem alone_quietOp (operation : String) (path : Path) (call : Quiet) :
    σ.Alone a (orIo operation path (perform (.quiet call))).run w (.ok ()) w :=
  alone_orIo _ _ (alone_call halive rfl)

theorem alone_verifyDirectories (paths : List Path) :
    σ.Alone a (verifyDirectories paths).run w (.ok ()) w := by
  induction paths with
  | nil => exact .ret _ w
  | cons path rest ih =>
      exact (alone_quietOp halive _ _ _).bindE ((alone_quietOp halive _ _ _).bindE ih)

/-- Taking a store lock that is free. -/
theorem alone_lockStore (hfree : σ.config.free w w.storeLock = true) :
    σ.Alone a lockStore.run w (.ok ()) { w with storeLock := some a, entered := w.toShared } := by
  have hlock : respond σ.config a .lockStore .proceed w =
      some (.done (.ok ()) { w with storeLock := some a, entered := w.toShared }) := by
    rw [respond, mayFail]
    exact if_pos hfree
  have hverify : σ.Alone a verifyLayout.run w (.ok ()) w :=
    (alone_quietOp halive _ _ _).bindE (alone_verifyDirectories halive _)
  have hopen : σ.Alone a openLockFile.run w (.ok ()) w :=
    (alone_quietOp halive _ _ _).bindE ((alone_quietOp halive _ _ _).bindE
      ((alone_quietOp halive _ _ _).bindE (alone_quietOp halive _ _ _)))
  refine hverify.bindE (hopen.bindE ?_)
  exact alone_orIo _ _ (alone_call halive hlock)

/-- A recovery that takes a free store lock comes to an end, and says what it has come to. -/
theorem alone_recovery (hfree : σ.config.free w w.storeLock = true) :
    ∃ result w', σ.Alone a (Client.recovery.program σ.codec) w () w' ∧
      w'.visits = w.visits ++ [⟨a, .recovered result, w.toShared, w'.toShared⟩] ∧
      w'.dead = w.dead ∧ w'.faulted = w.faulted := by
  have hbody : Program.Only Call.Recovers (do
      let results ← recoverStagingRoot .staging
      let sources ← recoverStagingRoot .sourceStaging
      removeOrphanedUnlockedLeases
      return results + sources : Op Nat).run :=
    Program.Only.bindE (recovers_recoverStagingRoot _) fun _ =>
      Program.Only.bindE (recovers_recoverStagingRoot _) fun _ =>
        Program.Only.bindE (Program.Only.bindE (only_orIo _ _ (Program.only_perform trivial))
          fun files => recovers_removeOrphans files) fun _ => Program.only_ret _
  have hanswer : ∀ c v, Call.Recovers c →
      Within { w with storeLock := some a, entered := w.toShared } v →
      ∃ answer u, σ.Alone a (Program.perform c) v answer u ∧
        Within { w with storeLock := some a, entered := w.toShared } u := by
    intro c v hc hv
    have halive' : v.dead (σ.config.process a) = false := by
      rw [hv.dead]
      exact halive
    obtain ⟨answer, u, hcall, hu⟩ := alone_recovers halive' hc
    exact ⟨answer, u, hcall, hv.trans hu⟩
  obtain ⟨result, u, halone, hwithin⟩ := Alone.exists_of_only hbody hanswer (within_refl _)
  have halive' : u.dead (σ.config.process a) = false := by
    rw [hwithin.dead]
    exact halive
  have hunlock : σ.Alone a (perform (.unlockStore (.recovered result))) u () { u with
      storeLock := none
      visits := u.visits ++ [⟨a, .recovered result, u.entered, u.toShared⟩] } :=
    alone_call halive' rfl
  refine ⟨result, { u with
    storeLock := none
    visits := u.visits ++ [⟨a, .recovered result, u.entered, u.toShared⟩] }, ?_, ?_,
    hwithin.dead, hwithin.faulted⟩
  · refine Alone.bind (x := result) ?_ (.ret _ _)
    refine (alone_lockStore halive hfree).bindE ?_
    exact halone.bind (hunlock.bind (.ret _ _))
  · rw [hwithin.visits, hwithin.entered]

end Whole

/-- What a recovery leaves of what it found: the leases and the staged work that others hold
who are alive, and all results and cached sources. -/
structure Swept (config : Config) (a : Agent) (before after : Shared) : Prop where
  lease : ∀ file lease, after.lease file = some lease ↔ before.lease file = some lease ∧
    ∃ holder, lease.holder = some holder ∧ holder ≠ a ∧
      before.dead (config.process holder) = false
  node : ∀ area id node, area.isStaging = true → (after.node area id = some node ↔
    before.node area id = some node ∧ ∃ holder, before.HeldBy holder id ∧ holder ≠ a ∧
      before.dead (config.process holder) = false)
  results : before.SameIn .results after
  sources : before.SameIn .sources after

/-- What a recovery has left, when nobody else has done anything. -/
theorem swept_of_kept {before after : Shared} {count : Nat} {faulted : Agent → Bool}
    (hkept : Visit.Kept σ.codec σ.config faulted ⟨a, .recovered (.ok count), before, after⟩)
    (hpaired : before.Paired)
    (hlease : ∀ holder file ino, holder ≠ a → before.dead (σ.config.process holder) = false →
      before.lease file = some ⟨ino, some holder⟩ → after.lease file = some ⟨ino, some holder⟩)
    (hnode : ∀ holder area id, holder ≠ a → before.dead (σ.config.process holder) = false →
      area.isStaging = true → before.HeldBy holder id → after.node area id = before.node area id) :
    Swept σ.config a before after := by
  obtain ⟨hsources, hresults, hrecovered⟩ := hkept
  obtain ⟨hstaged, hleases⟩ := hrecovered hpaired
  have hheld : ∀ file, (after.lease file).isSome = true →
      HeldSince σ.config faulted a before after file := by
    intro file hfile
    rcases hleases file hfile with ⟨area, id, rfl, hid⟩ | hheld
    · exact hstaged area id hid
    · exact hheld
  refine ⟨fun file lease => ⟨fun hafter => ?_, ?_⟩,
    fun area id node harea => ⟨fun hafter => ?_, ?_⟩,
    hresults, hsources⟩
  · obtain ⟨ino, holder, hne, hbefore, halive, _⟩ := hheld file (by rw [hafter]; rfl)
    cases (hlease holder file ino hne halive hbefore).symm.trans hafter
    exact ⟨hbefore, holder, rfl, hne, halive⟩
  · rintro ⟨hbefore, holder, hholder, hne, halive⟩
    obtain ⟨ino, _⟩ := lease
    cases hholder
    exact hlease holder file ino hne halive hbefore
  · obtain ⟨ino, holder, hne, hbefore, halive, _⟩ := hstaged area id ⟨harea, by rw [hafter]; rfl⟩
    refine ⟨?_, holder, ⟨ino, hbefore⟩, hne, halive⟩
    rw [← hnode holder area id hne halive harea ⟨ino, hbefore⟩]
    exact hafter
  · rintro ⟨hbefore, holder, hheldBy, hne, halive⟩
    rw [hnode holder area id hne halive harea hheldBy]
    exact hbefore

/-- A recovery that has not begun gets to its end by calls of its own, none of which fails, as
soon as the store lock is free. -/
theorem exists_recovery (hruns : σ.Runs steps s)
    (hstart : s.program a = Client.recovery.program σ.codec)
    (halive : s.world.dead (σ.config.process a) = false)
    (hfree : σ.config.free s.world s.world.storeLock = true) :
    ∃ more s' result, (∀ step ∈ more, ∃ choice, step = .act a choice ∧ choice.isFault = false) ∧
      σ.config.system.run s more = some s' ∧ σ.Runs (steps ++ more) s' ∧
      s'.program a = .ret () ∧
      s'.world.visits = s.world.visits ++
        [⟨a, .recovered result, s.world.toShared, s'.world.toShared⟩] ∧
      s'.world.dead = s.world.dead ∧ s'.world.faulted = s.world.faulted := by
  obtain ⟨result, w', halone, hvisits, hdead, hfaulted⟩ := alone_recovery halive hfree
  obtain ⟨more, hmore, hrun⟩ := halone.exists_run hstart
  have hruns' : σ.Runs (steps ++ more) ⟨w', Function.update s.program a (.ret ())⟩ := by
    unfold Setting.Runs at hruns
    rw [Setting.Runs, System.run_append, hruns]
    exact hrun
  exact ⟨more, _, result, hmore, hrun, hruns', Function.update_self .., hvisits, hdead, hfaulted⟩

/-- From every state of a run that strands nothing, a recovery that has not begun gets to its
end by calls of its own, none of which fails, as soon as the store lock is free.  It succeeds,
and leaves exactly what others hold who are alive.  Nobody else acts meanwhile; before it calls
may have failed and processes died, if nothing was stranded (`KeepsPairs`). -/
theorem recovery_completes (hruns : σ.Runs steps s) (hkeeps : σ.KeepsPairs steps)
    (hstart : s.program a = Client.recovery.program σ.codec)
    (halive : s.world.dead (σ.config.process a) = false) (hcalm : s.world.faulted a = false)
    (hfree : σ.config.free s.world s.world.storeLock = true) :
    ∃ more s' count, (∀ step ∈ more, ∃ choice, step = .act a choice ∧ choice.isFault = false) ∧
      σ.Runs (steps ++ more) s' ∧ s'.program a = .ret () ∧
      s'.world.visits = s.world.visits ++
        [⟨a, .recovered (.ok count), s.world.toShared, s'.world.toShared⟩] ∧
      Swept σ.config a s.world.toShared s'.world.toShared := by
  obtain ⟨more, s', result, hmore, hrun, hruns', hreturns, hvisits, hdead, hfaulted⟩ :=
    exists_recovery hruns hstart halive hfree
  have hkept := hruns'.good.1.visits ⟨a, .recovered result, s.world.toShared, s'.world.toShared⟩
    (by rw [hvisits]; exact List.mem_append_right _ (List.mem_singleton_self _))
  have hpaired := (hruns.matched hkeeps).now
  have hrely : ∀ holder, holder ≠ a → s.world.dead (σ.config.process holder) = false →
      Rely holder s.world s'.world := fun holder hne hholder =>
    (hruns.good.rely_run (fun step hstep hby => by
      obtain ⟨choice, rfl, _⟩ := hmore step hstep
      exact hne hby.symm) hrun (alive_iff.mpr (by rw [hdead]; exact hholder))).1
  obtain ⟨⟨count, rfl⟩, _⟩ :=
    recovered_of_paired hkept hpaired rfl (by rw [hfaulted]; exact hcalm)
  refine ⟨more, s', count, hmore, hruns', hreturns, hvisits, swept_of_kept hkept hpaired ?_ ?_⟩
  · exact fun holder file ino hne hholder => ((hrely holder hne hholder).lease file ino).mpr
  · exact fun holder area id hne hholder harea hheld =>
      (hrely holder hne hholder).node area id harea hheld

/-- `recovery_completes` after the process of a builder has died. -/
theorem recovery_completes_after_death : ∃ steps s s',
    (playSetting workersAndRecovery).Runs steps s ∧
      s.world.StagedIn .staging playStamp.transactionId ∧
      (∃ more, (playSetting workersAndRecovery).Runs (steps ++ more) s') ∧
      ¬ s'.world.StagedIn .staging playStamp.transactionId := by
  let steps : List StoreStep := beginsAs 0 playStamp ++ [.event 0]
  have hplay : (playSetting workersAndRecovery).play steps (fun w =>
      ((w.node .staging playStamp.transactionId).isSome,
        w.lease (leaseFile playStamp.transactionId), w.storeLock, w.dead 0, w.dead 1,
        w.faulted 1)) = some (true, some ⟨0, some 0⟩, none, true, false, false) := by
    decide +kernel
  obtain ⟨s, hruns, hseen⟩ := Setting.Runs.of_play hplay
  simp only [Prod.mk.injEq] at hseen
  obtain ⟨hstaged, hheld, hlock, hdead, halive, hcalm⟩ := hseen
  have hsteps : Faultless steps := by decide +kernel
  have hothers : ∀ step ∈ steps, ¬ Step.IsBy 1 step := by
    intro step hstep hby
    simp only [steps, beginsAs, goesOn, List.mem_append, List.mem_cons, List.mem_replicate,
      List.not_mem_nil, or_false] at hstep
    rcases hstep with (⟨_, rfl⟩ | rfl | ⟨_, rfl⟩) | rfl <;> cases hby
  have hstart := (good_initial.rely_run hothers hruns (alive_iff.mpr halive)).2
  have hfree : (playSetting workersAndRecovery).config.free s.world s.world.storeLock = true := by
    rw [hlock]
    rfl
  obtain ⟨more, s', count, _, hruns', _, _, hswept⟩ :=
    recovery_completes hruns (hruns.keepsPairs hsteps) hstart halive hcalm hfree
  refine ⟨steps, s, s', hruns, ⟨rfl, hstaged⟩, ⟨more, hruns'⟩, fun h => ?_⟩
  obtain ⟨node, hnode⟩ := Option.isSome_iff_exists.mp h.2
  obtain ⟨_, holder, ⟨ino, hlease⟩, _, hholder⟩ := (hswept.node .staging _ node rfl).mp hnode
  -- the holder has died
  cases hheld.symm.trans hlease
  exact Bool.false_ne_true (hholder.symm.trans hdead)

/-! ## Recoveries that fail -/

theorem HeldSince.atEntry {config : Config} {faulted : Agent → Bool} {before after : Shared}
    {file : Bytes} (h : HeldSince config faulted a before after file) :
    HeldAtEntry config a before file := by
  obtain ⟨ino, holder, hne, hheld, halive, _⟩ := h
  exact ⟨ino, holder, hne, hheld, halive⟩

/-- In every run, with failing calls and deaths of processes, in which no lease is taken away
under which something is staged, a recovery none of whose own calls fails returns `Ok`, and every
staged directory it leaves has a lease that a living agent held when the recovery took the store
lock.  And it does return: whenever the store lock is free, calls of its own bring it there. -/
theorem recovery_makes_progress (hruns : σ.Runs steps s) (hkeeps : σ.KeepsPairs steps) :
    (∀ visit ∈ s.world.visits, ∀ result, visit.outcome = .recovered result →
      s.world.faulted visit.agent = false →
        (∃ count, result = .ok count) ∧ ∀ area id, visit.after.StagedIn area id →
          HeldAtEntry σ.config visit.agent visit.before (leaseFile id)) ∧
    ∀ a, s.program a = Client.recovery.program σ.codec →
      s.world.dead (σ.config.process a) = false → s.world.faulted a = false →
      σ.config.free s.world s.world.storeLock = true →
      ∃ more s' count, (∀ step ∈ more, ∃ choice, step = .act a choice ∧ choice.isFault = false) ∧
        σ.Runs (steps ++ more) s' ∧ s'.program a = .ret () ∧
        s'.world.visits = s.world.visits ++
          [⟨a, .recovered (.ok count), s.world.toShared, s'.world.toShared⟩] ∧
        ∀ area id, s'.world.StagedIn area id →
          HeldAtEntry σ.config a s.world.toShared (leaseFile id) := by
  refine ⟨fun visit hvisit result houtcome hcalm => ?_, fun a hstart halive hcalm hfree => ?_⟩
  · have hpaired := ((hruns.matched hkeeps).visits visit hvisit).1
    obtain ⟨hok, hstaged, _⟩ :=
      recovered_of_paired (hruns.good.1.visits visit hvisit) hpaired houtcome hcalm
    exact ⟨hok, fun area id hid => (hstaged area id hid).atEntry⟩
  · obtain ⟨more, s', result, hmore, _, hruns', hreturns, hvisits, _, hfaulted⟩ :=
      exists_recovery hruns hstart halive hfree
    have hkept := hruns'.good.1.visits ⟨a, .recovered result, s.world.toShared, s'.world.toShared⟩
      (by rw [hvisits]; exact List.mem_append_right _ (List.mem_singleton_self _))
    obtain ⟨⟨count, rfl⟩, hstaged, _⟩ := recovered_of_paired hkept (hruns.matched hkeeps).now rfl
      (by rw [hfaulted]; exact hcalm)
    exact ⟨more, s', count, hmore, hruns', hreturns, hvisits, fun area id hid =>
      (hstaged area id hid).atEntry⟩

/-- A transaction is dropped, and its process dies after a part of its staging directory has
been removed.  Then a recovery comes. -/
def deadDropRun : List StoreStep :=
  beginsAs 0 playStamp ++ (.act 0 (.command .drop) :: (goesOn 0 16 ++
    (.act 0 (.delete [prefixName]) :: .event 0 :: goesOn 1 35)))

theorem play_deadDrop : (playSetting workersAndRecovery).play deadDropRun (fun w =>
    w.visits.getLast?.map fun visit => (visit.outcome.recoveredOk, w.faulted visit.agent,
      visit.before.dead 0, visit.before.lease (leaseFile playStamp.transactionId))) =
      some (some (some true, false, true, some ⟨0, some 0⟩)) := by
  decide +kernel

/-- What it had left is gone. -/
theorem recovery_makes_progress_deadDrop : ∃ s : StoreState,
    (playSetting workersAndRecovery).Runs deadDropRun s ∧ ∃ visit ∈ s.world.visits,
      (∃ count, visit.outcome = .recovered (.ok count)) ∧
      ¬ visit.after.StagedIn .staging playStamp.transactionId := by
  obtain ⟨s, hruns, visit, hvisit, hseen⟩ := exists_lastVisit play_deadDrop
  simp only [Prod.mk.injEq] at hseen
  obtain ⟨hok, hcalm, hdead, hlease⟩ := hseen
  obtain ⟨result, houtcome, _⟩ := Outcome.eq_of_recoveredOk hok
  have hsteps : Faultless deadDropRun := by decide +kernel
  obtain ⟨⟨count, rfl⟩, hstaged⟩ := (recovery_makes_progress hruns (hruns.keepsPairs hsteps)).1
    visit hvisit result houtcome hcalm
  refine ⟨s, hruns, visit, hvisit, ⟨count, houtcome⟩, fun h => ?_⟩
  obtain ⟨ino, holder, _, hheld, halive⟩ := hstaged .staging _ h
  -- the holder of its lease was dead
  cases hlease.symm.trans hheld
  exact Bool.false_ne_true (halive.symm.trans hdead)

/-- The `remove_dir_all` of a dropped transaction fails, and its lease is removed all the same.
Then a recovery comes. -/
def strandedRun : List StoreStep :=
  beginsAs 0 playStamp ++ (.act 0 (.command .drop) :: (goesOn 0 16 ++
    (.act 0 (.delete [prefixName]) :: .act 0 (.fault 5 0) :: (goesOn 0 6 ++ goesOn 1 23))))

theorem play_stranded : (playSetting workersAndRecovery).play strandedRun (fun w =>
    w.visits.getLast?.map fun visit => (visit.outcome.recoveredOk, w.faulted visit.agent)) =
      some (some (some false, false)) := by
  decide +kernel

/-- It finds a staged directory without a lease and fails, though no call of its own does. -/
theorem stranded_recovery_fails : ¬ ∀ (σ : Setting) (steps : List StoreStep) (s : StoreState),
    σ.Runs steps s → ∀ visit ∈ s.world.visits, ∀ result, visit.outcome = .recovered result →
      s.world.faulted visit.agent = false → ∃ count, result = .ok count := by
  intro h
  obtain ⟨s, hruns, visit, hvisit, hseen⟩ := exists_lastVisit play_stranded
  obtain ⟨hok, hcalm⟩ := Prod.mk.inj hseen
  obtain ⟨result, houtcome, hresult⟩ := Outcome.eq_of_recoveredOk hok
  obtain ⟨count, rfl⟩ := h _ _ s hruns visit hvisit result houtcome hcalm
  cases hresult

end Prep.Store
