/-
  Store/Pairing.lean --- leases and the work staged under them, over whole runs.

  Nobody touches what a living agent has leased, and what goes is removed by whoever holds
  its lease.  A staged directory keeps its lease as long as no lease is removed before the
  directory under it: so it is in every run in which no call fails, wherever processes die.

  All runs are meant, with failing calls and dying processes, but for what needs that no lease
  is removed too early: that is said as a condition on the steps (`KeepsPairs`).
-/
import Prep.Machine.Alone
import Prep.Store.Runs

set_option autoImplicit false

namespace Prep.Store

open Prep.Machine
open Prep.Text
open Prep.Fs (Node Path)

variable {σ : Setting} {a b : Agent} {s s' : StoreState} {steps : List StoreStep}
  {step : StoreStep} {w w' : World}

/-! ## What an effect takes away -/

section Effects

variable {codec : MetadataCodec} {config : Config} {clients : Agent → Client}

theorem isSome_setLease {file other : Bytes} {lease : LeaseFile}
    (h : (w.lease other).isSome = true) : ((w.setLease file lease).lease other).isSome = true := by
  rw [World.lease_setLease]
  split
  · rfl
  · exact h

/-- A lease goes when its holder removes it, with the store lock, after the work under it or
after a failure. -/
theorem effect_lease (h : Effect codec config clients a w w') {file : Bytes}
    (hfile : (w.lease file).isSome = true) : (w'.lease file).isSome = true ∨
      w.storeLock = some a ∧ (∃ ino, w.lease file = some ⟨ino, some a⟩) ∧
        ∀ id, file = leaseFile id → w.Cleared a id := by
  cases h with
  | same | fault | cutShort | lock | unlock | draw | stage | unstage | publish => exact .inl hfile
  | createLease | lockLease | release => exact .inl (isSome_setLease hfile)
  | removeLease removed ino hlock hlease hcleared =>
      rcases eq_or_ne file removed with rfl | hne
      · exact .inr ⟨hlock, ⟨ino, hlease⟩, hcleared⟩
      · rw [World.lease_eraseLease, if_neg hne]
        exact .inl hfile
  | work area id node node' failed => cases failed <;> exact .inl hfile
  | rollBack hex node => cases node <;> exact .inl hfile

theorem stagedIn_setNode {area other : Area} {name id : Bytes} {node : Node}
    (h : w.StagedIn other id) : (w.setNode area name node).StagedIn other id := by
  refine ⟨h.1, ?_⟩
  rw [World.node_setNode]
  split
  · rfl
  · exact h.2

/-- Staged work goes when the holder of its lease removes or publishes it, with the store
lock. -/
theorem effect_staged (h : Effect codec config clients a w w') {area : Area} {id : Bytes}
    (hstaged : w.StagedIn area id) :
    w'.StagedIn area id ∨ w.storeLock = some a ∧ w.HeldBy a id := by
  cases h with
  | same | fault | cutShort | lock | unlock | draw | createLease | lockLease | release
  | removeLease => exact .inl hstaged
  | stage => exact .inl (stagedIn_setNode hstaged)
  | work other name node node' failed =>
      cases failed
      · exact .inl (stagedIn_setNode hstaged)
      · exact .inl (stagedIn_setNode (w := w) hstaged)
  | unstage other name hlock hother hheld =>
      by_cases hsame : area = other ∧ id = name
      · obtain ⟨rfl, rfl⟩ := hsame
        exact .inr ⟨hlock, hheld⟩
      · refine .inl ⟨hstaged.1, ?_⟩
        rw [World.node_eraseNode, if_neg hsame]
        exact hstaged.2
  | publish name result entries encoded hlock hclient hheld =>
      by_cases hsame : area = .staging ∧ id = name
      · obtain ⟨rfl, rfl⟩ := hsame
        exact .inr ⟨hlock, hheld⟩
      · refine .inl (stagedIn_setNode (w := w.eraseNode .staging name) ⟨hstaged.1, ?_⟩)
        rw [World.node_eraseNode, if_neg hsame]
        exact hstaged.2
  | rollBack hex node =>
      cases node with
      | some node => exact .inl (stagedIn_setNode hstaged)
      | none =>
          refine .inl ⟨hstaged.1, ?_⟩
          refine (congrArg Option.isSome (World.node_eraseNode ..)).trans ?_
          rw [if_neg fun heq => isStaging_ne_results hstaged.1 heq.1]
          exact hstaged.2

/-- Only a transaction changes anything but staged work. -/
theorem effect_elsewhere (h : Effect codec config clients a w w')
    (hclient : clients a ≠ .transaction) {area : Area} (harea : area.isStaging = false) :
    w.SameIn area w'.toShared := by
  have hne : ∀ {other : Area}, other.isStaging = true → area ≠ other := by
    rintro _ hother rfl
    exact Bool.false_ne_true (harea.symm.trans hother)
  have hset : ∀ {other : Area}, other.isStaging = true → ∀ id node,
      w.SameIn area (w.setNode other id node).toShared := fun hother id node name => by
    rw [World.node_setNode, if_neg fun heq => hne hother heq.1]
  cases h with
  | same | fault | cutShort | lock | unlock | draw | createLease | lockLease | release
  | removeLease => exact fun _ => rfl
  | stage other id hlock hother => exact hset hother id _
  | work other id node node' failed hother => cases failed <;> exact hset hother id node'
  | unstage other id hlock hother =>
      intro name
      rw [World.node_eraseNode, if_neg fun heq => hne hother heq.1]
  | publish name id entries encoded hlock htransaction => exact absurd htransaction hclient
  | rollBack hex node hlock htransaction => exact absurd htransaction hclient

end Effects

/-- What a step takes away is its own agent's, who has the store lock and the lease: so in every
step of every run, whatever has failed and whoever has died before. -/
theorem removed_under_lease (hruns : σ.Runs steps s)
    (hstep : σ.config.system.step s step = some s') :
    (∀ area id, s.world.StagedIn area id → ¬ s'.world.StagedIn area id →
      ∃ a choice, step = .act a choice ∧ s.world.storeLock = some a ∧ s.world.HeldBy a id) ∧
    ∀ file lease, s.world.lease file = some lease → s'.world.lease file = none →
      ∃ a choice, step = .act a choice ∧ s.world.storeLock = some a ∧ lease.holder = some a := by
  rcases step_effect hruns.good hstep with ⟨process, rfl, hworld⟩ | ⟨a, choice, rfl, _, heffect⟩
  · rw [hworld]
    refine ⟨fun area id hstaged hgone => absurd hstaged hgone, fun file lease hlease hgone => ?_⟩
    cases hlease.symm.trans hgone
  · refine ⟨fun area id hstaged hgone => ?_, fun file lease hlease hgone => ?_⟩
    · exact ⟨a, choice, rfl, (effect_staged heffect hstaged).resolve_left hgone⟩
    · have hsome : (s.world.lease file).isSome = true := by rw [hlease]; rfl
      rcases effect_lease heffect hsome with hstill | ⟨hlock, ⟨ino, hheld⟩, _⟩
      · rw [hgone] at hstill
        cases hstill
      · cases hlease.symm.trans hheld
        exact ⟨a, choice, rfl, hlock, rfl⟩

/-! ## Runs that can be played, and what follows them -/

theorem Setting.Runs.of_play_append {α β : Type} {see : World → α} {see' : World → β} {seen : α}
    {seen' : β} {more : List StoreStep} (h : σ.play steps see = some seen)
    (h' : σ.play (steps ++ more) see' = some seen') :
    ∃ s s', σ.Runs steps s ∧ σ.config.system.run s more = some s' ∧ see s.world = seen ∧
      see' s'.world = seen' := by
  obtain ⟨s, hruns, hseen⟩ := Setting.Runs.of_play h
  obtain ⟨s', hruns', hseen'⟩ := Setting.Runs.of_play h'
  unfold Setting.Runs at hruns hruns'
  rw [System.run_append, hruns, Option.bind_some] at hruns'
  exact ⟨s, s', hruns, hruns', hseen, hseen'⟩

/-- Transactions, and a recovery. -/
def workersAndRecovery (a : Agent) : Client := if a = 1 then .recovery else .transaction

/-- `removed_under_lease` at the end of the removal of a dropped transaction. -/
theorem removed_under_lease_dropped : ∃ steps step s s',
    (playSetting workersAndRecovery).Runs steps s ∧
      (playSetting workersAndRecovery).config.system.step s step = some s' ∧
      ¬ s'.world.StagedIn .staging playStamp.transactionId ∧
      ∃ a, s.world.HeldBy a playStamp.transactionId := by
  let steps : List StoreStep := beginsAs 0 playStamp ++
    (.act 0 (.command .drop) :: (goesOn 0 16 ++ [.act 0 (.delete [prefixName])]))
  have hbefore : (playSetting workersAndRecovery).play steps
      (fun w => (w.node .staging playStamp.transactionId).isSome) = some true := by
    decide +kernel
  have hafter : (playSetting workersAndRecovery).play (steps ++ [.act 0 .proceed])
      (fun w => (w.node .staging playStamp.transactionId).isSome) = some false := by
    decide +kernel
  obtain ⟨s, s', hruns, hrun, hstaged, hgone⟩ := Setting.Runs.of_play_append hbefore hafter
  obtain ⟨next, hstep, hnext⟩ := Option.bind_eq_some_iff.mp hrun
  cases hnext
  have hnone : ¬ s'.world.StagedIn .staging playStamp.transactionId :=
    fun h => Bool.false_ne_true (hgone.symm.trans h.2)
  obtain ⟨a, choice, _, _, hheld⟩ :=
    (removed_under_lease hruns hstep).1 .staging playStamp.transactionId ⟨rfl, hstaged⟩ hnone
  exact ⟨steps, _, s, s', hruns, hstep, hnone, a, hheld⟩

/-- Whatever the others do, and wherever they die, a living agent finds its lease and what is
staged under it as it left them. -/
theorem liveWork_untouched (hruns : σ.Runs steps s) {more : List StoreStep}
    (hmore : σ.config.system.run s more = some s') (hothers : ∀ step ∈ more, ¬ step.IsBy a)
    (halive : s'.world.dead (σ.config.process a) = false) {id : Bytes} {ino : Nat}
    (hlease : s.world.lease (leaseFile id) = some ⟨ino, some a⟩) :
    s'.world.lease (leaseFile id) = some ⟨ino, some a⟩ ∧
      ∀ area, area.isStaging = true → s'.world.node area id = s.world.node area id := by
  have hrely : Rely a s.world s'.world :=
    (hruns.good.rely_run hothers hmore (alive_iff.mpr halive)).1
  exact ⟨(hrely.lease _ _).mpr hlease, fun area harea => hrely.node area id harea ⟨ino, hlease⟩⟩

/-- `liveWork_untouched` where a recovery comes while a builder works. -/
theorem liveWork_untouched_recovery : ∃ s s',
    (playSetting workersAndRecovery).Runs (beginsAs 0 playStamp) s ∧
      (playSetting workersAndRecovery).config.system.run s (goesOn 1 31) = some s' ∧
      s'.world.visits.length = 2 ∧
      s'.world.node .staging playStamp.transactionId =
        s.world.node .staging playStamp.transactionId := by
  have hbefore : (playSetting workersAndRecovery).play (beginsAs 0 playStamp)
      (fun w => w.lease (leaseFile playStamp.transactionId)) = some (some ⟨0, some 0⟩) := by
    decide +kernel
  have hafter : (playSetting workersAndRecovery).play (beginsAs 0 playStamp ++ goesOn 1 31)
      (fun w => (w.visits.length, w.dead 0)) = some (2, false) := by
    decide +kernel
  obtain ⟨s, s', hruns, hrun, hheld, hseen⟩ := Setting.Runs.of_play_append hbefore hafter
  obtain ⟨hvisits, halive⟩ := Prod.mk.inj hseen
  have hothers : ∀ step ∈ goesOn 1 31, ¬ Step.IsBy 0 step := fun step hstep hby => by
    rw [List.eq_of_mem_replicate hstep] at hby
    cases hby
  exact ⟨s, s', hruns, hrun, hvisits,
    (liveWork_untouched hruns hrun hothers halive hheld).2 .staging rfl⟩

/-! ## Pairs of a directory and its lease -/

/-- What is staged has its lease: now, when the store lock was last taken, and at both ends
of every stay under it. -/
structure World.Matched (w : World) : Prop where
  now : w.toShared.Paired
  entered : w.entered.Paired
  visits : ∀ visit ∈ w.visits, visit.before.Paired ∧ visit.after.Paired

/-- A step that takes a lease away under which something is staged. -/
def Strands (s : StoreState) (step : StoreStep) : Prop :=
  ∃ a id next area, step = .act a .proceed ∧
    s.program a = .call (.removeLease (leaseFile id)) next ∧ s.world.StagedIn area id

/-- No step of a run takes a lease away under which something is staged. -/
def Setting.KeepsPairs (σ : Setting) (steps : List StoreStep) : Prop :=
  σ.config.system.along (fun s step => ¬ Strands s step) σ.initial steps

theorem Shared.Paired.of_le {v v' : Shared} (h : v.Paired)
    (hstaged : ∀ area id, v'.StagedIn area id → v.StagedIn area id)
    (hlease : ∀ area id, v'.StagedIn area id → (v.lease (leaseFile id)).isSome = true →
      (v'.lease (leaseFile id)).isSome = true) : v'.Paired where
  lease area id hid := hlease area id hid (h.lease area id (hstaged area id hid))
  once area area' id hid hid' := h.once area area' id (hstaged area id hid) (hstaged area' id hid')

theorem paired_empty : Shared.empty.Paired where
  lease _ _ h := by cases h.2
  once _ _ _ h := by cases h.2

theorem matched_initial : World.initial.Matched :=
  ⟨paired_empty, paired_empty, fun _ h => nomatch h⟩

/-- An entry of the results is nothing staged. -/
theorem Shared.Paired.of_results {v v' : Shared} (h : v.Paired)
    (hleases : ∀ file, v'.lease file = v.lease file)
    (hnode : ∀ area id, area.isStaging = true → v'.node area id = v.node area id ∨
      v'.node area id = none) : v'.Paired := by
  refine h.of_le (fun area id hid => ?_) fun area id hid hsome => by rw [hleases]; exact hsome
  rcases hnode area id hid.1 with heq | hnone
  · exact ⟨hid.1, heq ▸ hid.2⟩
  · have hsome := hid.2
    rw [hnone] at hsome
    cases hsome

section Matched

variable {codec : MetadataCodec} {config : Config} {clients : Agent → Client}

/-- An effect keeps the pairs when it takes no lease away under which something is staged. -/
theorem effect_paired (h : Effect codec config clients a w w') (hnow : w.toShared.Paired)
    (hentered : w.entered.Paired)
    (hremoved : ∀ id, (w.lease (leaseFile id)).isSome = true →
      w'.lease (leaseFile id) = none → ∀ area, ¬ w.StagedIn area id) : w'.toShared.Paired := by
  cases h with
  | same | fault | cutShort | lock | unlock | draw => exact hnow
  | createLease | lockLease | release =>
      exact hnow.of_le (fun _ _ hid => hid) fun _ _ _ hsome => isSome_setLease hsome
  | removeLease file ino hlock hlease hcleared =>
      refine hnow.of_le (fun _ _ hid => hid) fun area id hid hsome => ?_
      by_contra hnone
      exact hremoved id hsome (Option.not_isSome_iff_eq_none.mp hnone) area hid
  | stage area id hlock harea hheld hdrew honce hfree =>
      obtain ⟨ino, hlease⟩ := hheld
      have hold : ∀ other name, (w.setNode area id (.dir [])).StagedIn other name →
          (other = area ∧ name = id) ∨ w.StagedIn other name := fun other name hid => by
        have hsome := hid.2
        rw [World.node_setNode] at hsome
        split at hsome
        · rename_i hsame
          exact .inl hsame
        · exact .inr ⟨hid.1, hsome⟩
      refine ⟨fun other name hid => ?_, fun other other' name hid hid' => ?_⟩
      · rcases hold other name hid with ⟨_, rfl⟩ | hid
        · exact Option.isSome_iff_exists.mpr ⟨_, hlease⟩
        · exact hnow.lease other name hid
      · have hhere := honce hentered
        rcases hold other name hid with ⟨hsame, hname⟩ | hin
        · rcases hold other' name hid' with ⟨hsame', _⟩ | hin'
          · exact hsame.trans hsame'.symm
          · exact hsame.trans (hhere other' (hname ▸ hin')).symm
        · rcases hold other' name hid' with ⟨hsame', hname⟩ | hin'
          · exact (hhere other (hname ▸ hin)).trans hsame'.symm
          · exact hnow.once other other' name hin hin'
  | work area id node node' failed harea hheld hnode =>
      refine hnow.of_le (fun other name hid => ⟨hid.1, ?_⟩) fun _ _ _ hsome =>
        (by cases failed <;> exact hsome)
      have hsome := hid.2
      have hset : (if failed then (w.setNode area id node').fault a
          else w.setNode area id node').node other name =
          if other = area ∧ name = id then some node' else w.node other name := by
        cases failed <;> exact World.node_setNode ..
      rw [hset] at hsome
      split at hsome
      · rename_i hsame
        obtain ⟨rfl, rfl⟩ := hsame
        rw [hnode]
        rfl
      · exact hsome
  | unstage area id =>
      refine hnow.of_results (fun _ => rfl) fun other name _ => ?_
      rw [World.node_eraseNode]
      split
      · exact .inr rfl
      · exact .inl rfl
  | publish name id entries encoded =>
      refine hnow.of_results (fun _ => rfl) fun other name' hother => ?_
      have hset := (World.node_setNode (w.eraseNode .staging name) .results other id.hex name'
        (withMetadata entries encoded)).trans (if_neg fun heq => isStaging_ne_results hother heq.1)
      rw [World.node_eraseNode] at hset
      split at hset
      · exact .inr hset
      · exact .inl hset
  | rollBack hex node =>
      refine hnow.of_results (fun _ => by cases node <;> rfl) fun other name hother => .inl ?_
      have hne : ¬ (other = .results ∧ name = hex) :=
        fun heq => isStaging_ne_results hother heq.1
      cases node with
      | some node => exact (World.node_setNode ..).trans (if_neg hne)
      | none => exact (World.node_eraseNode ..).trans (if_neg hne)

/-- What is remembered is what was shared. -/
theorem effect_history (h : Effect codec config clients a w w') :
    (w'.entered = w.entered ∨ w'.entered = w.toShared) ∧
      ∀ visit ∈ w'.visits, visit ∈ w.visits ∨
        visit.before = w.entered ∧ visit.after = w.toShared := by
  cases h with
  | same | fault | cutShort | draw | createLease | lockLease | release | removeLease | stage
  | unstage | publish => exact ⟨.inl rfl, fun _ h => .inl h⟩
  | lock => exact ⟨.inr rfl, fun _ h => .inl h⟩
  | unlock outcome =>
      refine ⟨.inl rfl, fun visit hvisit => ?_⟩
      rcases List.mem_append.mp hvisit with hold | hnew
      · exact .inl hold
      · rw [List.mem_singleton.mp hnew]
        exact .inr ⟨rfl, rfl⟩
  | work area id node node' failed => cases failed <;> exact ⟨.inl rfl, fun _ h => .inl h⟩
  | rollBack hex node => cases node <;> exact ⟨.inl rfl, fun _ h => .inl h⟩

theorem effect_matched (h : Effect codec config clients a w w') (hmatched : w.Matched)
    (hremoved : ∀ id, (w.lease (leaseFile id)).isSome = true →
      w'.lease (leaseFile id) = none → ∀ area, ¬ w.StagedIn area id) : w'.Matched := by
  obtain ⟨hentered, hvisits⟩ := effect_history h
  refine ⟨effect_paired h hmatched.now hmatched.entered hremoved, ?_, fun visit hvisit => ?_⟩
  · rcases hentered with heq | heq
    · exact heq ▸ hmatched.entered
    · exact heq ▸ hmatched.now
  · rcases hvisits visit hvisit with hold | ⟨hbefore, hafter⟩
    · exact hmatched.visits visit hold
    · exact ⟨hbefore ▸ hmatched.entered, hafter ▸ hmatched.now⟩

end Matched

/-- A lease that a step takes away is removed by the call that does so. -/
theorem call_of_removed (hstep : σ.config.system.step s step = some s') {file : Bytes}
    (hsome : (s.world.lease file).isSome = true) (hnone : s'.world.lease file = none) :
    ∃ a next, step = .act a .proceed ∧ s.program a = .call (.removeLease file) next := by
  cases step with
  | event process =>
      rw [die_eq_some (System.step_event hstep).1] at hnone
      exact absurd hsome (by rw [show s.world.lease file = none from hnone]; exact nofun)
  | act a choice =>
      obtain ⟨_, c, next, reply, hprogram, hrespond, hworld, _⟩ := System.step_act hstep
      have hc : c = .removeLease file := by
        by_contra hne
        have hstill := (respond_settled hrespond).leases file hne hsome
        rw [← hworld, hnone] at hstill
        cases hstill
      subst hc
      refine ⟨a, next, ?_, hprogram⟩
      cases choice with
      | proceed => rfl
      | fault code done =>
          cases hrespond
          rw [hworld] at hnone
          exact absurd hsome (by rw [show s.world.lease file = none from hnone]; exact nofun)
      | stamp | delete | fill | command => cases hrespond

/-- A step that strands nothing keeps the pairs. -/
theorem matched_step (hgood : σ.discipline.Good s) (hmatched : s.world.Matched)
    (hkeeps : ¬ Strands s step) (hstep : σ.config.system.step s step = some s') :
    s'.world.Matched := by
  have hremoved : ∀ id, (s.world.lease (leaseFile id)).isSome = true →
      s'.world.lease (leaseFile id) = none → ∀ area, ¬ s.world.StagedIn area id := by
    intro id hsome hnone area hstaged
    obtain ⟨a, next, hact, hprogram⟩ := call_of_removed hstep hsome hnone
    exact hkeeps ⟨a, id, next, area, hact, hprogram, hstaged⟩
  rcases step_effect hgood hstep with ⟨process, _, hworld⟩ | ⟨a, choice, _, _, heffect⟩
  · rw [hworld]
    exact ⟨hmatched.now.of_le (fun _ _ hid => hid) fun _ _ _ hsome => hsome, hmatched.entered,
      hmatched.visits⟩
  · exact effect_matched heffect hmatched hremoved

/-- In every state of such a run what is staged has its lease. -/
theorem Setting.Runs.matched (h : σ.Runs steps s) (hkeeps : σ.KeepsPairs steps) :
    s.world.Matched :=
  (System.run_induction (I := fun s => σ.discipline.Good s ∧ s.world.Matched)
    (fun _ _ _ hs hkeeps hstep => ⟨hs.1.step hstep, matched_step hs.1 hs.2 hkeeps hstep⟩)
    ⟨good_initial, matched_initial⟩ hkeeps h).2

/-- An agent none of whose calls has failed removes the directory before the lease. -/
theorem not_strands (hgood : σ.discipline.Good s) (hmatched : s.world.Matched)
    (hcalm : ∀ a, step.IsBy a → s.world.faulted a = false)
    (hstep : σ.config.system.step s step = some s') : ¬ Strands s step := by
  rintro ⟨a, id, next, area, rfl, hprogram, hstaged⟩
  rcases (hgood.guarded hstep hprogram).2.2 id rfl with hfault | hcleared
  · exact Bool.false_ne_true ((hcalm a rfl).symm.trans hfault)
  · exact hcleared hmatched.entered area hstaged

/-- Where no call fails nothing is stranded, wherever processes die. -/
theorem Setting.Runs.keepsPairs (h : σ.Runs steps s) (hsteps : Faultless steps) :
    σ.KeepsPairs steps := by
  refine System.along_of_invariant (I := fun s => σ.discipline.Good s ∧ s.world.Matched ∧
      s.world.FaultFree) (fun s step s' hs hcalm hstep => ?_)
    ⟨good_initial, matched_initial, fun _ => rfl⟩ (System.along_of_mem hsteps _) h
  have hkeeps := not_strands hs.1 hs.2.1 (fun a _ => hs.2.2 a) hstep
  exact ⟨hkeeps, hs.1.step hstep, matched_step hs.1 hs.2.1 hkeeps hstep,
    faultFree_step hs.2.2 hcalm hstep⟩

end Prep.Store
