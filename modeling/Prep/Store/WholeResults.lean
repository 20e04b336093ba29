/-
  Store/WholeResults.lean --- results that are found are the results that were published.

  A commit that fails after its rename rolls back: it takes the published result away, one
  node after another, where everybody can see it.  While something below the prefix is gone,
  and neither the rest of the prefix nor the metadata is, what is left may pass for the result.
  If the agent is stopped then, because its process dies or a call of it fails, it stays, and
  `get` takes it for the result.  In all other runs what `get` returns is the staged tree of a
  commit: calls may fail anywhere else, also those of a rollback that has not got to the
  prefix, or is past it, and processes may die there.

  A removal is modelled node by node in any order, and a failing one stops after any of them.
  What the builders write beside the prefix is not asked about.
-/
import Prep.Store.Runs

set_option autoImplicit false

namespace Prep.Store

open Prep.Machine
open Prep.Text
open Prep.Fs (Node Path)

/-! ## Whole results -/

/-- The prefix of a result is that of one that was published under the identifier. -/
def IsWhole (published : List (Bytes × Node)) (id : StoreResultId) (node : Node) : Prop :=
  ∃ renamed, (id.hex, renamed) ∈ published ∧ node.child prefixName = renamed.child prefixName

/-- Every result that `validate_existing_result` accepts has its prefix as it was published. -/
def Shared.WholeIn (codec : MetadataCodec) (published : List (Bytes × Node)) (s : Shared) : Prop :=
  ∀ id node, s.node .results (StoreResultId.hex id) = some node → ValidResult codec id node →
    IsWhole published id node

/-- The agent that has the store lock is taking back the result it has published last:
something below the prefix is gone, and neither the rest of the prefix nor the metadata is. -/
structure TornAt (w : World) (hex : Bytes) (renamed node : Node) : Prop where
  published : w.published.head? = some (hex, renamed)
  entered : w.entered.node .results hex = none
  found : w.node .results hex = some node
  metadata : (node.child metadataName).isSome = true
  output : (node.child prefixName).isSome = true
  gone : node.child prefixName ≠ renamed.child prefixName

def World.Torn (w : World) : Prop := ∃ hex renamed node, TornAt w hex renamed node

/-- A call of the agent that has the store lock fails, or its process dies. -/
def Stops (config : Config) (w : World) : StoreStep → Prop
  | .act a choice => choice.isFault = true ∧ w.storeLock = some a
  | .event process => ∃ a, w.storeLock = some a ∧ config.process a = process

/-- The step stops no rollback between the first node below the prefix and the last one of the
prefix or the metadata. -/
def Spares (σ : Setting) (s : StoreState) (step : StoreStep) : Prop :=
  Stops σ.config s.world step → ¬ s.world.Torn

/-- A commit has renamed its staged directory to a result, and had validated the tree at its
prefix. -/
def World.Validated (w : World) (id : StoreResultId) (tree : Node) : Prop :=
  ∃ entries encoded, (id.hex, withMetadata entries encoded) ∈ w.published ∧
    Committable entries ∧ entries.lookup prefixName = some tree

section Whole

variable {σ : Setting} {a : Agent} {w w' : World}

theorem IsWhole.mono {published published' : List (Bytes × Node)} {id : StoreResultId} {node : Node}
    (h : IsWhole published id node) (hsub : published ⊆ published') :
    IsWhole published' id node := by
  obtain ⟨renamed, hmem, hsame⟩ := h
  exact ⟨renamed, hsub hmem, hsame⟩

theorem Shared.WholeIn.mono {codec : MetadataCodec} {published published' : List (Bytes × Node)}
    {s : Shared} (h : s.WholeIn codec published) (hsub : published ⊆ published') :
    s.WholeIn codec published' :=
  fun id node hnode hvalid => (h id node hnode hvalid).mono hsub

/-! ## What the agent under the lock has changed -/

/-- The results are those the agent under the lock has found, but for the one it has published
last; and that one is whole unless a call of the agent has failed. -/
def World.Changed (w : World) (a : Agent) : Prop :=
  ∀ hex node, w.node .results hex = some node → w.entered.node .results hex = some node ∨
    w.entered.node .results hex = none ∧ ∃ renamed, w.published.head? = some (hex, renamed) ∧
      (w.faulted a = false → node = renamed)

/-- No call of the agent had failed before, if none has after. -/
theorem unfaulted_of_step (hmono : ∀ b, w.faulted b = true → w'.faulted b = true)
    (h : w'.faulted a = false) : w.faulted a = false :=
  Bool.eq_false_iff.mpr fun hfault => Bool.eq_false_iff.mp h (hmono a hfault)

theorem changed_step {b : Agent} (h : ∀ a, w.storeLock = some a → w.Changed a)
    (hstep : ResultsStep σ b w w') (hmono : ∀ c, w.faulted c = true → w'.faulted c = true)
    (hlock' : w'.storeLock = some a) : w'.Changed a := by
  have hsame : w'.storeLock = w.storeLock → w'.entered = w.entered → w'.published = w.published →
      w.SameIn .results w'.toShared → w'.Changed a := by
    intro hlock hentered hpublished hresults hex node hnode
    rw [hentered, hpublished]
    refine (h a (hlock ▸ hlock') hex node ((hresults hex).symm.trans hnode)).imp_right ?_
    rintro ⟨hnone, renamed, hhead, hwhole⟩
    exact ⟨hnone, renamed, hhead, fun hcalm => hwhole (unfaulted_of_step hmono hcalm)⟩
  cases hstep with
  | keeps hkeeps =>
      exact hsame hkeeps.storeLock hkeeps.entered hkeeps.published hkeeps.results
  | cutShort hex node hlock hnode => exact hsame rfl rfl rfl fun _ => rfl
  | lock hfree => exact fun hex node hnode => .inl hnode
  | unlock outcome hlock haccounted hkept => cases hlock'
  | publish name id entries encoded hlock hclient hclaimed hstill hnone hstaged hcommittable hencoded
      hresults hsame hpublished =>
      intro hex node hnode
      rw [hsame.2.1, hpublished]
      rw [hresults] at hnode
      split at hnode
      · rename_i heq
        refine .inr ⟨?_, _, by rw [heq]; rfl, fun _ => (Option.some.inj hnode).symm⟩
        rw [heq, ← hstill]
        exact hnone
      · exact .inl ((hstill hex).symm.trans hnode)
  | rollBack hex found hlock hfault hentered hsome hresults hsame =>
      obtain ⟨hstoreLock, hsameEntered, _, hpublished, _⟩ := hsame
      cases (hstoreLock.trans hlock).symm.trans hlock'
      intro other node hnode
      rw [hsameEntered, hpublished]
      rw [hresults] at hnode
      split at hnode
      · rename_i heq
        obtain ⟨old, hold⟩ := Option.isSome_iff_exists.mp hsome
        rcases h a hlock hex old hold with hfound | ⟨_, renamed, hhead, _⟩
        · cases hentered.symm.trans hfound
        · refine .inr ⟨heq ▸ hentered, renamed, heq ▸ hhead, fun hcalm => ?_⟩
          exact absurd (hmono a hfault) (Bool.eq_false_iff.mp hcalm)
      · refine (h a hlock other node hnode).imp_right ?_
        rintro ⟨hnone, renamed, hhead, hwhole⟩
        exact ⟨hnone, renamed, hhead, fun hcalm => hwhole (unfaulted_of_step hmono hcalm)⟩

theorem changed_of_run {steps : List StoreStep} {s : StoreState} (h : σ.Runs steps s) :
    ∀ a, s.world.storeLock = some a → s.world.Changed a :=
  Setting.Runs.induction (I := fun w => ∀ a, w.storeLock = some a → w.Changed a)
    (fun _ hlock => (nomatch hlock)) (fun _ _ h => h)
    (fun _ _ _ _ _ heffect h _ => changed_step h (resultsStep heffect)
      fun _ => effect_faulted heffect) h

/-- Nothing is taken back before a call has failed. -/
theorem not_torn_of_calm (h : w.Changed a) (hcalm : w.faulted a = false) : ¬ w.Torn := by
  rintro ⟨hex, renamed, node, htorn⟩
  rcases h hex node htorn.found with hfound | ⟨_, renamed', hhead, hwhole⟩
  · cases htorn.entered.symm.trans hfound
  · cases htorn.published.symm.trans hhead
    exact htorn.gone (by rw [hwhole hcalm])

/-- What is not torn is whole. -/
theorem wholeIn_of_changed (h : w.Changed a) (hentered : w.entered.WholeIn σ.codec w.published)
    (htorn : ¬ w.Torn) : w.WholeIn σ.codec w.published := by
  intro id node hnode hvalid
  rcases h id.hex node hnode with hold | ⟨hnone, renamed, hhead, _⟩
  · exact hentered id node hold hvalid
  · refine ⟨renamed, List.mem_of_mem_head? hhead, ?_⟩
    by_contra hgone
    obtain ⟨contents, nlink, hmetadata, _⟩ := hvalid.metadata
    obtain ⟨output, houtput, _⟩ := hvalid.output
    rw [Node.get?_singleton] at hmetadata houtput
    exact htorn ⟨id.hex, renamed, node, hhead, hnone, hnode, by rw [hmetadata]; rfl,
      by rw [houtput]; rfl, hgone⟩

/-! ## Every step -/

/-- What holds of a store in which no rollback has been stopped half way. -/
structure Whole (σ : Setting) (w : World) : Prop where
  free : σ.config.free w w.storeLock = true → w.WholeIn σ.codec w.published
  entered : w.entered.WholeIn σ.codec w.published
  remains : ∀ id node, (StoreResultId.hex id, node) ∈ w.remains → ValidResult σ.codec id node →
    IsWhole w.published id node
  visits : ∀ visit ∈ w.visits, visit.before.WholeIn σ.codec w.published
  published : ∀ hex node, (hex, node) ∈ w.published → ∃ entries encoded,
    node = withMetadata entries encoded ∧ Committable entries

theorem whole_initial : Whole σ .initial where
  free _ _ _ h := nomatch h
  entered _ _ h := nomatch h
  remains _ _ h := nomatch h
  visits _ h := nomatch h
  published _ _ h := nomatch h

/-- A result of a stay under the lock was there before, was published, or was left by a
removal that failed. -/
theorem Whole.wholeIn_of_accounted (h : Whole σ w) (haccounted : w.Accounted) :
    w.WholeIn σ.codec w.published := by
  intro id node hnode hvalid
  rcases haccounted id.hex node hnode with hold | hnew | hleft
  · exact h.entered id node hold hvalid
  · exact ⟨node, hnew, rfl⟩
  · exact h.remains id node hleft hvalid

theorem Whole.step {c : Call} {choice : Choice} (h : Whole σ w) (hstep : ResultsStep σ a w w')
    (halive : w.dead (σ.config.process a) = false) (hsettled : Settled c choice w w')
    (hstops : choice.isFault = true → w.storeLock = some a → w.WholeIn σ.codec w.published) :
    Whole σ w' := by
  have hbusy : w'.storeLock = some a → ¬ σ.config.free w' w'.storeLock = true := by
    intro hlock
    rw [hlock]
    show ¬ w'.dead (σ.config.process a) = true
    rw [hsettled.dead, halive]
    exact Bool.false_ne_true
  cases hstep with
  | keeps hkeeps =>
      refine ⟨fun hfree => ?_, ?_, ?_, ?_, ?_⟩
      · rw [hkeeps.published]
        have hfree' : σ.config.free w w.storeLock = true := by
          rw [hkeeps.storeLock] at hfree
          unfold Config.free at hfree ⊢
          rw [hsettled.dead] at hfree
          exact hfree
        exact fun id node hnode => h.free hfree' id node ((hkeeps.results _).symm.trans hnode)
      · rw [hkeeps.entered, hkeeps.published]
        exact h.entered
      · rw [hkeeps.remains, hkeeps.published]
        exact h.remains
      · rw [hkeeps.visits, hkeeps.published]
        exact h.visits
      · rw [hkeeps.published]
        exact h.published
  | cutShort hex node hlock hnode =>
      have hfault : choice.isFault = true := by
        by_contra hcalm
        exact List.cons_ne_self _ _ (hsettled.remains (Bool.eq_false_iff.mpr hcalm))
      refine ⟨fun hfree => absurd hfree (hbusy hlock), h.entered, fun id left hmem hvalid => ?_,
        h.visits, h.published⟩
      rcases List.mem_cons.mp hmem with heq | hmem
      · cases heq
        exact hstops hfault hlock id node hnode hvalid
      · exact h.remains id left hmem hvalid
  | lock hfree =>
      exact ⟨fun hfree' => absurd hfree' (hbusy rfl), h.free hfree, h.remains, h.visits,
        h.published⟩
  | unlock outcome hlock haccounted hkept =>
      refine ⟨fun _ => h.wholeIn_of_accounted haccounted, h.entered, h.remains,
        fun visit hvisit => ?_, h.published⟩
      rcases List.mem_append.mp hvisit with hold | hnew
      · exact h.visits visit hold
      · obtain rfl := List.mem_singleton.mp hnew
        exact h.entered
  | publish name id entries encoded hlock hclient hclaimed hstill hnone hstaged hcommittable hencoded
      hresults hsame hpublished =>
      obtain ⟨hstoreLock, hentered, hvisits, hremains⟩ := hsame
      have hsub : w.published ⊆ w'.published := by
        rw [hpublished]
        exact List.subset_cons_self _ _
      refine ⟨fun hfree => absurd hfree (hbusy (hstoreLock.trans hlock)), ?_, ?_, ?_, ?_⟩
      · rw [hentered]
        exact h.entered.mono hsub
      · rw [hremains]
        exact fun other node hmem hvalid => (h.remains other node hmem hvalid).mono hsub
      · rw [hvisits]
        exact fun visit hvisit => (h.visits visit hvisit).mono hsub
      · intro hex node hmem
        rw [hpublished] at hmem
        rcases List.mem_cons.mp hmem with heq | hmem
        · exact ⟨entries, encoded, (Prod.mk.inj heq).2, hcommittable⟩
        · exact h.published hex node hmem
  | rollBack hex node hlock hfault hentered hnode hresults hsame =>
      obtain ⟨hstoreLock, hentered, hvisits, hpublished, hremains⟩ := hsame
      refine ⟨fun hfree => absurd hfree (hbusy (hstoreLock.trans hlock)), ?_, ?_, ?_, ?_⟩
      · rw [hentered, hpublished]
        exact h.entered
      · rw [hremains, hpublished]
        exact h.remains
      · rw [hvisits, hpublished]
        exact h.visits
      · rw [hpublished]
        exact h.published

/-- A death frees the lock of the process that has died. -/
theorem Whole.die {process : Process} (h : Whole σ w)
    (hstops : ∀ b, w.storeLock = some b → σ.config.process b = process →
      w.WholeIn σ.codec w.published) :
    Whole σ { w with dead := Function.update w.dead process true } := by
  refine ⟨fun hfree => ?_, h.entered, h.remains, h.visits, h.published⟩
  show w.WholeIn σ.codec w.published
  cases hlock : w.storeLock with
  | none => exact h.free (by rw [hlock]; rfl)
  | some b =>
      by_cases hprocess : σ.config.process b = process
      · exact hstops b hlock hprocess
      · refine h.free ?_
        rw [hlock]
        have hdead : Function.update w.dead process true (σ.config.process b) = true := by
          simp only [hlock] at hfree
          exact hfree
        rw [Function.update_of_ne hprocess] at hdead
        exact hdead

/-! ## Every run -/

theorem whole_of_run {steps : List StoreStep} {s : StoreState} (h : σ.Runs steps s)
    (hspares : σ.config.system.along (Spares σ) σ.initial steps) : Whole σ s.world := by
  refine (System.run_induction (I := fun s => σ.discipline.Good s ∧
    (∀ a, s.world.storeLock = some a → s.world.Changed a) ∧ Whole σ s.world)
    (fun s step s' hs hspares hstep => ⟨hs.1.step hstep, ?_⟩)
    ⟨good_initial, fun _ hlock => (nomatch hlock), whole_initial⟩ hspares h).2.2
  obtain ⟨hgood, hchanged, hwhole⟩ := hs
  have hstops : ∀ a, s.world.storeLock = some a → Stops σ.config s.world step →
      s.world.WholeIn σ.codec s.world.published := fun a hlock hstops =>
    wholeIn_of_changed (hchanged a hlock) hwhole.entered (hspares hstops)
  cases step with
  | event process =>
      rw [die_eq_some (System.step_event hstep).1]
      exact ⟨hchanged, hwhole.die fun b hlock hprocess =>
        hstops b hlock ⟨b, hlock, hprocess⟩⟩
  | act a choice =>
      obtain ⟨halive, c, next, reply, hprogram, hrespond, hworld, _⟩ := System.step_act hstep
      have heffect := respond_effect (hgood.guarded hstep hprogram) hrespond
      rw [hworld]
      refine ⟨fun b hlock => changed_step hchanged (resultsStep heffect)
        (fun _ => effect_faulted heffect) hlock, ?_⟩
      exact hwhole.step (resultsStep heffect) (alive_iff.mp halive) (respond_settled hrespond)
        fun hfault hlock => hstops a hlock ⟨hfault, hlock⟩

/-- If no rollback is stopped half way, what `get` returns is a tree that a commit of the
identifier validated before its rename.  And in every run a commit that fails with another error
than that of a rollback leaves the results alone. -/
theorem got_validated {steps : List StoreStep} {s : StoreState} (h : σ.Runs steps s) {visit : Visit}
    (hvisit : visit ∈ s.world.visits) :
    (σ.config.system.along (Spares σ) σ.initial steps →
      ∀ id result, visit.outcome = .got id (.ok (some result)) → result = publishedResult id ∧
        ∃ tree, visit.before.at? ⟨.results, id.hex, [prefixName]⟩ = some tree ∧
          s.world.Validated id tree) ∧
    ∀ name id e, visit.outcome = .committed name id (.error e) →
      (∀ failure rollback, e ≠ rollbackFailed id failure rollback) →
        visit.before.SameIn .results visit.after := by
  obtain ⟨_, hkept⟩ := h.good.1.visits visit hvisit
  constructor
  · intro hspares id result houtcome
    have hwhole := whole_of_run h hspares
    rw [houtcome] at hkept
    obtain ⟨_, rfl, node, hnode, hvalid⟩ := hkept
    obtain ⟨renamed, hpublished, hsame⟩ := hwhole.visits visit hvisit id node hnode hvalid
    obtain ⟨entries, encoded, rfl, hcommittable⟩ := hwhole.published _ _ hpublished
    obtain ⟨tree, hfound, haccepted⟩ := hcommittable.output
    refine ⟨rfl, tree, ?_, entries, encoded, hpublished, hcommittable, hfound⟩
    rw [Shared.at?, hnode, Option.bind_some, Node.get?_singleton, hsame, child_withMetadata, hfound,
      Option.some_or]
  · intro name id e houtcome hother
    rw [houtcome] at hkept
    rcases hkept.2.1 with hsame | ⟨_, ⟨failure, rollback, heq⟩, _⟩
    · exact hsame
    · exact absurd heq (hother failure rollback)

end Whole

/-! ## A rollback that is stopped -/

/-- What the last visit has found at the prefix of a result. -/
def lastGot (w : World) : Option (StoreResultId × Option Node) :=
  w.visits.getLast?.bind fun visit =>
    match visit.outcome with
    | .got id (.ok (some _)) => some (id, visit.before.at? ⟨.results, id.hex, [prefixName]⟩)
    | _ => none

theorem exists_of_lastGot {w : World} {id : StoreResultId} {tree : Option Node}
    (h : lastGot w = some (id, tree)) :
    ∃ visit ∈ w.visits, ∃ result, visit.outcome = .got id (.ok (some result)) ∧
      visit.before.at? ⟨.results, id.hex, [prefixName]⟩ = tree := by
  obtain ⟨visit, hlast, hgot⟩ := Option.bind_eq_some_iff.mp h
  refine ⟨visit, List.mem_of_getLast? hlast, ?_⟩
  split at hgot
  · rename_i other result houtcome
    cases hgot
    exact ⟨result, houtcome, rfl⟩
  · cases hgot

/-- A call goes through. -/
def StoreStep.isCalm : StoreStep → Bool
  | .act _ choice => !choice.isFault
  | .event _ => false

/-- A run in which only one step stops an agent stops no rollback: there is none before. -/
theorem along_spares {σ : Setting} {front back : List StoreStep} {step : StoreStep}
    (hfront : ∀ step ∈ front, StoreStep.isCalm step = true)
    (hback : ∀ step ∈ back, StoreStep.isCalm step = true) :
    σ.config.system.along (Spares σ) σ.initial (front ++ step :: back) := by
  have hcalm : ∀ (s : StoreState) step, StoreStep.isCalm step = true → Spares σ s step := by
    intro s step hcalm hstops
    cases step with
    | event process => cases hcalm
    | act a choice =>
        rw [StoreStep.isCalm, hstops.1] at hcalm
        cases hcalm
  refine System.along_append (System.along_mono hcalm (System.along_of_mem hfront _))
    fun s hrun => ⟨fun hstops => ?_, fun s' _ =>
      System.along_mono hcalm (System.along_of_mem hback _)⟩
  have hfree : s.world.FaultFree := Setting.Runs.faultFree hrun fun step hmem => by
    have hstep := hfront step hmem
    cases step with
    | event process => cases hstep
    | act a choice => exact (Bool.not_eq_true' _).mp hstep
  obtain ⟨a, hlock⟩ : ∃ a, s.world.storeLock = some a := by
    cases step with
    | event process =>
        obtain ⟨a, hlock, _⟩ := hstops
        exact ⟨a, hlock⟩
    | act a choice => exact ⟨a, hstops.2⟩
  exact not_torn_of_calm (changed_of_run hrun a hlock) (hfree a)

/-- A builder leaves two files and commits; the result has been renamed. -/
def renamesTwoFiles : List StoreStep :=
  beginsAs 0 playStamp ++
    (builds 0 [(prefixName, .dir [(ascii "kept", .file [] 1), (ascii "lost", .file [] 1)])]
      (.commit zerosId) ++ goesOn 0 40)

/-- A transaction that is rolled back, another one, and readers. -/
def twoWriters (a : Agent) : Client := if a ≤ 1 then .transaction else .reader zerosId

def otherStamp : Stamp := ⟨1, 0, 0, playStamp_lt⟩

/-- The rollback takes the result away; then another commit publishes one under the identifier,
and somebody looks it up. -/
def rollsBackWhole : List StoreStep :=
  goesOn 0 3 ++
    ([[prefixName, ascii "lost"], [prefixName, ascii "kept"], [metadataName], [prefixName]].map
      (fun below => Step.act 0 (Choice.delete below)) ++ (goesOn 0 3 ++ (beginsAs 1 otherStamp ++
      (builds 1 [(prefixName, .dir [(ascii "kept", .file [] 1)])] (.commit zerosId) ++
        (goesOn 1 45 ++ goesOn 2 25)))))

/-- Some commit has come back with an error of the operating system. -/
def someIoError (w : World) : Bool :=
  w.visits.any fun visit =>
    match visit.outcome with
    | .committed _ id (.error (.io ..)) => id = zerosId
    | _ => false

theorem exists_of_someIoError {w : World} (h : someIoError w = true) :
    ∃ visit ∈ w.visits, ∃ name e, visit.outcome = .committed name zerosId (.error e) ∧
      ∀ failure rollback, e ≠ rollbackFailed zerosId failure rollback := by
  obtain ⟨visit, hvisit, hfailed⟩ := List.any_eq_true.mp h
  refine ⟨visit, hvisit, ?_⟩
  split at hfailed
  · rename_i name id operation path source houtcome
    rw [decide_eq_true_eq] at hfailed
    rw [hfailed] at houtcome
    exact ⟨name, _, houtcome, fun failure rollback heq => (by cases heq)⟩
  · cases hfailed

/-- `got_validated` where the removal of a lease fails and its commit is rolled back whole: the
commit that comes back with an error has left the results alone, and what is found later is the
tree of the other one. -/
theorem got_validated_rolledBack : ∃ s : StoreState,
    (playSetting twoWriters).Runs (renamesTwoFiles ++ .act 0 (.fault 5 0) :: rollsBackWhole) s ∧
      (∃ visit ∈ s.world.visits, ∃ name e, visit.outcome = .committed name zerosId (.error e) ∧
        visit.before.SameIn .results visit.after) ∧
      ∃ tree, s.world.Validated zerosId tree := by
  have hplay : (playSetting twoWriters).play
      (renamesTwoFiles ++ .act 0 (.fault 5 0) :: rollsBackWhole)
      (fun w => ((lastGot w).map Prod.fst, someIoError w)) = some (some zerosId, true) := by
    decide +kernel
  obtain ⟨s, hruns, hseen⟩ := Setting.Runs.of_play hplay
  obtain ⟨hgot, hfailed⟩ := Prod.mk.inj hseen
  have hspares := @along_spares (playSetting twoWriters) renamesTwoFiles rollsBackWhole
    (.act 0 (.fault 5 0)) (by decide +kernel) (by decide +kernel)
  obtain ⟨⟨id, found⟩, hlast, heq⟩ := Option.map_eq_some_iff.mp hgot
  cases heq
  obtain ⟨visit, hvisit, result, houtcome, _⟩ := exists_of_lastGot hlast
  obtain ⟨_, tree, _, hvalidated⟩ :=
    (got_validated hruns hvisit).1 hspares zerosId result houtcome
  obtain ⟨failed, hmem, name, e, hcommitted, hother⟩ := exists_of_someIoError hfailed
  exact ⟨s, hruns, ⟨failed, hmem, name, e, hcommitted,
    (got_validated hruns hmem).2 name zerosId e hcommitted hother⟩, tree, hvalidated⟩

/-- The removal of the lease fails, the rollback takes one of the files away, and the process
dies; then somebody looks the result up. -/
def stoppedRollback : List StoreStep :=
  renamesTwoFiles ++ .act 0 (.fault 5 0) ::
    (goesOn 0 3 ++ .act 0 (.delete [prefixName, ascii "lost"]) :: .event 0 :: goesOn 1 25)

theorem play_stoppedRollback : (playSetting writerAndReaders).play stoppedRollback
    (fun w => ((lastGot w).map fun found =>
        (found.1, (found.2.bind fun tree => tree.child (ascii "lost")).isSome),
      w.published.all fun renamed => (renamed.2.get? [prefixName, ascii "lost"]).isSome)) =
      some (some (zerosId, false), true) := by
  decide +kernel

/-- `get` returns a tree from which a file has been removed. -/
theorem truncated_result_got : ¬ ∀ (σ : Setting) (steps : List StoreStep) (s : StoreState),
    σ.Runs steps s → ∀ visit ∈ s.world.visits, ∀ id result,
      visit.outcome = .got id (.ok (some result)) →
        ∃ tree, visit.before.at? ⟨.results, id.hex, [prefixName]⟩ = some tree ∧
          s.world.Validated id tree := by
  intro h
  obtain ⟨s, hruns, hseen⟩ := Setting.Runs.of_play play_stoppedRollback
  obtain ⟨hgot, hall⟩ := Prod.mk.inj hseen
  obtain ⟨⟨id, found⟩, hlast, heq⟩ := Option.map_eq_some_iff.mp hgot
  obtain ⟨rfl, hlost⟩ := Prod.mk.inj heq
  obtain ⟨visit, hvisit, result, houtcome, hfound⟩ := exists_of_lastGot hlast
  obtain ⟨tree, htree, entries, encoded, hpublished, _, hlookup⟩ :=
    h _ _ s hruns visit hvisit _ result houtcome
  rw [← hfound, htree, Option.bind_some] at hlost
  -- the file is in every tree that was published
  have hsome := List.all_eq_true.mp hall _ hpublished
  rw [Node.get?_cons, child_withMetadata, hlookup, Option.some_or, Option.bind_some,
    Node.get?_singleton, hlost] at hsome
  cases hsome

end Prep.Store
