/-
  Store/Runs.lean --- the runs of a store from its creation on.

  Any number of agents take turns in any order, any call may fail, and any process may die
  between two calls.  In every state that is reached each living agent keeps to the
  discipline, so every step has one of the effects that the discipline allows.

  Scope: an agent is one handle of the store with what is done with it, and has a process, of
  which there may be several.  What is written is there for all at once and stays when a process
  dies: the machine itself does not fail, so nothing is said of what a `sync` is for.  A rename
  happens at once; `remove_dir_all` takes one leaf after another.
-/
import Prep.Store.BeginRules
import Prep.Store.CommitRules
import Prep.Store.RecoveryRules

set_option autoImplicit false

namespace Prep.Store

open Prep.Machine
open Prep.Text
open Prep.Fs (Node Path)
open Prep.Io (IoError)

/-- What an empty store shares. -/
def Shared.empty : Shared where
  area _ := ∅
  leases := ∅
  dead _ := false

/-- A store that `Store::open` has just created. -/
def World.initial : World where
  toShared := .empty
  storeLock := none
  nextIno := 0
  drawn := []
  faulted _ := false
  entered := .empty
  visits := []
  published := []
  remains := []

/-- No call has failed with a fault. -/
def World.FaultFree (w : World) : Prop := ∀ a, w.faulted a = false

/-- A step of a store. -/
abbrev StoreStep : Type := Step Agent Choice Process

/-- A call is made to fail. -/
def StoreStep.isFault : StoreStep → Bool
  | .act _ choice => choice.isFault
  | .event _ => false

/-- No call is made to fail. -/
def Faultless (steps : List StoreStep) : Prop := ∀ step ∈ steps, StoreStep.isFault step = false

instance (steps : List StoreStep) : Decidable (Faultless steps) :=
  inferInstanceAs (Decidable (∀ step ∈ steps, StoreStep.isFault step = false))

/-- The state of a store with the programs of its agents. -/
abbrev StoreState : Type := State Agent Call Answer World

namespace Setting

variable (σ : Setting)

/-- Nobody has done anything. -/
def initial : StoreState := ⟨.initial, fun a => (σ.clients a).program σ.codec⟩

/-- A run of the store from its creation on. -/
def Runs (steps : List StoreStep) (s : StoreState) : Prop :=
  σ.config.system.run σ.initial steps = some s

end Setting

section Runs

variable {σ : Setting} {a : Agent} {s s' : StoreState} {steps : List StoreStep}

/-! ## Every agent keeps to the discipline -/

theorem inv_initial (codec : MetadataCodec) (config : Config) : Inv codec config .initial where
  drawnOnce _ _ _ h := nomatch h
  drawnValid _ _ h := nomatch h
  leaseValid _ h := nomatch h
  stagedValid _ _ _ _ h := nomatch h
  visits _ h := nomatch h

/-- What an agent uses the store for. -/
theorem meets_program {client : Client} (hclient : σ.clients a = client) :
    σ.Meets a (fun w => ∀ file ino, w.lease file ≠ some ⟨ino, some a⟩)
      (client.program σ.codec) fun _ _ => True := by
  have htrue : σ.Stable a fun _ => True := Discipline.stable_const True
  cases client with
  | transaction =>
      refine Discipline.Triple.bind (Discipline.Triple.pre meets_begin fun _ _ _ => trivial)
        fun begun => ?_
      cases begun with
      | error e => exact Discipline.triple_ret htrue fun _ _ _ => trivial
      | ok tx =>
          refine Discipline.triple_exists fun id => Discipline.triple_exists fun ino => ?_
          refine Discipline.triple_of fun htx => ?_
          obtain rfl := htx
          refine Discipline.Triple.bind (meets_build id ino) fun command => ?_
          cases command with
          | drop =>
              exact Discipline.Triple.pre (meets_dropTransaction _) fun _ _ h =>
                ⟨h, fun hfinished => by cases hfinished⟩
          | commit result =>
              exact Discipline.Triple.bind (meets_commit hclient) fun _ =>
                Discipline.triple_ret htrue fun _ _ _ => trivial
  | sourceStage =>
      refine Discipline.Triple.bind (Discipline.Triple.pre meets_beginUnverifiedSource
        fun _ _ _ => trivial) fun begun => ?_
      cases begun with
      | error e => exact Discipline.triple_ret htrue fun _ _ _ => trivial
      | ok stage =>
          refine Discipline.triple_exists fun id => Discipline.triple_exists fun ino => ?_
          refine Discipline.triple_of fun hstage => ?_
          obtain rfl := hstage
          exact Discipline.Triple.bind (meets_hold id ino) fun _ => meets_dropStage id ino
  | recovery =>
      exact Discipline.Triple.bind meets_recoverAbandoned fun _ =>
        Discipline.triple_ret htrue fun _ _ _ => trivial
  | reader id =>
      exact Discipline.Triple.bind (Discipline.Triple.pre meets_get fun _ _ _ => trivial) fun _ =>
        Discipline.triple_ret htrue fun _ _ _ => trivial

theorem good_initial : σ.discipline.Good σ.initial :=
  ⟨inv_initial σ.codec σ.config, fun _ _ =>
    meets_program rfl _ (inv_initial σ.codec σ.config) fun _ _ h => nomatch h⟩

theorem Setting.Runs.good (h : σ.Runs steps s) : σ.discipline.Good s := good_initial.run h

/-! ## Every step has its effect -/

/-- A step is the death of a process, or an effect that the discipline allows. -/
theorem step_effect (hgood : σ.discipline.Good s) {step : StoreStep}
    (h : σ.config.system.step s step = some s') :
    (∃ process, step = .event process ∧
      s'.world = { s.world with dead := Function.update s.world.dead process true }) ∨
    ∃ a choice, step = .act a choice ∧ s.world.dead (σ.config.process a) = false ∧
      Effect σ.codec σ.config σ.clients a s.world s'.world := by
  cases step with
  | event process =>
      obtain ⟨hhappen, _⟩ := System.step_event h
      exact .inl ⟨process, rfl, die_eq_some hhappen⟩
  | act a choice =>
      obtain ⟨halive, c, next, reply, hprogram, hrespond, hworld, _⟩ := System.step_act h
      refine .inr ⟨a, choice, rfl, alive_iff.mp halive, ?_⟩
      rw [hworld]
      exact respond_effect (hgood.guarded h hprogram) hrespond

/-- What holds of a new store, and is kept by every death and every effect, holds in every
state that is reached. -/
theorem Setting.Runs.induction {I : World → Prop} (hinitial : I .initial)
    (hdie : ∀ w process, I w → I { w with dead := Function.update w.dead process true })
    (hact : ∀ a w w', Inv σ.codec σ.config w → w.dead (σ.config.process a) = false →
      Effect σ.codec σ.config σ.clients a w w' → I w → I w')
    (h : σ.Runs steps s) : I s.world := by
  refine System.run_induction (I := fun s => σ.discipline.Good s ∧ I s.world)
    (fun s step s' hs _ hstep => ⟨hs.1.step hstep, ?_⟩) ⟨good_initial, hinitial⟩
    (System.along_true _ _) h |>.2
  rcases step_effect hs.1 hstep with ⟨process, _, hworld⟩ | ⟨a, choice, _, halive, heffect⟩
  · rw [hworld]
    exact hdie s.world process hs.2
  · exact hact a s.world s'.world hs.1.1 halive heffect hs.2

theorem faultFree_step (hfree : s.world.FaultFree) {step : StoreStep}
    (hcalm : StoreStep.isFault step = false) (hstep : σ.config.system.step s step = some s') :
    s'.world.FaultFree := by
  cases step with
  | event process =>
      rw [die_eq_some (System.step_event hstep).1]
      exact hfree
  | act a choice =>
      obtain ⟨_, c, next, reply, _, hrespond, hworld, _⟩ := System.step_act hstep
      intro b
      rw [hworld, (respond_settled hrespond).faulted hcalm]
      exact hfree b

/-- Where no call is made to fail none has failed. -/
theorem Setting.Runs.faultFree (h : σ.Runs steps s) (hsteps : Faultless steps) :
    s.world.FaultFree :=
  System.run_induction (I := fun s => s.world.FaultFree)
    (fun _ _ _ hfree hcalm hstep => faultFree_step hfree hcalm hstep) (fun _ => rfl)
    (System.along_of_mem hsteps _) h

theorem effect_faulted {codec : MetadataCodec} {config : Config} {clients : Agent → Client}
    {w w' : World} (h : Effect codec config clients a w w') {b : Agent}
    (hfault : w.faulted b = true) : w'.faulted b = true := by
  cases h with
  | fault => exact faulted_mono hfault
  | cutShort => exact faulted_mono hfault
  | work _ _ _ _ failed =>
      cases failed
      · exact hfault
      · exact faulted_mono hfault
  | rollBack _ node => cases node <;> exact hfault
  | _ => exact hfault

/-! ## What happens to the results -/

/-- The results and what is remembered of them are as they were. -/
structure KeepsResults (w w' : World) : Prop where
  storeLock : w'.storeLock = w.storeLock
  entered : w'.entered = w.entered
  visits : w'.visits = w.visits
  published : w'.published = w.published
  remains : w'.remains = w.remains
  results : w.SameIn .results w'.toShared

/-- An effect, as far as the results are concerned. -/
inductive ResultsStep (σ : Setting) (a : Agent) (w : World) : World → Prop
  | keeps {w' : World} (h : KeepsResults w w') : ResultsStep σ a w w'
  | cutShort (hex : Bytes) (node : Node) (hlock : w.storeLock = some a)
      (hnode : w.node .results hex = some node) :
      ResultsStep σ a w (World.fault { w with remains := (hex, node) :: w.remains } a)
  | lock (hfree : σ.config.free w w.storeLock = true) :
      ResultsStep σ a w { w with storeLock := some a, entered := w.toShared }
  | unlock (outcome : Outcome) (hlock : w.storeLock = some a) (haccounted : w.Accounted)
      (hkept : Visit.Kept σ.codec σ.config w.faulted ⟨a, outcome, w.entered, w.toShared⟩) :
      ResultsStep σ a w
        { w with
          storeLock := none
          visits := w.visits ++ [⟨a, outcome, w.entered, w.toShared⟩] }
  | publish {w' : World} (name : Bytes) (id : StoreResultId) (entries : List (Bytes × Node))
      (encoded : Bytes) (hlock : w.storeLock = some a) (hclient : σ.clients a = .transaction)
      (hclaimed : w.entered.HeldBy a name) (hstill : w.entered.SameIn .results w.toShared)
      (hfree : w.node .results id.hex = none)
      (hstaged : w.entered.node .staging name = some (.dir entries))
      (hcommittable : Committable entries)
      (hencoded : σ.codec.toToml (completeMetadata id) = .ok encoded)
      (hresults : ∀ hex, w'.node .results hex =
        if hex = id.hex then some (withMetadata entries encoded) else w.node .results hex)
      (hsame : w'.storeLock = w.storeLock ∧ w'.entered = w.entered ∧ w'.visits = w.visits ∧
        w'.remains = w.remains)
      (hpublished : w'.published = (id.hex, withMetadata entries encoded) :: w.published) :
      ResultsStep σ a w w'
  | rollBack {w' : World} (hex : Bytes) (node : Option Node) (hlock : w.storeLock = some a)
      (hfault : w.faulted a = true) (hentered : w.entered.node .results hex = none)
      (hnode : (w.node .results hex).isSome = true)
      (hresults : ∀ other, w'.node .results other =
        if other = hex then node else w.node .results other)
      (hsame : w'.storeLock = w.storeLock ∧ w'.entered = w.entered ∧ w'.visits = w.visits ∧
        w'.published = w.published ∧ w'.remains = w.remains) :
      ResultsStep σ a w w'

theorem keepsResults_setNode {w : World} {area : Area} (harea : area.isStaging = true)
    (id : Bytes) (node : Node) : KeepsResults w (w.setNode area id node) :=
  ⟨rfl, rfl, rfl, rfl, rfl, fun _ => by
    rw [World.node_setNode, if_neg fun h => isStaging_ne_results harea h.1.symm]⟩

theorem resultsStep {w w' : World} (h : Effect σ.codec σ.config σ.clients a w w') :
    ResultsStep σ a w w' := by
  cases h with
  | same | fault | draw | createLease | lockLease | release | removeLease =>
      exact .keeps ⟨rfl, rfl, rfl, rfl, rfl, fun _ => rfl⟩
  | cutShort hex node hlock hnode => exact .cutShort hex node hlock hnode
  | lock hfree => exact .lock hfree
  | unlock outcome hlock haccounted hkept => exact .unlock outcome hlock haccounted hkept
  | stage area id hlock harea => exact .keeps (keepsResults_setNode harea id _)
  | work area id node node' failed harea =>
      cases failed
      · exact .keeps (keepsResults_setNode harea id node')
      · obtain ⟨hlock, hentered, hvisits, hpublished, hremains, hresults⟩ :=
          @keepsResults_setNode w area harea id node'
        exact .keeps ⟨hlock, hentered, hvisits, hpublished, hremains, hresults⟩
  | unstage area id hlock harea =>
      refine .keeps ⟨rfl, rfl, rfl, rfl, rfl, fun _ => ?_⟩
      rw [World.node_eraseNode, if_neg fun h => isStaging_ne_results harea h.1.symm]
  | publish name id entries encoded hlock hclient hheld hfree hcommittable hencoded hentered
      hnode hsame hclaimed =>
      refine .publish name id entries encoded hlock hclient hclaimed hsame hfree hentered
        hcommittable hencoded (fun hex => ?_) ⟨rfl, rfl, rfl, rfl⟩ rfl
      refine (World.node_setNode ..).trans (if_congr (and_iff_right rfl) rfl ?_)
      exact (World.node_eraseNode ..).trans (if_neg fun heq => by cases heq.1)
  | rollBack hex node hlock hclient hfault hentered hnode =>
      refine .rollBack hex node hlock hfault hentered hnode (fun other => ?_) ?_
      · cases node
        · exact (World.node_eraseNode ..).trans (if_congr (and_iff_right rfl) rfl rfl)
        · exact (World.node_setNode ..).trans (if_congr (and_iff_right rfl) rfl rfl)
      · cases node <;> exact ⟨rfl, rfl, rfl, rfl, rfl⟩

end Runs

/-! ## Runs that can be played -/

theorem isAscii_of_isLowerHexdigit (byte : UInt8) :
    isLowerHexdigit byte = true → isAscii byte = true := by
  revert byte
  decide +kernel

/-- The lines of the metadata that precede the identifier. -/
def metadataHead : Bytes := ascii "schema = \"prep.result/1\"\nresult_id = \""

/-- The lines that follow it. -/
def metadataTail : Bytes := ascii "\"\nstate = \"complete\"\nretention = \"pinned\"\n"

theorem valid_metadata (id : StoreResultId) :
    Utf8.valid (metadataHead ++ (id.asString ++ metadataTail)) = true := by
  refine Utf8.valid_of_isAscii ?_
  have hhex : id.hex.all isAscii = true := by
    rw [List.all_eq_true]
    intro byte hbyte
    exact isAscii_of_isLowerHexdigit byte (List.all_eq_true.mp id.hexdigits byte hbyte)
  have hhead : metadataHead.all isAscii = true := by decide +kernel
  have htag : (ascii "sha256:").all isAscii = true := by decide +kernel
  have htail : metadataTail.all isAscii = true := by decide +kernel
  simp only [StoreResultId.asString, List.all_append, hhex, hhead, htag, htail, Bool.and_self]

/-- The document `toml::to_string` writes for metadata without characters to escape, and
a reader of the documents of complete results. -/
def textCodec : MetadataCodec where
  toToml metadata := .ok (ascii "schema = \"" ++ metadata.schema ++ ascii "\"\nresult_id = \"" ++
    metadata.resultId ++ ascii "\"\nstate = \"" ++ metadata.state ++
    ascii "\"\nretention = \"" ++ metadata.retention ++ ascii "\"\n")
  fromToml encoded :=
    match stripPrefix metadataHead encoded with
    | some rest =>
        if metadataTail.isSuffixOf rest then
          .ok ⟨resultSchemaV1, rest.take (rest.length - metadataTail.length), ascii "complete",
            resultRetentionPinned⟩
        else .error "not the metadata of a complete result"
    | none => .error "not the metadata of a complete result"
  reads_back id := by
    refine ⟨metadataHead ++ (id.asString ++ metadataTail), ?_, valid_metadata id, ?_⟩
    · simp only [List.append_assoc]
      rfl
    · have hsuffix : metadataTail.isSuffixOf (id.asString ++ metadataTail) = true :=
        List.isSuffixOf_iff_suffix.mpr (List.suffix_append _ _)
      have htake : (id.asString ++ metadataTail).take
          ((id.asString ++ metadataTail).length - metadataTail.length) = id.asString := by
        rw [List.length_append, Nat.add_sub_cancel, List.take_left']
        rfl
      simp only [stripPrefix_append, hsuffix, htake, if_true]
      rfl

/-- A store in which every agent has a process of its own. -/
def playSetting (clients : Agent → Client) : Setting := ⟨textCodec, ⟨id⟩, clients⟩

theorem length_zeros : (List.replicate 64 (48 : UInt8)).length = 64 := List.length_replicate

theorem hexdigits_zeros : (List.replicate 64 (48 : UInt8)).all isLowerHexdigit = true := by
  decide +kernel

/-- An identifier of a result. -/
def zerosId : StoreResultId := ⟨List.replicate 64 48, length_zeros, hexdigits_zeros⟩

/-- A transaction, and readers. -/
def writerAndReaders (a : Agent) : Client := if a = 0 then .transaction else .reader zerosId

theorem playStamp_lt : 0 < 2 ^ 128 := by decide

def playStamp : Stamp := ⟨0, 0, 0, playStamp_lt⟩

/-- So many calls of an agent go through. -/
def goesOn (a : Agent) (count : Nat) : List StoreStep := List.replicate count (.act a .proceed)

/-- The calls of `begin` up to the identifier, and those after it. -/
def beginsAs (a : Agent) (stamp : Stamp) : List StoreStep :=
  goesOn a 16 ++ .act a (.stamp stamp) :: goesOn a 7

/-- What the builder of a transaction leaves below the staging directory, and asks for. -/
def builds (a : Agent) (entries : List (Bytes × Node)) (command : Command) : List StoreStep :=
  [.act a (.fill entries), .act a (.command command)]

/-- A builder leaves a prefix and something beside it, and commits. -/
def publishingRun (output beside : List (Bytes × Node)) : List StoreStep :=
  beginsAs 0 playStamp ++ (builds 0 ((prefixName, .dir output) :: beside) (.commit zerosId) ++
    goesOn 0 45)

/-- What is seen of the world after a run. -/
def Setting.play {α : Type} (σ : Setting) (steps : List StoreStep) (see : World → α) : Option α :=
  (σ.config.system.run σ.initial steps).map fun s => see s.world

theorem Setting.Runs.of_play {α : Type} {σ : Setting} {steps : List StoreStep}
    {see : World → α} {seen : α} (h : σ.play steps see = some seen) :
    ∃ s, σ.Runs steps s ∧ see s.world = seen :=
  Option.map_eq_some_iff.mp h

end Prep.Store
