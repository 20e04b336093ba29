/-
  Store/Asked.lean --- who has been asked for what it publishes.

  The builder of a transaction says once whether it is committed, and under which identifier.
  Nobody renames a staged directory to a result, or lets go of the store lock as one who has
  committed, but an agent whose builder has asked for a commit of that result; drops, lookups
  and recoveries do neither.

  This is read off the programs, so it holds of every run, whatever fails or dies in it.
-/
import Prep.Machine.Phases
import Prep.Store.CallKinds

set_option autoImplicit false

namespace Prep.Store

open Prep.Machine
open Prep.Text
open Prep.Fs (Node)

/-! ## What a builder has asked for -/

/-- What the builder of an agent has asked for, if anything, and what may be done of it. -/
def asking : Phases Call Answer (Option Command) where
  allows
    | asked, .rename _ hex => ∃ id, asked = some (.commit id) ∧ hex = StoreResultId.hex id
    | asked, .unlockStore (.committed _ id _) => asked = some (.commit id)
    | _, _ => True
  next
    | _, .build _, command => some command
    | asked, _, _ => asked

section Follow

variable {asked : Option Command} {α : Type}

/-- Calls that need not have been asked for may be made at any time. -/
theorem follows_unasked {act : Act α} (h : act.Only Call.Unasked) :
    act.Follows asking (fun _ after => after = asked) asked := by
  refine Program.Only.follows h (fun other c hother hc => ?_) rfl
  subst hother
  cases c with
  | rename | build => cases hc
  | unlockStore outcome =>
      cases outcome with
      | committed => cases hc
      | _ => exact ⟨trivial, fun _ => rfl⟩
  | _ => exact ⟨trivial, fun _ => rfl⟩

theorem follows_tame {act : Act α} (h : act.Only Call.Tame) :
    act.Follows asking (fun _ after => after = asked) asked :=
  follows_unasked (unasked_of_tame h)

theorem unasked_lockStore : Program.Only Call.Unasked lockStore.run :=
  Program.Only.bindE (unasked_of_looks looks_verifyLayout) fun _ =>
    Program.Only.bindE (unasked_of_looks looks_openLockFile) fun _ =>
      only_orIo _ _ (Program.only_perform trivial)

theorem unasked_unlocking {act : Act α} {outcome : α → Outcome} (h : act.Only Call.Unasked)
    (houtcome : ∀ a, Call.Unasked (.unlockStore (outcome a))) :
    (unlocking act outcome).Only Call.Unasked :=
  Program.Only.bind h fun a =>
    Program.Only.bind (Program.only_perform (houtcome a)) fun _ => Program.only_ret _

theorem unasked_locked {op : Op α} {outcome : Except StoreError α → Outcome}
    (h : Program.Only Call.Unasked op.run)
    (houtcome : ∀ result, Call.Unasked (.unlockStore (outcome result))) :
    Program.Only Call.Unasked (locked op outcome).run :=
  Program.Only.bindE unasked_lockStore fun _ => unasked_unlocking h houtcome

theorem unasked_drop {act : Act Unit} {outcome : Unit → Outcome} (h : Drops outcome act)
    (houtcome : Call.Unasked (.unlockStore (outcome ()))) : act.Only Call.Unasked := by
  cases h with
  | closes h => exact unasked_of_tame h
  | removes herror hok hinside hclose =>
      refine Program.Only.bind unasked_lockStore fun result => ?_
      cases result with
      | error e =>
          rw [herror]
          exact unasked_of_tame hclose
      | ok _ =>
          rw [hok]
          exact unasked_unlocking (unasked_of_tame hinside) fun _ => houtcome

theorem unasked_newLease (operation : String) : (newLease operation).Only Call.Unasked := by
  refine Program.Only.bind (Program.only_perform trivial) fun id => ?_
  refine Program.Only.bind (Program.Only.bindE (only_orIo _ _ (Program.only_perform trivial))
    fun ino => Program.Only.bindE (unasked_of_looks (looks_verifyOpenFileIdentity _ ino))
      fun _ => Program.only_ret _) fun created => ?_
  rcases created with e | ino
  · split
    · exact Program.only_ret _
    · exact Program.only_ret _
    · rename_i heq
      cases heq
  · refine Program.Only.bind (Program.only_perform trivial) fun answer => ?_
    cases answer with
    | error source =>
        exact Program.Only.bind (Program.only_perform trivial) fun _ => Program.only_ret _
    | ok _ => exact Program.only_ret _

theorem unasked_beginAttempts (n : Nat) : Program.Only Call.Unasked (beginAttempts n).run := by
  induction n with
  | zero => exact Program.only_ret _
  | succ n ih =>
      refine Program.Only.bind (unasked_newLease _) fun lease => ?_
      rcases lease with _ | e | ⟨id, ino⟩
      · exact ih
      · exact Program.only_ret _
      · refine Program.Only.bind (unasked_of_tame (tame_createStaging _ ino)) fun created => ?_
        cases created with
        | none => exact ih
        | some result => exact Program.only_ret _

theorem unasked_beginUnverifiedSourceAttempts (n : Nat) :
    Program.Only Call.Unasked (beginUnverifiedSourceAttempts n).run := by
  induction n with
  | zero => exact Program.only_ret _
  | succ n ih =>
      refine Program.Only.bind (unasked_newLease _) fun lease => ?_
      rcases lease with _ | e | ⟨id, ino⟩
      · exact ih
      · exact Program.only_ret _
      · refine Program.Only.bind (unasked_of_tame (tame_createSourceStaging _ ino))
          fun created => ?_
        cases created with
        | none => exact ih
        | some result => exact Program.only_ret _

theorem follows_unlockingAsked {act : Act α} {outcome : α → Outcome}
    (h : act.Follows asking (fun _ after => after = asked) asked)
    (houtcome : ∀ a, asking.allows asked (.unlockStore (outcome a))) :
    (unlocking act outcome).Follows asking (fun _ after => after = asked) asked := by
  refine Program.Follows.bind h fun result _ heq => ?_
  subst heq
  exact ⟨houtcome result, fun _ => rfl⟩

/-- A commit that was asked for renames to its own result. -/
theorem follows_publish (codec : MetadataCodec) (tx : StoreTransaction) (id : StoreResultId)
    (hasked : asked = some (.commit id)) :
    (publish codec tx id).Follows asking (fun _ after => after = asked) asked := by
  have hfound : Program.Follows asking (fun _ after => after = asked)
      (nodeExists (resultPlace id)).run asked := follows_tame (tame_nodeExists _)
  have hdiscard : ∀ operation, (discardRedundant codec tx id operation).Follows asking
      (fun _ after => after = asked) asked :=
    fun operation => follows_tame (tame_discardRedundant codec tx id operation)
  refine Program.Follows.bind hfound fun found _ heq => ?_
  subst heq
  rcases found with e | _ | _
  · exact Program.follows_ret rfl
  · refine Program.Follows.bind (Program.follows_perform ⟨id, hasked, rfl⟩ fun _ => rfl)
      fun renamed _ heq => ?_
    subst heq
    cases renamed with
    | ok _ => exact follows_tame (tame_confirm codec tx id)
    | error source =>
        refine Program.Follows.bind hfound fun found _ heq => ?_
        subst heq
        rcases found with e | _ | _
        · exact Program.follows_ret rfl
        · exact Program.follows_ret rfl
        · exact hdiscard _
  · exact hdiscard _

theorem follows_commitAsked (codec : MetadataCodec) (tx : StoreTransaction) (id : StoreResultId)
    (hasked : asked = some (.commit id)) :
    (commit codec tx id).Follows asking (fun _ after => after = asked) asked := by
  have hend : ∀ (result : Except StoreError PublishOutcome) (tx : StoreTransaction),
      (dropTransaction tx >>= fun _ => .ret result).Follows asking (fun _ after => after = asked)
        asked := fun result tx =>
    follows_unasked (Program.Only.bind (unasked_drop (drops_dropTransaction tx) trivial)
      fun _ => Program.only_ret _)
  refine Program.Follows.bind (follows_unasked unasked_lockStore) fun result _ heq => ?_
  subst heq
  cases result with
  | error e => exact hend (.error e) tx
  | ok _ =>
      refine Program.Follows.bind (follows_unlockingAsked (Program.Follows.bind
        (follows_tame (tame_prepare codec tx id)) fun prepared _ heq => ?_) fun _ => hasked)
        fun committed _ heq => ?_
      · subst heq
        cases prepared with
        | error e => exact Program.follows_ret rfl
        | ok _ => exact follows_publish codec tx id hasked
      · subst heq
        exact hend committed.1 committed.2

/-- What an agent uses the store for asks for nothing before its builder does. -/
theorem follows_asking (codec : MetadataCodec) (client : Client) :
    (client.program codec).Follows asking (fun _ _ => True) none := by
  have hunasked : ∀ {act : Act Unit} {asked : Option Command}, act.Only Call.Unasked →
      act.Follows asking (fun _ _ => True) asked :=
    fun h => (follows_unasked h).mono fun _ _ _ => trivial
  cases client with
  | transaction =>
      refine Program.Follows.bind (follows_unasked (unasked_locked (unasked_beginAttempts 128)
        fun _ => trivial)) fun begun _ heq => ?_
      subst heq
      cases begun with
      | error e => exact Program.follows_ret trivial
      | ok tx =>
          have hbuild : (perform (.build tx.id)).Follows asking
              (fun command after => after = some command) none :=
            Program.follows_perform trivial fun _ => rfl
          refine Program.Follows.bind hbuild fun command _ heq => ?_
          subst heq
          cases command with
          | drop => exact hunasked (unasked_drop (drops_dropTransaction tx) trivial)
          | commit id =>
              exact Program.Follows.bind (follows_commitAsked codec tx id rfl)
                fun _ _ _ => Program.follows_ret trivial
  | sourceStage =>
      refine hunasked (Program.Only.bind (unasked_locked
        (unasked_beginUnverifiedSourceAttempts 128) fun _ => trivial) fun begun => ?_)
      cases begun with
      | error e => exact Program.only_ret _
      | ok stage =>
          exact Program.Only.bind (Program.only_perform trivial)
            fun _ => unasked_drop (drops_dropStage stage) trivial
  | recovery =>
      exact hunasked (Program.Only.bind (unasked_locked (unasked_of_tame tame_recoverAll)
        fun _ => trivial) fun _ => Program.only_ret _)
  | reader id =>
      exact hunasked (Program.Only.bind (unasked_locked (unasked_of_tame (tame_lookUp codec id))
        fun _ => trivial) fun _ => Program.only_ret _)

end Follow

/-! ## Every step of a run -/

/-- In these steps the builder of the agent asks for a commit under the identifier. -/
def Asked (steps : List StoreStep) (a : Agent) (id : StoreResultId) : Prop :=
  Step.act a (.command (.commit id)) ∈ steps

/-- What a step publishes, and the commit that a step ends, is asked for. -/
structure Asks (asked : StoreResultId → Prop) (w w' : World) : Prop where
  published : ∀ id node, w'.published = (StoreResultId.hex id, node) :: w.published → asked id
  committed : ∀ a name id result before after,
    w'.visits = w.visits ++ [⟨a, .committed name id result, before, after⟩] → asked id

/-- What the builders have asked for was asked for in these steps. -/
def Answering (steps : List StoreStep) (s : StoreState) : Prop :=
  ∀ a, ∃ asked : Option Command, (∀ id, asked = some (.commit id) → Asked steps a id) ∧
    (s.program a).Follows asking (fun _ _ => True) asked

section Runs

variable {σ : Setting} {a : Agent} {s s' : StoreState} {steps : List StoreStep} {w w' : World}

theorem published_rename {name hex : Bytes} {choice : Choice}
    {reply : Reply (Except Prep.Io.IoError Unit) World}
    (h : respond σ.config a (.rename name hex) choice w = some reply) :
    reply.world.published = w.published ∨
      ∃ node, reply.world.published = (hex, node) :: w.published := by
  rcases mayFail_eq_some h with ⟨code, rfl⟩ | h
  · exact .inl rfl
  · split at h
    · cases h
      exact .inl rfl
    · rename_i node hnode
      split at h <;> cases h
      · exact .inr ⟨node, rfl⟩
      · exact .inr ⟨node, rfl⟩
      · exact .inl rfl
      · exact .inl rfl

/-- A call that may be made publishes, and ends a commit, as its agent was asked. -/
theorem asks_of_respond {c : Call} {choice : Choice} {reply : Reply (Answer c) World}
    {asked : Option Command} (hallows : asking.allows asked c)
    (h : respond σ.config a c choice w = some reply) :
    Asks (fun id => asked = some (.commit id)) w reply.world where
  published id node heq := by
    have hsettled := respond_settled h
    cases c with
    | rename name hex =>
        obtain ⟨own, hasked, rfl⟩ := hallows
        rcases published_rename h with hsame | ⟨found, hcons⟩
        · rw [hsame] at heq
          exact absurd heq List.ne_cons_self
        · obtain ⟨hentry, _⟩ := List.cons.inj (hcons.symm.trans heq)
          rw [← StoreResultId.ext (Prod.mk.inj hentry).1]
          exact hasked
    | _ =>
        rw [hsettled.published fun _ _ hcall => by cases hcall] at heq
        exact absurd heq List.ne_cons_self
  committed b name id result before after heq := by
    have hsettled := respond_settled h
    cases c with
    | unlockStore outcome =>
        cases choice with
        | proceed =>
            cases h
            have hvisit := List.singleton_inj.mp (List.append_cancel_left heq)
            obtain ⟨_, rfl, _, _⟩ := Visit.mk.inj hvisit
            exact hallows
        | fault | stamp | delete | fill | command => cases h
    | _ =>
        rw [hsettled.visits fun _ hcall => by cases hcall] at heq
        exact absurd (List.append_right_eq_self.mp heq.symm) (List.cons_ne_nil _ _)

/-- A builder is answered in a step of its own. -/
theorem asked_next {c : Call} {choice : Choice} {answer : Answer c} {asked : Option Command}
    (hasked : ∀ id, asked = some (.commit id) → Asked steps a id)
    (hstep : Step.act a choice ∈ steps)
    (h : respond σ.config a c choice w = some (.done answer w')) (id : StoreResultId)
    (hid : asking.next asked c answer = some (.commit id)) : Asked steps a id := by
  cases c with
  | build name =>
      cases choice with
      | command command =>
          cases h
          obtain rfl := Option.some.inj hid
          exact hstep
      | fill entries =>
          unfold respond at h
          dsimp only at h
          split at h <;> cases h
      | proceed | fault | stamp | delete => cases h
  | _ => exact hasked id hid

theorem answering_initial (σ : Setting) (steps : List StoreStep) : Answering steps σ.initial :=
  fun a => ⟨none, fun _ h => (by cases h), follows_asking σ.codec (σ.clients a)⟩

/-- Agents stay answering, and what an agent publishes it has been asked for. -/
theorem Answering.step (h : Answering steps s) {step : StoreStep} (hmem : step ∈ steps)
    (hstep : σ.config.system.step s step = some s') :
    Answering steps s' ∧ ∀ a choice, step = .act a choice →
      Asks (Asked steps a) s.world s'.world := by
  cases step with
  | event process =>
      obtain ⟨_, hprogram⟩ := System.step_event hstep
      refine ⟨fun a => ?_, fun a choice heq => by cases heq⟩
      rw [hprogram]
      exact h a
  | act b choice =>
      obtain ⟨_, c, next, reply, hprogram, hrespond, hworld, hreply⟩ := System.step_act hstep
      obtain ⟨asked, hasked, hfollows⟩ := h b
      rw [hprogram] at hfollows
      obtain ⟨hallows, hnext⟩ := hfollows
      refine ⟨fun a => ?_, fun a other heq => ?_⟩
      · cases reply with
        | done answer w =>
            rw [hreply]
            rcases eq_or_ne a b with rfl | hne
            · rw [Function.update_self]
              exact ⟨_, asked_next hasked hmem hrespond, hnext answer⟩
            · rw [Function.update_of_ne hne]
              exact h a
        | more w =>
            rw [hreply]
            exact h a
      · obtain ⟨rfl, _⟩ := Step.act.inj heq
        rw [hworld]
        obtain ⟨hpublished, hcommitted⟩ := asks_of_respond hallows hrespond
        exact ⟨fun id node heq => hasked id (hpublished id node heq),
          fun _ name id result before after heq =>
            hasked id (hcommitted _ name id result before after heq)⟩

end Runs

end Prep.Store
