/-
  Core/Plugin/Panics.lean --- where the host may panic.

  The host panics only where it adds a duration to what the clock shows, and the sum is no
  instant.  It does so for the time of an operation, and for the grace of a process group.
  With durations of at most 2^62 seconds it never does.

  What the loops of the host do otherwise does not matter here; what was done before a panic
  is said in the words of `Core/Plugin/Traces.lean`.
-/
import Prep.Core.Plugin.Traces

set_option autoImplicit false

namespace Prep.Core.Plugin

open Prep.Io (IoError)
open Prep.Machine
open Prep.Protocol
open Prep.Serde
open Prep.Text

/-! ## Deadlines -/

theorem checkedAdd_eq_some {start : Instant} {duration : Duration}
    (h : start + duration < instantEnd) : checkedAdd start duration = some (start + duration) :=
  if_pos h

/-- What the clock shows leaves room for long durations. -/
theorem lt_instantEnd {start : Instant} {duration : Duration} (hstart : start < clockEnd)
    (hduration : duration ≤ clockEnd) : start + duration < instantEnd := by
  have htwice : clockEnd + clockEnd = instantEnd := by decide
  rw [← htwice]
  exact Nat.add_lt_add_of_lt_of_le hstart hduration

/-! ## Actions that never panic -/

def Call.Panics : Call → Prop
  | .panic _ => True
  | _ => False

/-- An action that never panics. -/
abbrev Calm {α : Type} (act : Host α) : Prop := Unbroken Call.Panics act

/-- A program without a clock that never panics. -/
abbrev CalmProgram {α : Type} (p : Program Call Answer α) : Prop :=
  ∀ past, p.Before Call.Panics (fun _ => False) past

theorem calm_perform {c : Call} (h : ¬ c.Panics) : Calm (perform c) := unbroken_call h

theorem calm_now : Calm now := fun _ _ _ => ⟨id, fun _ => trivial⟩

theorem calm_liftM {α : Type} {p : Program Call Answer α} (h : CalmProgram p) :
    Calm (liftM p) :=
  fun _ past _ => (h past).bind (p.keeps_anything past) fun _ _ _ => trivial

theorem calm_signalProcessGroup (id : UInt32) (signal : String) :
    CalmProgram (signalProcessGroup id signal) :=
  fun _ => ⟨fun h => h, fun _ => trivial⟩

theorem calm_groupGone (id : UInt32) : CalmProgram (groupGone id) := fun past =>
  (calm_signalProcessGroup id "-0" past).bind (Program.keeps_anything _ past) fun _ _ _ => trivial

theorem calm_reapRound (id : UInt32) : CalmProgram (reapRound id) := by
  refine fun past => ⟨fun h => h, fun answer => ?_⟩
  cases answer with
  | error e => trivial
  | ok status => exact calm_groupGone id _

theorem calm_graceLoop (deadline clock : Instant)
    {body : Program Call Answer (Except IoError Bool)} (hbody : CalmProgram body) :
    CalmProgram (graceLoop deadline body clock) := by
  induction hleft : deadline - clock using Nat.strong_induction_on generalizing clock with
  | _ left ih =>
      intro past
      rw [graceLoop]
      refine ⟨fun h => h, fun t => ?_⟩
      simp only
      split
      · rename_i hbefore
        refine (hbody _).bind (body.keeps_anything _) fun trace round _ => ?_
        rcases round with e | _ | _
        · trivial
        · refine ⟨fun h => h, fun again => ⟨fun h => h, fun woken => ih _ ?_ _ rfl _⟩⟩
          rw [← hleft]
          exact time_shrinks (by decide) t.2.1 hbefore again.2.1 woken.2
        · trivial
      · trivial

theorem calm_killIfRunning : Calm killIfRunning.run := by
  unfold killIfRunning
  refine Unbroken.bindE (calm_perform id) fun status => ?_
  split
  · exact calm_perform id
  · exact unbroken_pure _

theorem calm_killGroup (id : UInt32) : Calm (killGroup id) := by
  unfold killGroup
  refine Unbroken.bind (calm_liftM (calm_signalProcessGroup id _)) fun running => ?_
  split
  · exact Unbroken.bind (calm_liftM (calm_signalProcessGroup id _)) fun _ => unbroken_pure _
  · exact unbroken_pure _

theorem calm_terminateGroup (id : UInt32) : Calm (terminateGroup id).run := by
  unfold terminateGroup
  refine Unbroken.bindLift (calm_liftM (calm_signalProcessGroup id _)) fun termSent => ?_
  split
  · exact calm_killIfRunning
  · exact unbroken_pure _

/-! ## Durations that are not too long -/

section Short

variable {grace : Duration} (hgrace : grace ≤ clockEnd)

include hgrace

theorem calm_deadlineAfter : Calm (deadlineAfter grace) := by
  intro s past _
  rw [run_deadlineAfter]
  refine ⟨fun h => h, fun t => ?_⟩
  dsimp only
  rw [checkedAdd_eq_some (lt_instantEnd t.2.2 hgrace)]
  trivial

theorem calm_terminateAndReap (id : UInt32) : Calm (terminateAndReap id grace).run := by
  have hloop : ∀ deadline, Calm (graceLoop deadline (reapRound id)) :=
    fun deadline clock past _ => calm_graceLoop deadline clock (calm_reapRound id) past
  unfold terminateAndReap
  refine Unbroken.bindE (calm_terminateGroup id) fun _ => ?_
  refine Unbroken.bindLift (calm_deadlineAfter hgrace) fun deadline => ?_
  refine Unbroken.bindE (hloop _) fun _ => Unbroken.bindLift (calm_killGroup id) fun _ => ?_
  refine Unbroken.bindE calm_killIfRunning fun _ => ?_
  exact Unbroken.bindE (calm_perform (c := .wait) fun h => h) fun _ => unbroken_pure _

theorem calm_cleanupRemainingProcessGroup (id : UInt32) :
    Calm (cleanupRemainingProcessGroup id grace) := by
  have hloop : ∀ deadline, Calm (graceLoop deadline (groupGone id)) :=
    fun deadline clock past _ => calm_graceLoop deadline clock (calm_groupGone id) past
  unfold cleanupRemainingProcessGroup
  refine Unbroken.bind (calm_liftM (calm_signalProcessGroup id _)) fun running => ?_
  split
  · refine Unbroken.bind (calm_liftM (calm_signalProcessGroup id _)) fun _ => ?_
    refine Unbroken.bind (calm_deadlineAfter hgrace) fun deadline => ?_
    refine Unbroken.bind (hloop _) fun left => ?_
    split
    · exact Unbroken.bind (calm_liftM (calm_signalProcessGroup id _)) fun _ => unbroken_pure _
    · exact unbroken_pure _
  · exact unbroken_pure _

end Short

/-! ## Before a panic -/

/-- What the clock has shown. -/
def shownBy : Answered Call Answer → Option Instant
  | ⟨.now _, shown⟩ => some shown.1
  | _ => none

/-- What the clock showed first. -/
def firstShown (trace : Trace Call Answer) : Option Instant := trace.findSome? shownBy

/-- The clock was looked at, and the time of the operation ends at an instant. -/
def Timed (policy : PluginProcessPolicy) (trace : Trace Call Answer) : Prop :=
  ∃ start, firstShown trace = some start ∧ start + policy.operationTimeout < instantEnd

theorem firstShown_append {front : Trace Call Answer} {start : Instant}
    (h : firstShown front = some start) (more : Trace Call Answer) :
    firstShown (front ++ more) = some start := by
  rw [firstShown, List.findSome?_append, ← firstShown, h]
  rfl

theorem Timed.append {policy : PluginProcessPolicy} {trace : Trace Call Answer}
    (h : Timed policy trace) (more : Trace Call Answer) : Timed policy (trace ++ more) := by
  obtain ⟨start, hshown, hfits⟩ := h
  exact ⟨start, firstShown_append hshown more, hfits⟩

section Broken

variable {s : SerdeJson} {policy : PluginProcessPolicy} {admission : PluginAdmissionPolicy}
  {ids : List UInt32}

theorem Call.Panics.eq {c : Call} (h : c.Panics) : ∃ message, c = .panic message := by
  cases c with
  | panic message => exact ⟨message, rfl⟩
  | _ => cases h

/-- What quiet actions leave of the processes that were started. -/
theorem Quiet.spawned {α : Type} {act : Host α} (h : Quiet act) :
    Ensures (fun _ _ => True) (fun trace => spawned trace = ids) act
      fun trace a => spawned trace = ids ∧ Ran act a trace := by
  refine (h.ensures fun _ _ _ => trivial).mono (fun _ => id) fun trace a hpost => ?_
  obtain ⟨hran, front, own, rfl, hspawned, hown⟩ := hpost
  have hat : At (Plugin.spawned front) (received front) (front ++ own) :=
    Call.Quiet.at hown ⟨rfl, rfl⟩
  exact ⟨hat.1.trans hspawned, hran⟩

theorem Calm.orFail {α ε ε' : Type} {f : ε → ε'} {act : Host (Except ε α)} (h : Calm act) :
    Calm (orFail f act).run :=
  Unbroken.bind h fun _ => unbroken_pure _

end Broken

end Prep.Core.Plugin
