/-
  Core/GitWaiting.lean --- questions to Git end, and in time.

  Whatever Git does and whatever limits are asked for, the host does not panic, and the waits
  add up to two minutes and twice the grace at most.

  Only waits with a limit count: receiving output with a timeout, and sleeping.  How long a
  call takes that has no limit, such as reaping a process that was killed, is left open.
-/
import Prep.Core.GitCaptured
import Prep.Core.Plugin.Waiting

set_option autoImplicit false

namespace Prep.Core.Git

open Prep.Core.Plugin (ExitStatus Instant)
open Prep.Io (IoError)
open Prep.Machine
open Prep.Manifest
open Prep.Text

/-! ## No panic -/

/-- The host of a plugin would panic. -/
def Call.Panics : Call → Prop
  | .host call => call.Panics
  | _ => False

section Calm

variable {α : Type} {limits : GitResolutionLimits} {group : UInt32}

theorem calm_hosted {act : Plugin.Host α} (h : Plugin.Calm act) :
    Unbroken Call.Panics (hosted act) :=
  fun clock _ _ => Program.Before.embed (fun _ => id) (h clock [] trivial)

theorem grace_le_clockEnd : terminationGrace ≤ Plugin.clockEnd := by decide

theorem calm_cleanup : Unbroken Call.Panics (cleanup group) :=
  calm_hosted (Plugin.calm_cleanupRemainingProcessGroup grace_le_clockEnd group)

theorem calm_abandon (error : GitResolutionError) : Unbroken Call.Panics (abandon group error) := by
  have hterminate : Unbroken Call.Panics (terminate group) :=
    Unbroken.bind (calm_hosted (Plugin.calm_terminateAndReap grace_le_clockEnd group)) fun _ =>
      calm_cleanup
  exact Unbroken.bind hterminate fun _ => unbroken_pure _

theorem calm_exited (deadline : Instant) (status : ExitStatus)
    (received : Option (Except IoError Bytes)) :
    Unbroken Call.Panics (exited limits group deadline status received) := by
  cases received with
  | some output => exact Unbroken.bind calm_cleanup fun _ => unbroken_pure _
  | none =>
      refine Unbroken.bind (calm_hosted Plugin.calm_now) fun t => ?_
      refine Unbroken.bind (unbroken_call (c := Call.recvTimeout _) id) fun answer => ?_
      cases answer <;> exact Unbroken.bind calm_cleanup fun _ => unbroken_pure _

theorem calm_captureLoop (deadline : Instant) (received : Option (Except IoError Bytes)) :
    Unbroken Call.Panics (captureLoop limits group deadline received) := by
  intro clock past _
  show (captureLoop limits group deadline received clock).Before Call.Panics _ past
  induction hleft : deadline - clock using Nat.strong_induction_on
    generalizing clock received past with
  | _ left ih =>
      have hlook : ∀ (received : Option (Except IoError Bytes)) (past : Trace Call Answer),
          (look limits group deadline clock
            (fun received woken _ => captureLoop limits group deadline received woken)
            received).Before Call.Panics (fun _ => False) past := by
        intro received past
        unfold look
        split
        · exact calm_abandon _ clock past trivial
        · refine ⟨id, fun answer => ?_⟩
          rcases answer with source | _ | status
          · exact calm_abandon _ clock _ trivial
          · refine ⟨id, fun t => ?_⟩
            dsimp only
            split
            · exact calm_abandon _ t.1 _ trivial
            · rename_i hremaining
              refine ⟨id, fun woken => ih _ ?_ received woken.1 _ rfl⟩
              rw [← hleft]
              exact Plugin.time_shrinks poll_pos t.2.1 (Nat.lt_of_sub_ne_zero hremaining) le_rfl
                woken.2
          · exact calm_exited deadline status received clock _ trivial
      rw [captureLoop.eq_def]
      cases received with
      | some output => exact hlook (some output) past
      | none =>
          refine ⟨id, fun answer => ?_⟩
          cases answer with
          | result output => exact hlook (some output) _
          | empty => exact hlook none _
          | disconnected => exact calm_abandon _ clock _ trivial

theorem calm_captureBounded (command : GitCommand) :
    Unbroken Call.Panics (captureBounded command limits) := by
  unfold captureBounded
  split
  · rename_i hvalid
    have hlong : limits.timeout ≤ maxRuntime := Nat.le_of_not_lt fun h => hvalid (.inr (.inl h))
    refine Unbroken.bind (unbroken_call (c := Call.spawn _) id) fun started => ?_
    cases started with
    | error source => exact unbroken_pure _
    | ok group =>
        refine Unbroken.bind (unbroken_call (c := Call.spawnStdoutReader _) id) fun _ => ?_
        refine Unbroken.bind (calm_hosted (Plugin.calm_deadlineAfter
          (hlong.trans (by decide)))) fun deadline => ?_
        exact calm_captureLoop deadline none
  · exact unbroken_pure _

/-- No question to Git panics: its time is capped at two minutes, so it ends at an instant.  So
each run that is over has returned. -/
theorem gitQuestions_calm (executable : Bytes) (limits : GitResolutionLimits) :
    (∀ remote fullRef, Unbroken Call.Panics
      (resolveGitReference executable remote fullRef limits)) ∧
    ∀ repository commit, Unbroken Call.Panics
      (inspectGitCommitType executable repository commit limits) := by
  refine ⟨fun remote fullRef => ?_, fun repository commit => ?_⟩
  · unfold resolveGitReference
    cases prepareExactGitRefResolution executable remote fullRef with
    | error e => exact unbroken_pure _
    | ok command =>
        refine Unbroken.bind (calm_captureBounded command) fun output => ?_
        cases output <;> exact unbroken_pure _
  · unfold inspectGitCommitType
    refine Unbroken.bind (calm_captureBounded _) fun output => ?_
    cases output <;> exact unbroken_pure _

end Calm

/-! ## How long is waited -/

/-- The clock shows what was waited for, as for a plugin. -/
def passes : Passes Call Answer
  | .recvTimeout remaining, _, time, spent, after => spent ≤ remaining ∧ after = time + spent
  | .host call, answer, time, spent, after => Plugin.passes call answer time spent after
  | _, _, time, spent, after => spent = 0 ∧ after = time

section Waiting

variable {limit : Nat → Nat} {deadline : Nat} {α : Type} {limits : GitResolutionLimits}
  {group : UInt32}

theorem bounded_hosted {act : Plugin.Host α} (h : Bounded Plugin.passes limit act) :
    Bounded passes limit (hosted act) :=
  fun s time => Program.Within.embed (fun _ _ _ _ _ hpasses => hpasses) (h s time)

theorem bounded_cleanup : Bounded passes (fun _ => terminationGrace) (cleanup group) :=
  bounded_hosted (Plugin.bounded_cleanupRemainingProcessGroup group terminationGrace)

theorem bounded_abandon (error : GitResolutionError) :
    Bounded passes (fun _ => terminationGrace + terminationGrace) (abandon group error) := by
  have hterminate : Bounded passes (fun _ => terminationGrace + terminationGrace)
      (terminate group) :=
    Bounded.bind (covers_add _ _)
      (bounded_hosted (Plugin.bounded_terminateAndReap group terminationGrace)) fun _ =>
        bounded_cleanup
  exact Bounded.bind covers_last hterminate fun _ => bounded_pure _

/-- After a sweep there is nothing more to wait for. -/
theorem bounded_swept (outcome : Except GitResolutionError Bytes) :
    Bounded passes (fun _ => terminationGrace) (do cleanup group; return outcome) :=
  Bounded.bind covers_last bounded_cleanup fun _ => bounded_pure _

theorem within_now {last time n : Nat}
    {next : { t : Instant // last ≤ t ∧ t < Plugin.clockEnd } → Program Call Answer α}
    (h : ∀ t, time ≤ t.1 → (next t).Within passes t.1 n) :
    (Program.call (Call.host (.now last)) next).Within passes time n := by
  refine Program.within_idle ?_
  rintro t _ _ ⟨rfl, hseen, rfl⟩
  exact ⟨rfl, hseen, h t hseen⟩

theorem within_exited {status : ExitStatus} {received : Option (Except IoError Bytes)}
    (clock time : Nat) :
    ((exited limits group deadline status received).run clock).Within passes time
      (deadline - time + (terminationGrace + terminationGrace)) := by
  cases received with
  | some output =>
      refine (bounded_swept _ clock time).mono ?_
      exact Nat.le_trans (Nat.le_add_left _ _) (Nat.le_add_left _ _)
  | none =>
      refine within_now fun t hseen => ?_
      rintro answer spent _ ⟨hspent, rfl⟩
      dsimp only at hspent
      refine ⟨Nat.le_refl _, terminationGrace, by omega, ?_⟩
      cases answer with
      | some output => exact bounded_swept _ t.1 _
      | none => exact bounded_swept _ t.1 _

/-- Every sleep of the loop ends by the deadline, and behind the loop is a sweep. -/
theorem within_captureLoop (received : Option (Except IoError Bytes)) (clock time : Nat) :
    (captureLoop limits group deadline received clock).Within passes time
      (deadline - time + (terminationGrace + terminationGrace)) := by
  have habandon : ∀ (error : GitResolutionError) (clock time : Nat),
      ((abandon group error).run clock).Within passes time
        (deadline - time + (terminationGrace + terminationGrace)) :=
    fun error clock time => (bounded_abandon error clock time).mono (Nat.le_add_left _ _)
  induction hleft : deadline - clock using Nat.strong_induction_on
    generalizing clock received time with
  | _ left ih =>
      have hlook : ∀ received : Option (Except IoError Bytes),
          (look limits group deadline clock
            (fun received woken _ => captureLoop limits group deadline received woken)
            received).Within passes time
            (deadline - time + (terminationGrace + terminationGrace)) := by
        intro received
        unfold look
        split
        · exact habandon _ clock time
        · refine Program.within_idle ?_
          rintro answer _ _ ⟨rfl, rfl⟩
          refine ⟨rfl, Nat.le_refl _, ?_⟩
          rcases answer with source | _ | status
          · exact habandon _ clock _
          · refine within_now fun t hseen => ?_
            split
            · exact (habandon _ t.1 t.1).mono (by omega)
            · rename_i hremaining
              rintro woken _ _ ⟨rfl, hwoken, rfl⟩
              refine ⟨hwoken, _, ?_, ih _ ?_ received woken.1 woken.1 rfl⟩
              · omega
              · rw [← hleft]
                exact Plugin.time_shrinks (by decide) t.2.1 (Nat.lt_of_sub_ne_zero hremaining)
                  (Nat.le_refl _) woken.2
          · exact within_exited clock _
      cases received with
      | some output =>
          rw [captureLoop.eq_def]
          exact hlook (some output)
      | none =>
          rw [captureLoop.eq_def]
          refine Program.within_idle ?_
          rintro answer _ _ ⟨rfl, rfl⟩
          refine ⟨rfl, Nat.le_refl _, ?_⟩
          cases answer with
          | result output => exact hlook (some output)
          | empty => exact hlook none
          | disconnected => exact habandon _ clock _

theorem bounded_captureBounded (command : GitCommand) : Bounded passes
    (fun _ => min limits.timeout maxRuntime + 2 * terminationGrace)
    (captureBounded command limits) := by
  intro clock time
  unfold captureBounded
  split
  · rename_i hvalid
    have htimeout : min limits.timeout maxRuntime = limits.timeout :=
      Nat.min_eq_left (Nat.le_of_not_lt fun hlong => hvalid (.inr (.inl hlong)))
    refine Program.within_idle ?_
    rintro result _ _ ⟨rfl, rfl⟩
    refine ⟨rfl, Nat.le_refl _, ?_⟩
    cases result with
    | error source => exact Program.within_ret _
    | ok group =>
        refine Program.within_idle ?_
        rintro _ _ _ ⟨rfl, rfl⟩
        refine ⟨rfl, Nat.le_refl _, ?_⟩
        refine within_now fun t hseen => ?_
        refine Plugin.of_checkedAdd (P := fun found =>
          ((hosted (Plugin.expect _ found) >>= fun deadline =>
            captureLoop limits group deadline none).run t.1).Within passes t.1 _) ?_ ?_
        · exact fun answer => answer.elim
        · refine (within_captureLoop none t.1 t.1).mono ?_
          rw [htimeout, Nat.two_mul]
          exact Nat.add_le_add_right (Plugin.until_start _ _) _
  · exact Program.within_ret _

theorem bounded_resolveGitReference (executable remote fullRef : Bytes) : Bounded passes
    (fun _ => min limits.timeout maxRuntime + 2 * terminationGrace)
    (resolveGitReference executable remote fullRef limits) := by
  unfold resolveGitReference
  cases prepareExactGitRefResolution executable remote fullRef with
  | error e => exact bounded_pure _
  | ok command =>
      refine Bounded.bind covers_last (bounded_captureBounded command) fun output => ?_
      cases output <;> exact bounded_pure _

theorem bounded_inspectGitCommitType (executable repository : Bytes) (commit : GitCommit) :
    Bounded passes (fun _ => min limits.timeout maxRuntime + 2 * terminationGrace)
      (inspectGitCommitType executable repository commit limits) := by
  unfold inspectGitCommitType
  refine Bounded.bind covers_last (bounded_captureBounded _) fun output => ?_
  cases output <;> exact bounded_pure _

/-- Whatever Git does, the waits with a limit of time of a question to it add up to the time that
was given, of which more than two minutes do not count, and twice the grace at most. -/
theorem gitQuestions_wait (executable : Bytes) (limits : GitResolutionLimits)
    {clock clock' : Instant} {trace : Trace Call Answer} {time spent : Nat}
    (hwaited : Waited passes time trace spent) :
    (∀ remote fullRef outcome, ((resolveGitReference executable remote fullRef limits).run
        clock).Ends trace (outcome, clock') →
      spent ≤ min limits.timeout maxRuntime + 2 * terminationGrace) ∧
    ∀ repository commit outcome, ((inspectGitCommitType executable repository commit limits).run
        clock).Ends trace (outcome, clock') →
      spent ≤ min limits.timeout maxRuntime + 2 * terminationGrace := by
  refine ⟨fun remote fullRef outcome h => ?_, fun repository commit outcome h => ?_⟩
  · exact (bounded_resolveGitReference executable remote fullRef clock time).ends h hwaited
  · exact (bounded_inspectGitCommitType executable repository commit clock time).ends h hwaited

end Waiting

theorem shows_zero : 0 ≤ 0 ∧ 0 < Plugin.clockEnd := ⟨le_rfl, Plugin.clockEnd_pos⟩

theorem wakes_poll : 0 + poll ≤ poll := (Nat.zero_add poll).le

/-- The calls of a loop in which nothing is there at the first look, and everything at the
second. -/
def patientTrace (group : UInt32) (output : Bytes) : Trace Call Answer :=
  [⟨.tryRecv, .empty⟩, ⟨.host .tryWait, .ok none⟩,
    ⟨.host (.now 0), ⟨0, shows_zero⟩⟩, ⟨.host (.sleep 0 poll), ⟨poll, wakes_poll⟩⟩,
    ⟨.tryRecv, .result (.ok output)⟩, ⟨.host .tryWait, .ok (some ⟨some 0⟩)⟩,
    ⟨.host (.status "/bin/kill" ["-0", "--", s!"-{group}"]), .ok ⟨some 1⟩⟩]

theorem ends_patient {limits : GitResolutionLimits} {output : Bytes}
    (hlength : output.length ≤ limits.maxStdoutBytes.toNat) (group : UInt32) {deadline : Instant}
    (hdeadline : poll ≤ deadline) : (captureLoop limits group deadline none 0).Ends
      (patientTrace group output) (.ok output, poll) := by
  have hleft : ¬ deadline - 0 = 0 :=
    Nat.sub_ne_zero_of_lt (Nat.lt_of_lt_of_le poll_pos hdeadline)
  have hpoll : min poll (deadline - 0) = poll := Nat.min_eq_left hdeadline
  rw [captureLoop.eq_def]
  refine @Program.Ends.call Call Answer _ .tryRecv _ .empty _ _ ?_
  dsimp only
  rw [look, if_neg (show ¬ tooLarge limits none = true from Bool.false_ne_true)]
  refine Program.Ends.call (Call.host .tryWait) _ _ ?_
  refine Program.Ends.call (Call.host (.now 0)) _ _ ?_
  dsimp only
  rw [dif_neg hleft, hpoll]
  refine Program.Ends.call (Call.host (.sleep 0 poll)) _ _ ?_
  exact ends_captureLoop hlength group deadline poll

theorem waited_patient (command : GitCommand) (limit : UInt64) (group : UInt32) (output : Bytes) :
    Waited passes 0 ([⟨.spawn command, .ok group⟩, ⟨.spawnStdoutReader limit, ()⟩,
      ⟨.host (.now 0), ⟨0, shows_zero⟩⟩] ++ patientTrace group output) poll := by
  have hsleep : Waited passes 0 [⟨.host (.sleep 0 poll), ⟨poll, wakes_poll⟩⟩,
      ⟨.tryRecv, .result (.ok output)⟩, ⟨.host .tryWait, .ok (some ⟨some 0⟩)⟩,
      ⟨.host (.status "/bin/kill" ["-0", "--", s!"-{group}"]), .ok ⟨some 1⟩⟩] (poll + 0) := by
    refine Waited.cons ⟨rfl, wakes_poll, rfl⟩ (Waited.idle ⟨rfl, rfl⟩ ?_)
    exact Waited.idle ⟨rfl, rfl⟩ (Waited.idle ⟨rfl, rfl⟩ (.nil _))
  refine Waited.idle ⟨rfl, rfl⟩ (Waited.idle ⟨rfl, rfl⟩ ?_)
  refine Waited.idle ⟨rfl, Nat.le_refl _, rfl⟩ (Waited.idle ⟨rfl, rfl⟩ ?_)
  exact Waited.idle ⟨rfl, rfl⟩ (Waited.idle ⟨rfl, Nat.le_refl _, rfl⟩ hsleep)

/-- `gitQuestions_wait` in a run that finds a commit at the second look. -/
theorem gitQuestions_wait_patient : ∃ trace,
    ((inspectGitCommitType (ascii "git") (ascii "/r")
      ⟨List.replicate 40 97, by decide, by decide⟩ .default).run 0).Ends trace (.ok (), poll) ∧
    Waited passes 0 trace poll ∧
    poll ≤ min GitResolutionLimits.default.timeout maxRuntime + 2 * terminationGrace := by
  have hfits : (ascii "commit\n").length ≤ GitResolutionLimits.default.maxStdoutBytes.toNat := by
    decide
  have hends := ends_inspectGitCommitType (ends_captureBounded
    (prepareLockedCommitKindInspection (ascii "git") (ascii "/r")
      ⟨List.replicate 40 97, by decide, by decide⟩) valid_default Plugin.clockEnd_pos
    (ends_patient hfits 7 (by decide)))
  exact ⟨_, hends, waited_patient _ _ _ _, (gitQuestions_wait (ascii "git") .default
    (waited_patient _ _ _ _)).2 (ascii "/r") _ _ hends⟩

end Prep.Core.Git
