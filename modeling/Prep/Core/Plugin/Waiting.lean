/-
  Core/Plugin/Waiting.lean --- how long a probe waits for a plugin.

  The waits of the host have limits that it works out from the clock.  Whatever the plugin
  does, they add up to the time of the operation and twice the grace.

  Only waits with a limit count: receiving a line, sleeping, waiting for the diagnostics.  How
  long a call takes that has no limit (a write into a full pipe, the last wait for a process
  that was killed) is left open, and so is what the host takes for its own work.
-/
import Prep.Core.Plugin.Probe
import Prep.Machine.Waiting

set_option autoImplicit false

namespace Prep.Core.Plugin

open Prep.Io (IoError)
open Prep.Machine
open Prep.Protocol
open Prep.Serde
open Prep.Text

/-- The clock shows what was waited for: a sleep lasts, and a call with a limit may wait
that long. -/
def passes : Passes Call Answer
  | .now _, seen, time, spent, after => spent = 0 ∧ time ≤ seen.1 ∧ after = seen.1
  | .sleep _ duration, woken, time, spent, after =>
      spent = duration ∧ time + duration ≤ woken.1 ∧ after = woken.1
  | .recvTimeout remaining, _, time, spent, after => spent ≤ remaining ∧ after = time + spent
  | .finishDiagnostics wait, _, time, spent, after => spent ≤ wait ∧ after = time + spent
  | _, _, time, spent, after => spent = 0 ∧ after = time

/-- The calls without a limit of time. -/
def Call.Idle : Call → Prop
  | .now _ | .sleep _ _ | .recvTimeout _ | .finishDiagnostics _ => False
  | _ => True

theorem Call.Idle.passes {c : Call} (h : c.Idle) {answer : Answer c} {time spent after : Nat}
    (hpasses : Plugin.passes c answer time spent after) : spent = 0 ∧ after = time := by
  cases c with
  | now | sleep | recvTimeout | finishDiagnostics => cases h
  | _ => exact hpasses

section Waiting

variable {limit : Nat → Nat} {deadline : Nat} {α : Type}

theorem within_of_idle {c : Call} {next : Answer c → Program Call Answer α} {time n : Nat}
    (h : c.Idle) (hnext : ∀ answer, (next answer).Within passes time n) :
    (Program.call c next).Within passes time n := by
  refine Program.within_idle fun answer spent after hpasses => ?_
  obtain ⟨rfl, rfl⟩ := h.passes hpasses
  exact ⟨rfl, Nat.le_refl _, hnext answer⟩

theorem bounded_perform {c : Call} (h : c.Idle) : Bounded passes limit (perform c) :=
  fun _ _ => within_of_idle h fun _ => Program.within_ret _

theorem bounded_signalProcessGroup (id : UInt32) (signal : String) :
    Bounded passes limit (liftM (signalProcessGroup id signal) : Host _) :=
  fun _ _ => within_of_idle trivial fun _ => Program.within_ret _

theorem bounded_killIfRunning : Bounded passes (fun _ => 0) killIfRunning.run := by
  unfold killIfRunning
  refine Bounded.bindE covers_last (bounded_perform trivial) fun status => ?_
  split
  · exact bounded_perform trivial
  · exact bounded_pure _

theorem bounded_killGroup (id : UInt32) : Bounded passes (fun _ => 0) (killGroup id) := by
  unfold killGroup
  refine Bounded.bind covers_last (bounded_signalProcessGroup id _) fun running => ?_
  split
  · exact Bounded.bind covers_last (bounded_signalProcessGroup id _) fun _ => bounded_pure _
  · exact bounded_pure _

theorem bounded_terminateGroup (id : UInt32) :
    Bounded passes (fun _ => 0) (terminateGroup id).run := by
  unfold terminateGroup
  refine Bounded.bindLift covers_last (bounded_signalProcessGroup id _) fun termSent => ?_
  split
  · exact bounded_killIfRunning
  · exact bounded_pure _

theorem within_groupGone (id : UInt32) (time : Nat) : (groupGone id).Within passes time 0 :=
  within_of_idle trivial fun _ => Program.within_ret _

theorem within_reapRound (id : UInt32) (time : Nat) : (reapRound id).Within passes time 0 := by
  refine within_of_idle trivial fun answer => ?_
  cases answer with
  | error e => exact Program.within_ret _
  | ok status => exact within_groupGone id time

/-- The clock is looked at. -/
theorem within_now {last time n : Nat}
    {next : { t : Instant // last ≤ t ∧ t < clockEnd } → Program Call Answer α}
    (h : ∀ t, time ≤ t.1 → (next t).Within passes t.1 n) :
    (Program.call (.now last) next).Within passes time n := by
  refine Program.within_idle ?_
  rintro t _ _ ⟨rfl, hseen, rfl⟩
  exact ⟨rfl, hseen, h t hseen⟩

/-- A sleep, as long as there is room for it. -/
theorem within_sleep {last time duration n : Nat}
    {next : { t : Instant // last + duration ≤ t } → Program Call Answer α}
    (h : ∀ woken, time + duration ≤ woken.1 →
      ∃ m, duration + m ≤ n ∧ (next woken).Within passes woken.1 m) :
    (Program.call (.sleep last duration) next).Within passes time n := by
  rintro woken _ _ ⟨rfl, hwoken, rfl⟩
  exact ⟨hwoken, h woken hwoken⟩

/-- Every sleep of the loop ends by the deadline. -/
theorem within_waitLoop (clock time : Nat) :
    (waitLoop deadline clock).Within passes time (deadline - time) := by
  induction hleft : deadline - clock using Nat.strong_induction_on generalizing clock time with
  | _ left ih =>
      rw [waitLoop.eq_def]
      refine within_of_idle trivial fun answer => ?_
      rcases answer with source | _ | status
      · exact Program.within_ret _
      · refine within_now fun t hseen => ?_
        dsimp only
        split
        · exact Program.within_ret _
        · rename_i hremaining
          refine within_sleep fun woken hwoken => ⟨deadline - woken.1, by omega, ?_⟩
          refine ih _ ?_ woken.1 woken.1 rfl
          rw [← hleft]
          exact time_shrinks (by decide) t.2.1 (Nat.lt_of_sub_ne_zero hremaining) (Nat.le_refl _)
            woken.2
      · exact Program.within_ret _

theorem within_graceLoop {body : Program Call Answer (Except IoError Bool)}
    (hbody : ∀ time, body.Within passes time 0) (clock time : Nat) :
    (graceLoop deadline body clock).Within passes time (deadline - time) := by
  induction hleft : deadline - clock using Nat.strong_induction_on generalizing clock time with
  | _ left ih =>
      rw [graceLoop.eq_def]
      refine within_now fun t hseen => ?_
      dsimp only
      split
      · rename_i hbefore
        refine (hbody t.1).bind (Nat.zero_le _) fun round spent after hafter hspent =>
          ⟨deadline - after, by omega, ?_⟩
        rcases round with e | _ | _
        · exact Program.within_ret _
        · refine within_now fun again hagain => ?_
          refine within_sleep fun woken hwoken => ⟨deadline - woken.1, by omega, ?_⟩
          refine ih _ ?_ woken.1 woken.1 rfl
          rw [← hleft]
          exact time_shrinks (by decide) t.2.1 hbefore again.2.1 woken.2
        · exact Program.within_ret _
      · exact Program.within_ret _

/-- What is done from now on may depend on the time it is. -/
theorem Bounded.seeNow {f : Instant → Host α} (hshrinks : Shrinks limit)
    (h : ∀ t s, (f t s).Within passes t (limit t)) : Bounded passes limit (now >>= f) :=
  fun _ time => within_now fun t hseen => (h t.1 t.1).mono (hshrinks time t.1 hseen)

/-- A sum that is an instant, or nothing. -/
theorem of_checkedAdd {P : Option Instant → Prop} {start : Instant} {duration : Duration}
    (hnone : P none) (hsome : P (some (start + duration))) : P (checkedAdd start duration) := by
  rw [checkedAdd]
  split
  · exact hsome
  · exact hnone

/-- What is done up to a deadline has what the deadline leaves from the start on. -/
theorem Bounded.fromDeadline {f : Instant → Host α} {room : Instant → Nat → Nat}
    {duration n : Nat} (h : ∀ deadline, Bounded passes (room deadline) (f deadline))
    (hroom : ∀ start, room (start + duration) start ≤ n) :
    Bounded passes (fun _ => n) (deadlineAfter duration >>= f) :=
  fun _ _ => within_now fun t _ =>
    of_checkedAdd (P := fun found => ((expect _ found >>= f).run t.1).Within passes t.1 n)
      (fun answer => answer.elim) ((h _ t.1 t.1).mono (hroom t.1))

theorem Bounded.fromDeadlineE {ε : Type} {f : Instant → ExceptT ε Host α}
    {room : Instant → Nat → Nat} {duration n : Nat}
    (h : ∀ deadline, Bounded passes (room deadline) (f deadline).run)
    (hroom : ∀ start, room (start + duration) start ≤ n) :
    Bounded passes (fun _ => n) (ExceptT.lift (deadlineAfter duration) >>= f).run :=
  fun _ _ => within_now fun t _ =>
    of_checkedAdd (P := fun found =>
        ((ExceptT.lift (expect _ found) >>= f).run.run t.1).Within passes t.1 n)
      (fun answer => answer.elim) ((h _ t.1 t.1).mono (hroom t.1))

theorem until_start (start n : Nat) : start + n - start ≤ n := by omega

/-- `terminate_and_reap` waits for the grace at most. -/
theorem bounded_terminateAndReap (id : UInt32) (grace : Duration) :
    Bounded passes (fun _ => grace) (terminateAndReap id grace).run := by
  unfold terminateAndReap
  refine Bounded.bindE (covers_nothing fun _ _ _ => Nat.le_refl _) (bounded_terminateGroup id)
    fun _ => Bounded.fromDeadlineE (fun deadline => ?_) fun start => until_start start grace
  refine Bounded.bindE covers_last
    (fun clock time => within_graceLoop (within_reapRound id) clock time) fun _ => ?_
  refine Bounded.bindLift covers_last (bounded_killGroup id) fun _ => ?_
  refine Bounded.bindE covers_last bounded_killIfRunning fun _ => ?_
  exact Bounded.bindE covers_last (bounded_perform trivial) fun _ => bounded_pure _

/-- And so does `cleanup_remaining_process_group`. -/
theorem bounded_cleanupRemainingProcessGroup (id : UInt32) (grace : Duration) :
    Bounded passes (fun _ => grace) (cleanupRemainingProcessGroup id grace) := by
  have hnothing : Covers (fun _ => grace) (fun _ => 0) fun _ => grace :=
    covers_nothing fun _ _ _ => Nat.le_refl _
  unfold cleanupRemainingProcessGroup
  refine Bounded.bind hnothing (bounded_signalProcessGroup id _) fun running => ?_
  split
  · refine Bounded.bind hnothing (bounded_signalProcessGroup id _) fun _ => ?_
    refine Bounded.fromDeadline (fun deadline => ?_) fun start => until_start start grace
    refine Bounded.bind covers_last
      (fun clock time => within_graceLoop (within_groupGone id) clock time) fun left => ?_
    split
    · exact Bounded.bind covers_last (bounded_signalProcessGroup id _) fun _ => bounded_pure _
    · exact bounded_pure _
  · exact bounded_pure _

theorem bounded_finishDiagnostics (wait : Duration) :
    Bounded passes (fun _ => wait) (perform (.finishDiagnostics wait)) := by
  rintro s time answer spent _ ⟨hspent, rfl⟩
  exact ⟨Nat.le_refl _, 0, hspent, Program.within_ret _⟩

theorem bounded_cleanupFailure (id : UInt32) (failure : LifecycleFailure)
    (policy : PluginProcessPolicy) :
    Bounded passes (fun _ => policy.terminationGrace + policy.terminationGrace)
      (cleanupFailure id failure policy) := by
  unfold cleanupFailure
  refine Bounded.bind (covers_add _ _) (bounded_terminateAndReap id _) fun cleanup => ?_
  refine Bounded.bind covers_last (bounded_finishDiagnostics _) fun _ => ?_
  exact Bounded.bind covers_last (bounded_perform trivial) fun captured => bounded_pure _

/-! ## The interaction -/

theorem bounded_result {ε : Type} (value : Except ε α) :
    Bounded passes limit (result value : ExceptT ε Host α).run :=
  bounded_pure value

theorem Bounded.orFail {ε ε' : Type} {f : ε → ε'} {act : Host (Except ε α)}
    (h : Bounded passes limit act) : Bounded passes limit (orFail f act).run :=
  Bounded.map h

theorem shrinks_until : Shrinks fun time => deadline - time :=
  fun _ _ hle => Nat.sub_le_sub_left hle deadline

/-- What is left of the time of the operation is waited for at most. -/
theorem bounded_receiveProtocolLine (phase : PluginPhase) :
    Bounded passes (fun time => deadline - time) (receiveProtocolLine deadline phase).run := by
  have hafter : ∀ t s, (((do
      if deadline - t = 0 then result (.error (.timeout phase))
      else
        match ← ExceptT.lift (perform (.recvTimeout (deadline - t))) with
        | .line received => result (received.mapError .probe)
        | .timeout => result (.error (.timeout phase))
        | .disconnected => result (.error (.probe .unexpectedEof)) :
      ExceptT LifecycleFailure Host Bytes).run) s).Within passes t (deadline - t) := by
    intro t s
    split
    · exact Program.within_ret _
    · rintro answer spent _ ⟨hspent, rfl⟩
      refine ⟨Nat.le_refl _, 0, hspent, ?_⟩
      cases answer <;> exact Program.within_ret _
  exact Bounded.seeNow shrinks_until hafter

theorem bounded_orWrite {act : Host (Except IoError Unit)} (h : Bounded passes limit act) :
    Bounded passes limit (orWrite act).run :=
  Bounded.map h

theorem bounded_write (s : SerdeJson) (frame : Tree) : Bounded passes (fun _ => 0)
    (lifecycle <| writeProtocolFrame (fun bytes => perform (.writeAll bytes)) (perform .flush) s
      frame).run := by
  refine Bounded.orFail ?_
  unfold writeProtocolFrame
  refine Bounded.bindE covers_last (bounded_result _) fun encoded => ?_
  refine Bounded.bindE covers_last (bounded_orWrite (bounded_perform trivial)) fun _ => ?_
  refine Bounded.bindE covers_last (bounded_orWrite (bounded_perform trivial)) fun _ => ?_
  exact bounded_orWrite (bounded_perform trivial)

theorem bounded_interaction (s : SerdeJson) (policy : PluginProcessPolicy)
    (admission : PluginAdmissionPolicy) :
    Bounded passes (fun time => deadline - time) (interaction s policy admission deadline).run := by
  have hnothing : Covers (fun time => deadline - time) (fun _ => 0) fun time => deadline - time :=
    covers_nothing shrinks_until
  have hagain := covers_until deadline 0
  unfold interaction
  refine Bounded.bindE hnothing (bounded_write s _) fun _ => ?_
  refine Bounded.bindE hagain (bounded_receiveProtocolLine _) fun helloLine => ?_
  refine Bounded.bindE hnothing (Bounded.orFail (bounded_result _)) fun hello => ?_
  refine Bounded.bindE hnothing (Bounded.orFail (bounded_result _)) fun _ => ?_
  refine Bounded.bindE hnothing (Bounded.orFail (bounded_result _)) fun _ => ?_
  refine Bounded.bindE hnothing (bounded_write s _) fun _ => ?_
  refine Bounded.bindE covers_last (bounded_receiveProtocolLine _) fun resultLine => ?_
  refine Bounded.bindE covers_last (Bounded.orFail (bounded_result _)) fun answer => ?_
  exact Bounded.bindE covers_last (Bounded.orFail (bounded_result _)) fun _ => bounded_pure _

/-! ## The probe -/

theorem bounded_conclude (group : UInt32) (policy : PluginProcessPolicy)
    (plugin : PluginDescriptor) (answer : ResultFrame ProbeBuildSystemResult) :
    Bounded passes
      (fun time => deadline - time + (policy.terminationGrace + policy.terminationGrace))
      (conclude group policy deadline plugin answer).run := by
  unfold conclude
  refine Bounded.bindLift (covers_after _ _) (fun clock time => within_waitLoop clock time)
    fun outcome => ?_
  cases outcome with
  | error failure =>
      exact Bounded.bindLift covers_last (bounded_cleanupFailure _ _ _) fun _ => bounded_result _
  | ok status =>
      refine Bounded.bindLift (covers_add _ _)
        (bounded_cleanupRemainingProcessGroup _ _) fun _ => ?_
      refine Bounded.bindLift covers_last (bounded_finishDiagnostics _) fun _ => ?_
      refine Bounded.bindLift covers_last (bounded_perform trivial) fun diagnostics => ?_
      split
      · exact bounded_result _
      · cases answer with
        | error => exact bounded_result _
        | ok => exact bounded_pure _

theorem bounded_probe (s : SerdeJson) (executable : Bytes) (policy : PluginProcessPolicy)
    (admission : PluginAdmissionPolicy) :
    Bounded passes
      (fun _ => policy.operationTimeout + (policy.terminationGrace + policy.terminationGrace))
      (probeBuildSystemWithPolicies s executable policy admission).run := by
  have hnothing : Covers
      (fun _ => policy.operationTimeout + (policy.terminationGrace + policy.terminationGrace))
      (fun _ => 0)
      (fun _ => policy.operationTimeout + (policy.terminationGrace + policy.terminationGrace)) :=
    covers_nothing fun _ _ _ => Nat.le_refl _
  unfold probeBuildSystemWithPolicies
  refine Bounded.bindE hnothing (Bounded.orFail (bounded_perform trivial)) fun child => ?_
  refine Bounded.bindE hnothing (bounded_pure _) fun _ => ?_
  refine Bounded.bindE hnothing (bounded_pure _) fun _ => ?_
  refine Bounded.bindE hnothing (bounded_pure _) fun _ => ?_
  refine Bounded.bindLift hnothing (bounded_perform trivial) fun _ => ?_
  refine Bounded.bindLift hnothing (bounded_perform trivial) fun _ => ?_
  refine @Bounded.fromDeadlineE _ _ _ (fun deadline time => deadline - time +
    (policy.terminationGrace + policy.terminationGrace)) _ _ (fun deadline => ?_) fun start => ?_
  · have hgrace : Shrinks fun time => deadline - time +
        (policy.terminationGrace + policy.terminationGrace) :=
      fun time after hle => Nat.add_le_add_right (Nat.sub_le_sub_left hle _) _
    refine Bounded.bindLift (covers_until _ _) (bounded_interaction s policy admission)
      fun outcome => ?_
    refine Bounded.bindLift (covers_nothing hgrace) (bounded_perform trivial) fun _ => ?_
    rcases outcome with failure | ⟨plugin, answer⟩
    · refine Bounded.bindLift covers_last ((bounded_cleanupFailure _ _ _).mono fun time => ?_)
        fun _ => bounded_result _
      exact Nat.le_add_left _ _
    · exact bounded_conclude child.id policy plugin answer
  · exact Nat.add_le_add_right (until_start _ _) _

/-- Whatever a plugin does, the waits of a probe with a limit of time add up to the time of the
operation and twice the grace at most, also where it panics.  The clock is taken to show the time
that was waited for (`passes`), and nothing else is asked of the answers. -/
theorem probe_waits (s : SerdeJson) (executable : Bytes) (policy : PluginProcessPolicy)
    (admission : PluginAdmissionPolicy) {clock : Instant} {trace : Trace Call Answer}
    {finish : Finish (Except PluginProbeError PluginProbe)}
    (h : Runs (probeBuildSystemWithPolicies s executable policy admission).run clock trace finish)
    {time spent : Nat} (hwaited : Waited passes time trace spent) :
    spent ≤ policy.operationTimeout + 2 * policy.terminationGrace := by
  have hbounded := bounded_probe s executable policy admission clock time
  rw [Nat.two_mul]
  cases finish with
  | returned outcome =>
      obtain ⟨_, hends⟩ := h
      exact hbounded.ends hends hwaited
  | panicked message => exact hbounded.calls h hwaited

end Waiting

/-- The run of a plugin that does not read: nothing is left but to wait for its diagnostics. -/
def deafTrace (policy : PluginProcessPolicy) (start : Answer (.now 0)) (text : Bytes) :
    Trace Call Answer :=
  [⟨.spawn (pluginCommand []), .ok ⟨7⟩⟩, ⟨.spawnStdoutReader policy.maxFrameBytes, ()⟩,
    ⟨.captureDiagnostics policy.maxDiagnosticBytes, ()⟩, ⟨.now 0, start⟩,
    ⟨.writeAll text, .error (.other 32)⟩, ⟨.dropStdin, ()⟩,
    ⟨.status "/bin/kill" ["-TERM", "--", s!"-{(7 : UInt32)}"], .error .notFound⟩,
    ⟨.tryWait, .error (.other 10)⟩, ⟨.finishDiagnostics policy.terminationGrace, ()⟩,
    ⟨.snapshotDiagnostics, ⟨helloId, false⟩⟩]

theorem ends_deaf {policy : PluginProcessPolicy} {start : Answer (.now 0)} {text : Bytes}
    (hfits : start.1 + policy.operationTimeout < instantEnd)
    (h : encodeFrame compactJson helloFrame = .ok text) :
    ((probeBuildSystemWithPolicies compactJson [] policy .denyAll).run.run 0).Ends
      (deafTrace policy start text)
      (.error (.cleanup (.io "write" (.other 32)) (toString (IoError.other 10))), start.1) := by
  have hdeadline : checkedAdd start.1 policy.operationTimeout =
      some (start.1 + policy.operationTimeout) := if_pos hfits
  unfold probeBuildSystemWithPolicies interaction writeProtocolFrame
  rw [h]
  refine Program.Ends.call (Call.spawn (pluginCommand [])) _ _ ?_
  refine Program.Ends.call (Call.spawnStdoutReader _) _ _ ?_
  refine Program.Ends.call (Call.captureDiagnostics _) _ _ ?_
  refine Program.Ends.call (Call.now 0) _ _ ?_
  dsimp only [Program.bind]
  rw [hdeadline]
  exact .call _ _ _ (.call _ _ _ (.call _ _ _ (.call _ _ _ (.call _ _ _ (.call _ _ _ (.ret _))))))

theorem waited_finish {time : Nat} (wait : Duration) {trace : Trace Call Answer}
    (hrest : Waited passes (time + wait) trace 0) :
    Waited passes time (⟨.finishDiagnostics wait, ()⟩ :: trace) wait := by
  have hfinish : passes (.finishDiagnostics wait) () time wait (time + wait) :=
    ⟨Nat.le_refl wait, rfl⟩
  exact Waited.cons hfinish hrest

theorem waited_deaf (policy : PluginProcessPolicy) (start : Answer (.now 0)) (text : Bytes)
    (hstart : start.1 = 0) :
    Waited passes 0 (deafTrace policy start text) policy.terminationGrace := by
  refine Waited.idle ⟨rfl, rfl⟩ (Waited.idle ⟨rfl, rfl⟩ (Waited.idle ⟨rfl, rfl⟩ ?_))
  refine Waited.idle ⟨rfl, hstart.ge, hstart.symm⟩ (Waited.idle ⟨rfl, rfl⟩ ?_)
  refine Waited.idle ⟨rfl, rfl⟩ (Waited.idle ⟨rfl, rfl⟩ (Waited.idle ⟨rfl, rfl⟩ ?_))
  exact waited_finish _ (Waited.idle ⟨rfl, rfl⟩ (.nil _))

/-- `probe_waits` in such a run. -/
theorem probe_waits_deaf : ∃ trace outcome,
    ((probeBuildSystemWithPolicies compactJson [] .default .denyAll).run.run 0).Ends trace
      (outcome, 0) ∧
    Waited passes 0 trace PluginProcessPolicy.default.terminationGrace ∧
    PluginProcessPolicy.default.terminationGrace ≤
      PluginProcessPolicy.default.operationTimeout +
        2 * PluginProcessPolicy.default.terminationGrace := by
  obtain ⟨text, htext, _⟩ := decodeFrame_encodeFrame (s := compactJson)
    (Frame.fits_write .hello (.new helloId prepVersion)) (HelloFrame.codec.reads _)
  obtain ⟨start, hstart⟩ : ∃ start : Answer (.now 0), start.1 = 0 :=
    ⟨⟨0, Nat.le_refl 0, clockEnd_pos⟩, rfl⟩
  have hfits : start.1 + PluginProcessPolicy.default.operationTimeout < instantEnd := by
    rw [hstart]
    decide
  have hends := ends_deaf hfits htext
  rw [hstart] at hends
  have hwaited := waited_deaf .default start text hstart
  exact ⟨_, _, hends, hwaited, @probe_waits _ _ _ _ _ _ (.returned _) ⟨_, hends⟩ _ _ hwaited⟩

end Prep.Core.Plugin
