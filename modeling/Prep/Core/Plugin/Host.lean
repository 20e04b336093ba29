/-
  Core/Plugin/Host.lean --- the host side of a plugin probe.

  The host is a program that makes calls: to the process it has spawned, to the channel
  of the reader thread, to the clock.  Nothing is assumed of the answers but that the
  clock does not go back and shows fewer than 2^62 seconds, and that a sleep lasts.

  The host may panic in one place, where it adds a duration to an instant: the sum need not
  be an instant.  That is a call without answers, so a run that panics stands at that call
  and has not ended.  What unwinding does (the handles are dropped, and with them the pipes)
  is left out, and so are the paths that are not for Unix.
-/
import Prep.Core.Plugin.Lines
import Prep.Machine.Trace

set_option autoImplicit false

namespace Prep.Core.Plugin

open Prep.Io (IoError)
open Prep.Machine
open Prep.Protocol
open Prep.Serde
open Prep.Text

/-! ## Calls -/

/-- `Instant`, in nanoseconds since the clock was started. -/
abbrev Instant : Type := Nat

/-- The first that is no `Instant` any more: there are 63 bits of seconds. -/
def instantEnd : Instant := 2 ^ 63 * 10 ^ 9

/-- The clock shows fewer than 2^62 seconds. -/
def clockEnd : Instant := 2 ^ 62 * 10 ^ 9

theorem clockEnd_pos : 0 < clockEnd := by decide

/-- `Instant::checked_add`. -/
def checkedAdd (start : Instant) (duration : Duration) : Option Instant :=
  if start + duration < instantEnd then some (start + duration) else none

/-- `ExitStatus`: there is no code after a signal. -/
structure ExitStatus where
  code : Option Int

/-- `ExitStatus::success`. -/
def ExitStatus.success (status : ExitStatus) : Bool := status.code == some 0

/-- `Stdio`, as the host uses it. -/
inductive Stdio where
  | inherit
  | piped
  deriving DecidableEq

/-- `Command`, as the host configures it. -/
structure Command where
  program : Bytes
  envClear : Bool
  stdin : Stdio
  stdout : Stdio
  stderr : Stdio
  processGroup : Option Nat

/-- `Child`: the process of a command. -/
structure Child (command : Command) where
  id : UInt32

/-- `child.stdin.take()`, and the like for its other handles: there is a handle for what
was configured as a pipe. -/
def takeHandle : Stdio → Option Unit
  | .piped => some ()
  | .inherit => none

/-- What `recv_timeout` on the channel of the reader thread answers. -/
inductive Received where
  | line (result : Except PluginProbeError Bytes)
  | timeout
  | disconnected

/-- The calls of the host.  The clock is told what it has shown last.  A panic is a call that
is never answered. -/
inductive Call where
  | spawn (command : Command)
  | spawnStdoutReader (maxFrameBytes : UInt64)
  | captureDiagnostics (limit : UInt64)
  | now (last : Instant)
  | sleep (last : Instant) (duration : Duration)
  | writeAll (bytes : Bytes)
  | flush
  | dropStdin
  | recvTimeout (remaining : Duration)
  | tryWait
  | kill
  | wait
  | status (program : String) (args : List String)
  | finishDiagnostics (wait : Duration)
  | snapshotDiagnostics
  | panic (message : String)

@[reducible] def Answer : Call → Type
  | .spawn command => Except IoError (Child command)
  | .spawnStdoutReader _ => Unit
  | .captureDiagnostics _ => Unit
  | .now last => { t : Instant // last ≤ t ∧ t < clockEnd }
  | .sleep last duration => { t : Instant // last + duration ≤ t }
  | .writeAll _ => Except IoError Unit
  | .flush => Except IoError Unit
  | .dropStdin => Unit
  | .recvTimeout _ => Received
  | .tryWait => Except IoError (Option ExitStatus)
  | .kill => Except IoError Unit
  | .wait => Except IoError ExitStatus
  | .status _ _ => Except IoError ExitStatus
  | .finishDiagnostics _ => Unit
  | .snapshotDiagnostics => PluginDiagnostics
  | .panic _ => Empty

/-- A program of the host, with what the clock has shown last. -/
abbrev Host : Type → Type := StateT Instant (Program Call Answer)

/-- One call. -/
def perform (c : Call) : Host (Answer c) := liftM (Program.perform c : Program Call Answer _)

/-- `Instant::now`. -/
def now : Host Instant := fun last =>
  .call (.now last) fun t => .ret (t.1, t.1)

/-- A panic. -/
def panics {α : Type} (message : String) : Host α := fun _ =>
  .call (.panic message) Empty.elim

/-- `Option::expect`. -/
def expect {α : Type} (message : String) : Option α → Host α
  | some a => pure a
  | none => panics message

/-- `Instant::now() + duration`, which panics where there is no such `Instant`. -/
def deadlineAfter (duration : Duration) : Host Instant := do
  let start ← now
  expect "overflow when adding duration to instant" (checkedAdd start duration)

theorem run_deadlineAfter (duration : Duration) (clock : Instant) :
    (deadlineAfter duration).run clock = .call (.now clock) fun t =>
      (expect "overflow when adding duration to instant" (checkedAdd t.1 duration)).run t.1 := rfl

/-- How a run is over: it has returned, or it has panicked. -/
inductive Finish (α : Type) where
  | returned (a : α)
  | panicked (message : String)

/-- The runs of an action from a time of the clock on: the calls that are made, and how it is
over then. -/
def Runs {α : Type} (act : Host α) (clock : Instant) (trace : Trace Call Answer) :
    Finish α → Prop
  | .returned a => ∃ clock', (act.run clock).Ends trace (a, clock')
  | .panicked message => (act.run clock).Calls trace (.panic message)

section Errors

variable {m : Type → Type} [Monad m] {α ε ε' : Type}

/-- `map_err` and `?`. -/
def orFail (f : ε → ε') (act : m (Except ε α)) : ExceptT ε' m α :=
  ExceptT.mk (Except.mapError f <$> act)

/-- `unwrap_or`. -/
def unwrapOr (fallback : α) : Except ε α → α
  | .ok a => a
  | .error _ => fallback

end Errors

/-! ## Waiting -/

/-- `WAIT_POLL_INTERVAL`. -/
def waitPollInterval : Duration := 10 * 10 ^ 6

/-- After a sleep before the deadline, less time is left. -/
theorem time_shrinks {deadline clock seen start woken interval : Nat} (hpos : 0 < interval)
    (hseen : clock ≤ seen) (hbefore : seen < deadline) (hstart : seen ≤ start)
    (hwoken : start + min interval (deadline - start) ≤ woken) :
    deadline - woken < deadline - clock := by
  omega

/-- The loop of `wait_for_exit`. -/
def waitLoop (deadline clock : Instant) :
    Program Call Answer (Except LifecycleFailure ExitStatus × Instant) :=
  .call .tryWait fun
    | .error source => .ret (.error (.probe (.io "wait" source)), clock)
    | .ok (some status) => .ret (.ok status, clock)
    | .ok none => .call (.now clock) fun t =>
        -- `saturating_duration_since`
        if h : deadline - t.1 = 0 then .ret (.error (.timeout .exit), t.1)
        else .call (.sleep t.1 (min waitPollInterval (deadline - t.1))) fun woken =>
          have : deadline - woken.1 < deadline - clock :=
            time_shrinks (by decide) t.2.1 (Nat.lt_of_sub_ne_zero h) le_rfl woken.2
          waitLoop deadline woken.1
termination_by deadline - clock

/-- `wait_for_exit`. -/
def waitForExit (deadline : Instant) : ExceptT LifecycleFailure Host ExitStatus :=
  ExceptT.mk (waitLoop deadline)

/-- `while Instant::now() < deadline`: the loops that give a process group time.  The
body says whether to leave the loop, and between two rounds is a sleep.  What is
returned is whether the loop was left before the deadline. -/
def graceLoop (deadline : Instant) (body : Program Call Answer (Except IoError Bool))
    (clock : Instant) : Program Call Answer (Except IoError Bool × Instant) :=
  .call (.now clock) fun t =>
    if h : t.1 < deadline then
      body.bind fun
        | .error e => .ret (.error e, t.1)
        | .ok true => .ret (.ok true, t.1)
        | .ok false => .call (.now t.1) fun again =>
            .call (.sleep again.1 (min waitPollInterval (deadline - again.1))) fun woken =>
              have : deadline - woken.1 < deadline - clock :=
                time_shrinks (by decide) t.2.1 h again.2.1 woken.2
              graceLoop deadline body woken.1
    else .ret (.ok false, t.1)
termination_by deadline - clock

/-! ## Process groups -/

/-- `signal_process_group`. -/
def signalProcessGroup (processGroupId : UInt32) (signal : String) :
    Program Call Answer (Except IoError Bool) :=
  .call (.status "/bin/kill" [signal, "--", s!"-{processGroupId}"]) fun status =>
    .ret (status.map ExitStatus.success)

/-- `process_group_exists`. -/
def processGroupExists (processGroupId : UInt32) : Program Call Answer (Except IoError Bool) :=
  signalProcessGroup processGroupId "-0"

/-- `if child.try_wait()?.is_none() { child.kill()?; }`. -/
def killIfRunning : ExceptT IoError Host Unit := do
  if (← ExceptT.mk (perform .tryWait)).isNone then
    ExceptT.mk (perform .kill)

/-- `!process_group_exists(..).unwrap_or(true)`, where a loop stops. -/
def groupGone (processGroupId : UInt32) : Program Call Answer (Except IoError Bool) := do
  let running ← processGroupExists processGroupId
  return .ok (!unwrapOr true running)

/-- A round of the loop of `terminate_and_reap`. -/
def reapRound (processGroupId : UInt32) : Program Call Answer (Except IoError Bool) :=
  .call .tryWait fun
    | .error e => .ret (.error e)
    | .ok _ => groupGone processGroupId

/-- The first step of `terminate_and_reap`: the group is told to end, or the child is
killed. -/
def terminateGroup (processGroupId : UInt32) : ExceptT IoError Host Unit := do
  let termSent ← ExceptT.lift (liftM (signalProcessGroup processGroupId "-TERM"))
  if unwrapOr false termSent = false then
    killIfRunning

/-- `if process_group_exists(..).unwrap_or(true) { let _ = signal_process_group(..); }`. -/
def killGroup (processGroupId : UInt32) : Host Unit := do
  let running ← liftM (processGroupExists processGroupId)
  if unwrapOr true running = true then
    let _ ← liftM (signalProcessGroup processGroupId "-KILL")

/-- `terminate_and_reap`. -/
def terminateAndReap (processGroupId : UInt32) (grace : Duration) :
    ExceptT IoError Host Unit := do
  terminateGroup processGroupId
  let deadline ← ExceptT.lift (deadlineAfter grace)
  let _ ← ExceptT.mk (graceLoop deadline (reapRound processGroupId))
  ExceptT.lift (killGroup processGroupId)
  killIfRunning
  let _ ← ExceptT.mk (perform .wait)

/-- `cleanup_remaining_process_group`. -/
def cleanupRemainingProcessGroup (processGroupId : UInt32) (grace : Duration) : Host Unit := do
  let running ← liftM (processGroupExists processGroupId)
  if unwrapOr false running = true then
    let _ ← liftM (signalProcessGroup processGroupId "-TERM")
    let deadline ← deadlineAfter grace
    let left ← graceLoop deadline (groupGone processGroupId)
    if unwrapOr false left = false then
      let _ ← liftM (signalProcessGroup processGroupId "-KILL")

end Prep.Core.Plugin
