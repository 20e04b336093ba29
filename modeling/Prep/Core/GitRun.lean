/-
  Core/GitRun.lean --- `prep-core/src/git_run.rs`: a Git process with a deadline and a
  bound on its output.

  The calls are those of the plugin host, and those of a channel of its own.  Nothing is
  assumed of their answers but that the clock does not go back and a sleep lasts.

  Not here: what Git does to its repository and over the network.
-/
import Prep.Core.GitCommand
import Prep.Core.Plugin.Host
import Prep.Machine.Embed

set_option autoImplicit false

namespace Prep.Core.Git

open Prep.Core.Plugin (Duration ExitStatus Instant)
open Prep.Io (IoError Reader)
open Prep.Machine
open Prep.Manifest
open Prep.Text

/-! ## Limits and errors -/

/-- `MAX_REF_OUTPUT`. -/
def maxRefOutput : Nat := 4096

/-- `MAX_RUNTIME`. -/
def maxRuntime : Duration := 120 * 10 ^ 9

/-- `POLL`. -/
def poll : Duration := 10 * 10 ^ 6

theorem poll_pos : 0 < poll := by decide

/-- `TERMINATION_GRACE`. -/
def terminationGrace : Duration := 100 * 10 ^ 6

/-- `std::io::Error`: of a call, or made by the checks of a reference. -/
inductive GitIoError where
  | os (error : IoError)
  | ref (error : GitRefError)

/-- `io::ErrorKind::BrokenPipe`. -/
def brokenPipe : GitIoError := .os (.other 32)

/-- `GitResolutionError`. -/
inductive GitResolutionError where
  | invalidPolicy
  | io (error : GitIoError)
  | timeout
  | outputTooLarge
  | unsuccessful
  | unexpectedObjectType

/-- `GitResolutionLimits`. -/
structure GitResolutionLimits where
  timeout : Duration
  maxStdoutBytes : UInt64

/-- `GitResolutionLimits::default`. -/
def GitResolutionLimits.default : GitResolutionLimits where
  timeout := 30 * 10 ^ 9
  maxStdoutBytes := 4096

/-- The limits that `capture_bounded` works with. -/
def GitResolutionLimits.Valid (limits : GitResolutionLimits) : Prop :=
  ¬ (limits.timeout = 0 ∨ limits.timeout > maxRuntime ∨ limits.maxStdoutBytes = 0 ∨
    limits.maxStdoutBytes.toNat > maxRefOutput)

instance (limits : GitResolutionLimits) : Decidable limits.Valid :=
  inferInstanceAs (Decidable (¬ _))

/-- What the default limits are, they allow. -/
theorem valid_default : GitResolutionLimits.default.Valid := by decide

/-! ## Calls -/

/-- What `try_recv` answers. -/
inductive TryRecv where
  | result (output : Except IoError Bytes)
  | empty
  | disconnected

/-- The calls: to start Git and the thread that reads its stdout, to the channel of that
thread, and those the plugin host makes to the clock and the process. -/
inductive Call where
  | spawn (command : GitCommand)
  | spawnStdoutReader (maximum : UInt64)
  | tryRecv
  | recvTimeout (remaining : Duration)
  | host (call : Plugin.Call)

@[reducible] def Answer : Call → Type
  | .spawn _ => Except IoError UInt32
  | .spawnStdoutReader _ => Unit
  | .tryRecv => TryRecv
  | .recvTimeout _ => Option (Except IoError Bytes)
  | .host call => Plugin.Answer call

/-- A program around Git, with what the clock has shown last. -/
abbrev Host : Type → Type := StateT Instant (Program Call Answer)

def perform (c : Call) : Host (Answer c) := liftM (Program.perform c : Program Call Answer _)

/-- What the plugin host does with a process, done with Git's. -/
def hosted {α : Type} (act : Plugin.Host α) : Host α :=
  fun clock => (act.run clock).embed .host fun _ answer => answer

/-- `stdout_reader`: what its thread sends, once. -/
def stdoutReader (stdout : Reader) (maximum : UInt64) : Except IoError Bytes :=
  stdout.takeToEnd (maximum.toNat + 1)

/-- `child.stdout.take()`. -/
def takeStdout : GitStdio → Option Unit
  | .piped => some ()
  | .null | .inherit => none

/-! ## A process and its output -/

/-- `cleanup_remaining_process_group`, with the grace of this module. -/
def cleanup (id : UInt32) : Host Unit :=
  hosted (Plugin.cleanupRemainingProcessGroup id terminationGrace)

/-- `terminate`. -/
def terminate (id : UInt32) : Host Unit := do
  let _ ← hosted (Plugin.terminateAndReap id terminationGrace).run
  cleanup id

/-- A result that is too long. -/
def tooLarge (limits : GitResolutionLimits) : Option (Except IoError Bytes) → Bool
  | some (.ok bytes) => decide (limits.maxStdoutBytes.toNat < bytes.length)
  | _ => false

/-- `terminate(&mut child); return Err(error)`. -/
def abandon (id : UInt32) (error : GitResolutionError) :
    Host (Except GitResolutionError Bytes) := do
  terminate id
  return .error error

/-- What is made of the output of a process that has exited. -/
def judge (limits : GitResolutionLimits) (status : ExitStatus) (output : Except IoError Bytes) :
    Except GitResolutionError Bytes :=
  match output with
  | .error source => .error (.io (.os source))
  | .ok bytes =>
      if limits.maxStdoutBytes.toNat < bytes.length then .error .outputTooLarge
      else if status.success = false then .error .unsuccessful
      else .ok bytes

/-- The branch of the loop for a process that has exited. -/
def exited (limits : GitResolutionLimits) (id : UInt32) (deadline : Instant) (status : ExitStatus)
    (received : Option (Except IoError Bytes)) : Host (Except GitResolutionError Bytes) := do
  match received with
  | some output =>
      cleanup id
      return judge limits status output
  | none =>
      let t ← hosted Plugin.now
      match ← perform (.recvTimeout (deadline - t)) with
      | some output =>
          cleanup id
          return judge limits status output
      | none =>
          cleanup id
          return .error .timeout

/-- The loop of `capture_bounded` from the look at the process on, with what the channel has had;
`again` is the next time round. -/
def look (limits : GitResolutionLimits) (id : UInt32) (deadline clock : Instant)
    (again : Option (Except IoError Bytes) → ∀ woken : Instant,
      deadline - woken < deadline - clock →
        Program Call Answer (Except GitResolutionError Bytes × Instant))
    (received : Option (Except IoError Bytes)) :
    Program Call Answer (Except GitResolutionError Bytes × Instant) :=
  if tooLarge limits received then (abandon id .outputTooLarge).run clock
  else .call (.host .tryWait) fun
    | .error source => (abandon id (.io (.os source))).run clock
    | .ok (some status) => (exited limits id deadline status received).run clock
    | .ok none => .call (.host (.now clock)) fun t =>
        if h : deadline - t.1 = 0 then (abandon id .timeout).run t.1
        else .call (.host (.sleep t.1 (min poll (deadline - t.1)))) fun woken =>
          again received woken.1
            (Plugin.time_shrinks poll_pos t.2.1 (Nat.lt_of_sub_ne_zero h) le_rfl woken.2)

/-- The loop of `capture_bounded`: a look at the channel, until it has had something, and a
look at the process. -/
def captureLoop (limits : GitResolutionLimits) (id : UInt32) (deadline : Instant)
    (received : Option (Except IoError Bytes)) (clock : Instant) :
    Program Call Answer (Except GitResolutionError Bytes × Instant) :=
  let again := fun received woken (_ : deadline - woken < deadline - clock) =>
    captureLoop limits id deadline received woken
  match received with
  | some output => look limits id deadline clock again (some output)
  | none => .call .tryRecv fun
    | .result output => look limits id deadline clock again (some output)
    | .empty => look limits id deadline clock again none
    | .disconnected => (abandon id (.io brokenPipe)).run clock
termination_by deadline - clock

/-- The command as `capture_bounded` starts it. -/
def captured (command : GitCommand) : GitCommand :=
  { command with
    -- `configure_process_group`
    processGroup := some 0
    stdin := .null
    stdout := .piped
    stderr := .null }

/-- `capture_bounded`. -/
def captureBounded (command : GitCommand) (limits : GitResolutionLimits) :
    Host (Except GitResolutionError Bytes) := do
  if limits.Valid then
    match ← perform (.spawn (captured command)) with
    | .error source => return .error (.io (.os source))
    | .ok id =>
        match takeStdout (captured command).stdout with
        | none => return .error (.io brokenPipe)
        | some () => do
            perform (.spawnStdoutReader limits.maxStdoutBytes)
            let deadline ← hosted (Plugin.deadlineAfter limits.timeout)
            captureLoop limits id deadline none
  else return .error .invalidPolicy

/-! ## What is asked of Git -/

/-- `resolve_git_reference`. -/
def resolveGitReference (executable remote fullRef : Bytes) (limits : GitResolutionLimits) :
    Host (Except GitResolutionError GitCommit) := do
  match prepareExactGitRefResolution executable remote fullRef with
  | .error e => return .error (.io (.ref e))
  | .ok command =>
      match ← captureBounded command limits with
      | .error e => return .error e
      | .ok output => return (parseExactGitRef output fullRef).mapError fun e => .io (.ref e)

/-- `verify_commit_type_output`. -/
def verifyCommitTypeOutput (output : Bytes) : Except GitResolutionError Unit :=
  if output = ascii "commit\n" then .ok () else .error .unexpectedObjectType

/-- `inspect_git_commit_type`. -/
def inspectGitCommitType (executable repository : Bytes) (commit : GitCommit)
    (limits : GitResolutionLimits) : Host (Except GitResolutionError Unit) := do
  match ← captureBounded
      (prepareLockedCommitKindInspection executable repository commit) limits with
  | .error e => return .error e
  | .ok output => return verifyCommitTypeOutput output

end Prep.Core.Git
