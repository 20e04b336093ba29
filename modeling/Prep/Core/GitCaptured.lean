/-
  Core/GitCaptured.lean --- what comes of a Git process, in every run.

  Output is handed on only when it is all there is, was not too long, and the process ended
  well.  Whatever comes of it, the process group is swept last.

  Scope: runs that return.  That they are all the runs that end is said in
  `Core/GitWaiting.lean`.  Of a process only what the host sees of it is modelled: what its
  stdout holds is what the reader thread delivers of it (`Delivers`), and that
  `terminate_and_reap` has run says what the host has done, not that the kernel has obeyed.
-/
import Prep.Core.GitRun
import Prep.Core.Plugin.Panics

set_option autoImplicit false

namespace Prep.Core.Git

open Prep.Core.Plugin (ExitStatus Instant)
open Prep.Io (IoError Reader)
open Prep.Machine
open Prep.Manifest
open Prep.Text

/-! ## What is seen of a run -/

/-- The output that was taken from the channel. -/
def takenBy : Answered Call Answer → Option (Except IoError Bytes)
  | ⟨.tryRecv, .result output⟩ => some output
  | ⟨.recvTimeout _, some output⟩ => some output
  | _ => none

/-- The process that was started. -/
def startedBy : Answered Call Answer → Option (GitCommand × UInt32)
  | ⟨.spawn command, .ok id⟩ => some (command, id)
  | _ => none

def taken (trace : Trace Call Answer) : List (Except IoError Bytes) := trace.filterMap takenBy

def started (trace : Trace Call Answer) : List (GitCommand × UInt32) := trace.filterMap startedBy

/-- The processes that were started so far, and what was taken from the channel. -/
def At (processes : List (GitCommand × UInt32)) (outputs : List (Except IoError Bytes))
    (trace : Trace Call Answer) : Prop :=
  started trace = processes ∧ taken trace = outputs

/-- A process was seen to have exited. -/
def Observed (status : ExitStatus) (trace : Trace Call Answer) : Prop :=
  (⟨.host .tryWait, .ok (some status)⟩ : Answered Call Answer) ∈ trace

/-- The last that was done is to sweep the process group, of a process that was seen to have
exited or had been terminated. -/
def Swept (id : UInt32) (trace : Trace Call Answer) : Prop :=
  ∃ front own clock clock', trace = front ++ own ∧
    ((cleanup id).run clock).Ends own ((), clock') ∧
    ((∃ status, Observed status front) ∨
      ∃ result, Ran (hosted (Plugin.terminateAndReap id terminationGrace).run) result front)

/-- What a process has come to. -/
structure Concluded (command : GitCommand) (limits : GitResolutionLimits) (id : UInt32)
    (trace : Trace Call Answer) (outcome : Except GitResolutionError Bytes) : Prop where
  started : started trace = [(command, id)]
  swept : Swept id trace
  captured : ∀ bytes, outcome = .ok bytes → taken trace = [.ok bytes] ∧
    bytes.length ≤ limits.maxStdoutBytes.toNat ∧
    ∃ status, Observed status trace ∧ status.success = true

/-! ## Calls of the plugin host -/

def Call.IsHost : Call → Prop
  | .host _ => True
  | _ => False

theorem makes_hosted {α : Type} {act : Plugin.Host α} (h : Plugin.Quiet act) :
    Makes Call.IsHost (hosted act) :=
  fun clock _ _ => Program.keeps_embed (fun _ _ => trivial) (h clock [] trivial)

theorem makes_now : Makes Call.IsHost (hosted Plugin.now) := makes_hosted Plugin.quiet_now

theorem makes_deadlineAfter (duration : Plugin.Duration) :
    Makes Call.IsHost (hosted (Plugin.deadlineAfter duration)) :=
  makes_hosted (Plugin.quiet_deadlineAfter duration)

theorem makes_cleanup (id : UInt32) : Makes Call.IsHost (cleanup id) :=
  makes_hosted (Plugin.quiet_cleanupRemainingProcessGroup id terminationGrace)

theorem makes_terminateAndReap (id : UInt32) :
    Makes Call.IsHost (hosted (Plugin.terminateAndReap id terminationGrace).run) :=
  makes_hosted (Plugin.quiet_terminateAndReap id terminationGrace)

section Seen

variable {processes : List (GitCommand × UInt32)} {outputs : List (Except IoError Bytes)}
  {front own : Trace Call Answer}

/-- Calls of the plugin host start nothing and take nothing from the channel. -/
theorem At.append_host (h : At processes outputs front) (hown : ∀ made ∈ own, made.call.IsHost) :
    At processes outputs (front ++ own) := by
  have hnone : ∀ made ∈ own, startedBy made = none ∧ takenBy made = none := by
    intro made hmade
    obtain ⟨call, answer⟩ := made
    have hcall := hown _ hmade
    cases call with
    | host call => exact ⟨rfl, rfl⟩
    | spawn | spawnStdoutReader | tryRecv | recvTimeout => cases hcall
  have hstarted : started own = [] := List.filterMap_eq_nil_iff.mpr fun made h => (hnone made h).1
  have htaken : taken own = [] := List.filterMap_eq_nil_iff.mpr fun made h => (hnone made h).2
  unfold At started taken at *
  rw [List.filterMap_append, List.filterMap_append, h.1, h.2, hstarted, htaken, List.append_nil,
    List.append_nil]
  exact ⟨rfl, rfl⟩

theorem At.concat (h : At processes outputs front) (made : Answered Call Answer) :
    At (processes ++ (startedBy made).toList) (outputs ++ (takenBy made).toList)
      (front ++ [made]) := by
  unfold At started taken at *
  rw [List.filterMap_append, List.filterMap_append, h.1, h.2]
  refine ⟨?_, ?_⟩
  · cases hmade : startedBy made with
    | none =>
        rw [List.filterMap_cons_none hmade, List.filterMap_nil]
        rfl
    | some process =>
        rw [List.filterMap_cons_some hmade, List.filterMap_nil]
        rfl
  · cases hmade : takenBy made with
    | none =>
        rw [List.filterMap_cons_none hmade, List.filterMap_nil]
        rfl
    | some output =>
        rw [List.filterMap_cons_some hmade, List.filterMap_nil]
        rfl

theorem At.concat_host (h : At processes outputs front) (call : Plugin.Call)
    (answer : Plugin.Answer call) : At processes outputs (front ++ [⟨.host call, answer⟩]) :=
  h.append_host fun made hmade => by
    rw [List.mem_singleton.mp hmade]
    trivial

theorem Observed.append {status : ExitStatus} (h : Observed status front)
    (own : Trace Call Answer) : Observed status (front ++ own) :=
  List.mem_append_left own h

end Seen

/-! ## The end of a process -/

section Ends

variable {command : GitCommand} {limits : GitResolutionLimits} {group : UInt32}
  {outputs : List (Except IoError Bytes)}

/-- Nothing is asked of the calls themselves. -/
abbrev Comes {α : Type} (pre : Trace Call Answer → Prop) (act : Host α)
    (post : Trace Call Answer → α → Prop) : Prop :=
  Ensures (fun _ _ => True) pre act post

/-- A sweep after what has settled the process. -/
theorem comes_cleanup : Comes (fun trace => At [(command, group)] outputs trace ∧
      ((∃ status, Observed status trace) ∨
        ∃ result, Ran (hosted (Plugin.terminateAndReap group terminationGrace).run) result trace))
    (cleanup group) fun trace _ => At [(command, group)] outputs trace ∧ Swept group trace := by
  refine ((makes_cleanup group).ensuresRun fun _ _ _ => trivial).mono (fun _ => id) ?_
  rintro trace _ ⟨front, own, clock, clock', rfl, ⟨hat, hsettled⟩, hown, hcalls⟩
  exact ⟨hat.append_host hcalls, front, own, clock, clock', rfl, hown, hsettled⟩

theorem comes_terminate : Comes (At [(command, group)] outputs) (terminate group)
    fun trace _ => At [(command, group)] outputs trace ∧ Swept group trace := by
  refine Ensures.bind ((makes_terminateAndReap group).ensures fun _ _ _ => trivial) fun result => ?_
  refine Ensures.from _ comes_cleanup fun trace h => ?_
  obtain ⟨hran, front, own, rfl, hat, hcalls⟩ := h
  exact ⟨hat.append_host hcalls, .inr ⟨result, hran⟩⟩

theorem comes_abandon {error : GitResolutionError} :
    Comes (At [(command, group)] outputs) (abandon group error) (Concluded command limits group) :=
  Ensures.bind comes_terminate fun _ => ensures_pure fun _ h =>
    ⟨h.1.1, h.2, fun _ heq => (by cases heq)⟩

theorem judge_eq_ok {status : ExitStatus} {output : Except IoError Bytes} {bytes : Bytes}
    (h : judge limits status output = .ok bytes) : output = .ok bytes ∧
      bytes.length ≤ limits.maxStdoutBytes.toNat ∧ status.success = true := by
  unfold judge at h
  split at h
  · cases h
  · split at h
    · cases h
    · rename_i hlength
      split at h
      · cases h
      · rename_i hsuccess
        cases h
        exact ⟨rfl, Nat.le_of_not_lt hlength, Bool.eq_true_of_not_eq_false hsuccess⟩

/-- Sweeping after a process that was seen to have exited. -/
theorem comes_observed {status : ExitStatus} :
    Comes (fun trace => At [(command, group)] outputs trace ∧ Observed status trace)
      (cleanup group) fun trace _ => (At [(command, group)] outputs trace ∧ Swept group trace) ∧
        Observed status trace := by
  refine ((makes_cleanup group).ensuresRun fun _ _ _ => trivial).mono (fun _ => id) ?_
  rintro trace _ ⟨front, own, clock, clock', rfl, ⟨hat, hobserved⟩, hown, hcalls⟩
  exact ⟨⟨hat.append_host hcalls, front, own, clock, clock', rfl, hown, .inl ⟨status, hobserved⟩⟩,
    hobserved.append own⟩

/-- The output of a process that was seen to have exited. -/
theorem comes_judged {status : ExitStatus} {output : Except IoError Bytes} :
    Comes (fun trace => At [(command, group)] [output] trace ∧ Observed status trace)
      (do cleanup group; return judge limits status output) (Concluded command limits group) := by
  refine Ensures.bind comes_observed fun _ => ensures_pure fun trace h =>
    ⟨h.1.1.1, h.1.2, fun bytes heq => ?_⟩
  obtain ⟨rfl, hlength, hsuccess⟩ := judge_eq_ok heq
  exact ⟨h.1.1.2, hlength, status, h.2, hsuccess⟩

theorem comes_exited {deadline : Instant} {status : ExitStatus}
    {received : Option (Except IoError Bytes)} :
    Comes (fun trace => At [(command, group)] received.toList trace ∧ Observed status trace)
      (exited limits group deadline status received) (Concluded command limits group) := by
  cases received with
  | some output => exact comes_judged
  | none =>
      have hnow : Comes (fun trace => At [(command, group)] [] trace ∧ Observed status trace)
          (hosted Plugin.now) fun trace _ => At [(command, group)] [] trace ∧
            Observed status trace := by
        refine (makes_now.ensures fun _ _ _ => trivial).mono (fun _ => id) ?_
        rintro trace _ ⟨_, front, own, rfl, ⟨hat, hobserved⟩, hcalls⟩
        exact ⟨hat.append_host hcalls, hobserved.append own⟩
      have hreceive : ∀ t : Instant, Comes
          (fun trace => At [(command, group)] [] trace ∧ Observed status trace)
          (perform (.recvTimeout (deadline - t))) fun trace answer =>
            At [(command, group)] answer.toList trace ∧ Observed status trace := by
        refine fun t => ensures_call (fun _ _ _ => trivial) fun trace answer h => ⟨?_, h.2.append _⟩
        have hat := h.1.concat ⟨.recvTimeout (deadline - t), answer⟩
        cases answer <;> exact hat
      refine Ensures.bind hnow fun t => Ensures.bind (hreceive t) fun answer => ?_
      cases answer with
      | some output => exact comes_judged
      | none =>
          exact Ensures.bind comes_observed fun _ => ensures_pure fun trace h =>
            ⟨h.1.1.1, h.1.2, fun bytes heq => (by cases heq)⟩

/-- In every round of the loop something may end it; the time left bounds the rounds. -/
theorem keeps_captureLoop {deadline clock : Instant} {received : Option (Except IoError Bytes)}
    {past : Trace Call Answer} (hpast : At [(command, group)] received.toList past) :
    (captureLoop limits group deadline received clock).Keeps (fun _ _ => True) past
      fun trace result => Concluded command limits group trace result.1 := by
  induction hleft : deadline - clock using Nat.strong_induction_on
    generalizing clock received past with
  | _ left ih =>
      have hlook : ∀ (received : Option (Except IoError Bytes)) (past : Trace Call Answer),
          At [(command, group)] received.toList past →
          (look limits group deadline clock
            (fun received woken _ => captureLoop limits group deadline received woken)
            received).Keeps (fun _ _ => True) past
            fun trace result => Concluded command limits group trace result.1 := by
        intro received past hat
        unfold look
        split
        · exact comes_abandon clock past hat
        · intro answer
          have hafter := hat.concat_host .tryWait answer
          refine ⟨trivial, ?_⟩
          rcases answer with source | _ | status
          · exact comes_abandon clock _ hafter
          · intro t
            have hnow := hafter.concat_host (.now clock) t
            refine ⟨trivial, ?_⟩
            dsimp only
            split
            · exact comes_abandon t.1 _ hnow
            · rename_i hremaining
              refine fun woken => ⟨trivial, ih _ ?_
                (hnow.concat_host (.sleep t.1 (min poll (deadline - t.1))) woken) rfl⟩
              rw [← hleft]
              exact Plugin.time_shrinks poll_pos t.2.1 (Nat.lt_of_sub_ne_zero hremaining) le_rfl
                woken.2
          · exact comes_exited clock _ ⟨hafter, List.mem_append_right _ (List.mem_singleton_self _)⟩
      cases received with
      | some output =>
          rw [captureLoop.eq_def]
          exact hlook (some output) past hpast
      | none =>
          rw [captureLoop.eq_def]
          intro answer
          have hat := hpast.concat ⟨.tryRecv, answer⟩
          refine ⟨trivial, ?_⟩
          cases answer with
          | result output => exact hlook (some output) _ hat
          | empty => exact hlook none _ hat
          | disconnected => exact comes_abandon clock _ hat

end Ends

/-! ## The whole run -/

section Whole

variable {command : GitCommand} {limits : GitResolutionLimits} {clock clock' : Instant}
  {trace : Trace Call Answer}

theorem at_nil : At [] [] [] := ⟨rfl, rfl⟩

/-- What there is to say of a whole run: without a process nothing has come of it, and a
process has been concluded. -/
def Run (command : GitCommand) (limits : GitResolutionLimits) (trace : Trace Call Answer)
    (outcome : Except GitResolutionError Bytes) : Prop :=
  (started trace = [] ∧ ∃ error, outcome = .error error) ∨
    limits.Valid ∧ ∃ id, Concluded (captured command) limits id trace outcome

theorem comes_captureBounded :
    Comes (At [] []) (captureBounded command limits) (Run command limits) := by
  have hstart : Comes (At [] []) (perform (.spawn (captured command))) fun trace result =>
      At (result.toOption.map fun id => (captured command, id)).toList [] trace := by
    refine ensures_call (fun _ _ _ => trivial) fun trace answer h => ?_
    have hat := h.concat ⟨.spawn (captured command), answer⟩
    cases answer <;> exact hat
  unfold captureBounded
  split
  · rename_i hvalid
    refine Ensures.bind hstart fun result => ?_
    cases result with
    | error source => exact ensures_pure fun trace h => .inl ⟨h.1, _, rfl⟩
    | ok group =>
        have hreader : Comes (At [(captured command, group)] [])
            (perform (.spawnStdoutReader limits.maxStdoutBytes)) fun trace _ =>
              At [(captured command, group)] [] trace :=
          ensures_call (fun _ _ _ => trivial) fun trace answer h =>
            h.concat ⟨.spawnStdoutReader limits.maxStdoutBytes, answer⟩
        have hdeadline : Comes (At [(captured command, group)] [])
            (hosted (Plugin.deadlineAfter limits.timeout)) fun trace _ =>
              At [(captured command, group)] [] trace := by
          refine ((makes_deadlineAfter _).ensures fun _ _ _ => trivial).mono (fun _ => id) ?_
          rintro trace _ ⟨_, front, own, rfl, hat, hcalls⟩
          exact hat.append_host hcalls
        refine Ensures.bind hreader fun _ => Ensures.bind hdeadline fun deadline => ?_
        exact fun clock past hpast =>
          (@keeps_captureLoop _ limits group _ clock none past hpast).mono
            fun trace result h => .inr ⟨hvalid, group, h⟩
  · exact ensures_pure fun trace h => .inl ⟨h.1, _, rfl⟩

/-- The channel hands out what the thread has read from stdout. -/
def Delivers (stdout : Reader) (limits : GitResolutionLimits) (trace : Trace Call Answer) : Prop :=
  ∀ output ∈ taken trace, output = stdoutReader stdout limits.maxStdoutBytes

/-- What is read up to a limit that it does not reach is all there is. -/
theorem contents_of_takeToEnd {limit : Nat} {reader : Reader} {bytes : Bytes}
    (h : reader.takeToEnd limit = .ok bytes) (hlength : bytes.length < limit) :
    reader.contents = some bytes := by
  induction reader generalizing limit bytes with
  | nil =>
      cases limit with
      | zero => cases hlength
      | succ limit =>
          cases h
          rfl
  | cons event reader ih =>
      cases limit with
      | zero => cases hlength
      | succ limit =>
          cases event with
          | error e =>
              rw [Reader.takeToEnd] at h
              split at h
              · rename_i he
                rw [Reader.contents, if_pos he]
                exact ih h hlength
              · cases h
          | chunk head tail =>
              rw [Reader.takeToEnd] at h
              split at h
              · cases h
                rw [List.length_take] at hlength
                rw [List.length_cons] at hlength
                omega
              · rename_i hfits
                obtain ⟨rest, hrest, heq⟩ := Data.bind_eq_ok_iff.mp h
                cases heq
                have hshort : rest.length < limit - tail.length := by
                  rw [List.length_append, List.length_cons] at hlength
                  omega
                exact Reader.contents_chunk_cons.mpr ⟨rest, ih hrest hshort, rfl⟩

/-- Output that was captured is the whole output. -/
theorem Run.whole {stdout : Reader} {bytes : Bytes} (h : Run command limits trace (.ok bytes))
    (hdelivers : Delivers stdout limits trace) :
    limits.Valid ∧ stdout.contents = some bytes ∧ bytes.length ≤ limits.maxStdoutBytes.toNat ∧
      ∃ status, Observed status trace ∧ status.success = true := by
  rcases h with ⟨_, error, heq⟩ | ⟨hvalid, id, hconcluded⟩
  · cases heq
  · obtain ⟨htaken, hlength, hstatus⟩ := hconcluded.captured bytes rfl
    have houtput := hdelivers (.ok bytes) (by rw [htaken]; exact List.mem_singleton_self _)
    exact ⟨hvalid, contents_of_takeToEnd houtput.symm (Nat.lt_succ_of_le hlength), hlength, hstatus⟩

/-- There is one process, and it is swept. -/
theorem Run.process {outcome : Except GitResolutionError Bytes}
    (h : Run command limits trace outcome) {process : GitCommand × UInt32}
    (hmem : process ∈ started trace) :
    started trace = [process] ∧ process.1 = captured command ∧ Swept process.2 trace := by
  rcases h with ⟨hnone, _⟩ | ⟨_, id, hconcluded⟩
  · rw [hnone] at hmem
    cases hmem
  · rw [hconcluded.started] at hmem
    rw [List.mem_singleton.mp hmem]
    exact ⟨hconcluded.started, rfl, hconcluded.swept⟩

/-- Every run of a bounded process fails closed.  At most one process is started, and it is
swept in the end, after it was seen to exit or was terminated.  Output is returned only if it
is all that the process has written, within the limit, and the process ended with success.  The
reader thread is taken to hand on what the process has written, in any pieces (`Delivers`). -/
theorem captureBounded_failClosed (command : GitCommand) (limits : GitResolutionLimits)
    {outcome : Except GitResolutionError Bytes}
    (h : ((captureBounded command limits).run clock).Ends trace (outcome, clock')) :
    (∀ process ∈ started trace, started trace = [process] ∧ process.1 = captured command ∧
      Swept process.2 trace) ∧
    (started trace = [] → ∃ error, outcome = .error error) ∧
    ∀ stdout bytes, Delivers stdout limits trace → outcome = .ok bytes →
      limits.Valid ∧ stdout.contents = some bytes ∧
        bytes.length ≤ limits.maxStdoutBytes.toNat ∧
        ∃ status, Observed status trace ∧ status.success = true := by
  have hrun : Run command limits trace outcome := comes_captureBounded.ends at_nil h
  refine ⟨fun process hmem => hrun.process hmem, fun hnone => ?_,
    fun stdout bytes hdelivers heq => ?_⟩
  · rcases hrun with ⟨_, herror⟩ | ⟨_, id, hconcluded⟩
    · exact herror
    · rw [hconcluded.started] at hnone
      cases hnone
  · subst heq
    exact hrun.whole hdelivers

/-! ## A run that succeeds -/

/-- The calls of a run in which everything is there at the first look. -/
def promptTrace (command : GitCommand) (limits : GitResolutionLimits) (output : Bytes)
    (group : UInt32) (clock : Instant) (hclock : clock < Plugin.clockEnd) : Trace Call Answer :=
  [⟨.spawn (captured command), .ok group⟩, ⟨.spawnStdoutReader limits.maxStdoutBytes, ()⟩,
    ⟨.host (.now clock), ⟨clock, le_rfl, hclock⟩⟩, ⟨.tryRecv, .result (.ok output)⟩,
    ⟨.host .tryWait, .ok (some ⟨some 0⟩)⟩,
    ⟨.host (.status "/bin/kill" ["-0", "--", s!"-{group}"]), .ok ⟨some 1⟩⟩]

theorem GitResolutionLimits.Valid.deadline (hvalid : limits.Valid)
    (hclock : clock < Plugin.clockEnd) : clock + limits.timeout < Plugin.instantEnd := by
  have hlong : limits.timeout ≤ maxRuntime := Nat.le_of_not_lt fun h => hvalid (.inr (.inl h))
  exact Plugin.lt_instantEnd hclock (hlong.trans (by decide))

theorem ends_deadlineAfter {duration : Plugin.Duration} (hclock : clock < Plugin.clockEnd)
    (hfits : clock + duration < Plugin.instantEnd) :
    ((hosted (Plugin.deadlineAfter duration)).run clock).Ends
      [⟨.host (.now clock), ⟨clock, le_rfl, hclock⟩⟩] (clock + duration, clock) := by
  refine Program.Ends.call (Call.host (.now clock)) _ _ ?_
  show ((hosted (Plugin.expect _ (Plugin.checkedAdd clock duration))).run clock).Ends [] _
  rewrite [Plugin.checkedAdd_eq_some hfits]
  exact .ret _

/-- The loop over a process that has written its output and ended with success. -/
theorem ends_captureLoop {output : Bytes} (hlength : output.length ≤ limits.maxStdoutBytes.toNat)
    (group : UInt32) (deadline clock : Instant) :
    (captureLoop limits group deadline none clock).Ends
      [⟨.tryRecv, .result (.ok output)⟩, ⟨.host .tryWait, .ok (some ⟨some 0⟩)⟩,
        ⟨.host (.status "/bin/kill" ["-0", "--", s!"-{group}"]), .ok ⟨some 1⟩⟩]
      (.ok output, clock) := by
  have hfits : tooLarge limits (some (.ok output)) = false :=
    decide_eq_false (Nat.not_lt.mpr hlength)
  have hjudge : judge limits ⟨some 0⟩ (.ok output) = .ok output := by
    rw [judge, if_neg (Nat.not_lt.mpr hlength), if_neg fun hfailed => ?_]
    cases hfailed
  rw [captureLoop.eq_def]
  refine @Program.Ends.call Call Answer _ .tryRecv _ (.result (.ok output)) _ _ ?_
  dsimp only
  rw [look, if_neg (Bool.eq_false_iff.mp hfits)]
  refine Program.Ends.call (Call.host .tryWait) _ _ ?_
  refine Program.Ends.call (Call.host (.status _ _)) _ _ ?_
  rw [← hjudge]
  exact .ret _

/-- The loop of a process that was started. -/
theorem ends_captureBounded (command : GitCommand) (hvalid : limits.Valid) {group : UInt32}
    (hclock : clock < Plugin.clockEnd) {result : Except GitResolutionError Bytes × Instant}
    (hloop : (captureLoop limits group (clock + limits.timeout) none clock).Ends trace result) :
    ((captureBounded command limits).run clock).Ends
      ([⟨.spawn (captured command), .ok group⟩, ⟨.spawnStdoutReader limits.maxStdoutBytes, ()⟩,
        ⟨.host (.now clock), ⟨clock, le_rfl, hclock⟩⟩] ++ trace) result := by
  unfold captureBounded
  rw [if_pos hvalid]
  refine Program.Ends.call (Call.spawn _) _ _ ?_
  refine Program.Ends.call (Call.spawnStdoutReader _) _ _ ?_
  exact (ends_deadlineAfter hclock (hvalid.deadline hclock)).bind hloop

/-- A process that has written its output and ended with success has been captured. -/
theorem ends_prompt (command : GitCommand) (hvalid : limits.Valid) {output : Bytes}
    (hlength : output.length ≤ limits.maxStdoutBytes.toNat) (group : UInt32) (clock : Instant)
    (hclock : clock < Plugin.clockEnd) :
    ((captureBounded command limits).run clock).Ends
      (promptTrace command limits output group clock hclock) (.ok output, clock) :=
  ends_captureBounded command hvalid hclock (ends_captureLoop hlength group _ clock)

/-- `captureBounded_failClosed` in such a run. -/
theorem captureBounded_failClosed_prompt : ∃ trace : Trace Call Answer,
    started trace = [(captured (GitCommand.new []), 7)] ∧ Swept 7 trace ∧
      ∃ status, Observed status trace ∧ status.success = true := by
  have hfits : (ascii "commit\n").length ≤ GitResolutionLimits.default.maxStdoutBytes.toNat := by
    decide
  have hends := ends_prompt (GitCommand.new []) valid_default hfits 7 0 Plugin.clockEnd_pos
  obtain ⟨hprocess, _, hoks⟩ := captureBounded_failClosed _ _ hends
  obtain ⟨hstarted, _, hswept⟩ := hprocess (captured (GitCommand.new []), 7) List.mem_cons_self
  have hdelivers : Delivers (Reader.ofBytes (ascii "commit\n")) .default
      (promptTrace (GitCommand.new []) .default (ascii "commit\n") 7 0 Plugin.clockEnd_pos) := by
    intro output hmem
    rw [List.mem_singleton.mp hmem]
    rfl
  obtain ⟨_, _, _, hstatus⟩ := hoks _ _ hdelivers rfl
  exact ⟨_, hstarted, hswept, hstatus⟩

end Whole

/-! ## What Git is asked -/

section Asked

variable {executable remote fullRef repository : Bytes} {limits : GitResolutionLimits}
  {clock clock' : Instant} {trace : Trace Call Answer} {directory subcommand operands : List Bytes}

theorem isolated_captured {command : GitCommand}
    (h : Isolated command executable directory subcommand operands) :
    Isolated (captured command) executable directory subcommand operands :=
  ⟨h.program, h.envClear, h.env, h.args, h.operands⟩

/-- The commands of a request refuse what the parser of the answers would refuse. -/
theorem validFullGitRef_of_prepared {command : GitCommand}
    (h : prepareExactGitRefResolution executable remote fullRef = .ok command) :
    validFullGitRef fullRef = true := by
  unfold prepareExactGitRefResolution at h
  split at h
  · cases h
  · rename_i hok
    simp only [not_or, Bool.not_eq_false] at hok
    exact hok.2.2.2.2

theorem readRefLine_error {found : FoundRefs} {line : Bytes} {e : GitRefError}
    (h : readRefLine fullRef found line = .error e) : e = .invalidData none := by
  unfold readRefLine at h
  split at h
  · cases h
    rfl
  · split at h
    · cases h
      rfl
    · split at h
      · split at h <;> cases h
        rfl
      · split at h
        · split at h <;> cases h
          rfl
        · cases h
          rfl

theorem readRefLines_error {lines : List Bytes} {found : FoundRefs} {e : GitRefError}
    (h : lines.foldlM (readRefLine fullRef) found = .error e) : e = .invalidData none := by
  induction lines generalizing found with
  | nil => cases h
  | cons line rest ih =>
      rw [List.foldlM_cons] at h
      cases hline : readRefLine fullRef found line with
      | error e' =>
          rw [hline] at h
          cases h
          exact readRefLine_error hline
      | ok next =>
          rw [hline] at h
          exact ih h

/-- The parser of an answer refuses no reference that was asked for. -/
theorem parseExactGitRef_ne_invalidInput (hvalid : validFullGitRef fullRef = true) (output : Bytes)
    (message : String) : parseExactGitRef output fullRef ≠ .error (.invalidInput message) := by
  intro h
  unfold parseExactGitRef at h
  rw [if_neg (by rw [hvalid]; exact Bool.true_eq_false_eq_False)] at h
  split at h
  · cases h
  · split at h
    · cases h
    · cases hfound : (lines output).foldlM (readRefLine fullRef) ⟨none, none⟩ with
      | error e =>
          obtain rfl := readRefLines_error hfound
          rw [hfound] at h
          cases h
      | ok found =>
          rw [hfound] at h
          change (if _ then _ else _) = _ at h
          split at h
          · cases h
          · split at h <;> cases h

/-- A process was asked, and what was made of its output. -/
def Asked {α : Type} (command : GitCommand) (limits : GitResolutionLimits)
    (parse : Bytes → Except GitResolutionError α) (trace : Trace Call Answer)
    (outcome : Except GitResolutionError α) : Prop :=
  ∃ output, Run command limits trace output ∧ outcome = output.bind parse

theorem comes_resolveGitReference : Comes (At [] [])
    (resolveGitReference executable remote fullRef limits) fun trace outcome =>
      match prepareExactGitRefResolution executable remote fullRef with
      | .error e => started trace = [] ∧ outcome = .error (.io (.ref e))
      | .ok command => Asked command limits (fun output =>
          (parseExactGitRef output fullRef).mapError fun e => .io (.ref e)) trace outcome := by
  unfold resolveGitReference
  cases prepareExactGitRefResolution executable remote fullRef with
  | error e => exact ensures_pure fun trace h => ⟨h.1, rfl⟩
  | ok command =>
      refine Ensures.bind comes_captureBounded fun output => ?_
      cases output with
      | error e => exact ensures_pure fun trace h => ⟨.error e, h, rfl⟩
      | ok output => exact ensures_pure fun trace h => ⟨.ok output, h, rfl⟩

theorem comes_inspectGitCommitType {commit : GitCommit} : Comes (At [] [])
    (inspectGitCommitType executable repository commit limits)
    (Asked (prepareLockedCommitKindInspection executable repository commit) limits
      verifyCommitTypeOutput) := by
  refine Ensures.bind comes_captureBounded fun output => ?_
  cases output with
  | error e => exact ensures_pure fun trace h => ⟨.error e, h, rfl⟩
  | ok output => exact ensures_pure fun trace h => ⟨.ok output, h, rfl⟩

section One

variable {α : Type} {command : GitCommand} {parse : Bytes → Except GitResolutionError α}
  {outcome : Except GitResolutionError α}

/-- The process that is asked is isolated as its command is. -/
theorem Asked.process (h : Asked command limits parse trace outcome)
    (hcommand : Isolated command executable directory subcommand operands)
    {process : GitCommand × UInt32} (hmem : process ∈ started trace) :
    started trace = [process] ∧ Swept process.2 trace ∧
      Isolated process.1 executable directory subcommand operands := by
  obtain ⟨output, hrun, _⟩ := h
  obtain ⟨hstarted, hprocess, hswept⟩ := hrun.process hmem
  refine ⟨hstarted, hswept, ?_⟩
  rw [hprocess]
  exact isolated_captured hcommand

/-- An answer is made of the whole output of a process that ended with success. -/
theorem Asked.answered {a : α} (h : Asked command limits parse trace (.ok a)) {stdout : Reader}
    (hdelivers : Delivers stdout limits trace) :
    ∃ answer status, stdout.contents = some answer ∧ parse answer = .ok a ∧
      Observed status trace ∧ status.success = true := by
  obtain ⟨output, hrun, heq⟩ := h
  cases output with
  | error e => cases heq
  | ok output =>
      obtain ⟨_, hcontents, _, status, hobserved, hsuccess⟩ := hrun.whole hdelivers
      exact ⟨output, status, hcontents, heq.symm, hobserved, hsuccess⟩

end One

/-- Every run of `resolve_git_reference` fails closed.  At most one process is started: Git,
isolated, and asked for the reference; it is swept in the end.  A commit is returned only if it
is what the whole answer says that a successful process has written, if the reader thread hands
on what was written.  And a reference that the parser of the answers would refuse is refused
before. -/
theorem resolveGitReference_failClosed (executable remote fullRef : Bytes)
    (limits : GitResolutionLimits) {outcome : Except GitResolutionError GitCommit}
    (h : ((resolveGitReference executable remote fullRef limits).run clock).Ends trace
      (outcome, clock')) :
    (∀ process ∈ started trace, started trace = [process] ∧ Swept process.2 trace ∧
      Isolated process.1 executable [] [ascii "ls-remote"] [remote, fullRef]) ∧
    (∀ stdout commit, Delivers stdout limits trace → outcome = .ok commit →
      ∃ answer status, stdout.contents = some answer ∧
        parseExactGitRef answer fullRef = .ok commit ∧ Observed status trace ∧
        status.success = true) ∧
    ∀ answer message, parseExactGitRef answer fullRef = .error (.invalidInput message) →
      started trace = [] := by
  have hrun := comes_resolveGitReference.ends at_nil h
  cases hprepare : prepareExactGitRefResolution executable remote fullRef with
  | error e =>
      rw [hprepare] at hrun
      obtain ⟨hnone, rfl⟩ := hrun
      refine ⟨fun process hmem => ?_, fun _ _ _ heq => (by cases heq),
        fun _ _ _ => hnone⟩
      rw [hnone] at hmem
      cases hmem
  | ok command =>
      rw [hprepare] at hrun
      refine ⟨fun process hmem => hrun.process (isolated_exactGitRefResolution hprepare) hmem,
        fun stdout commit hdelivers heq => ?_, fun answer message heq =>
          absurd heq (parseExactGitRef_ne_invalidInput (validFullGitRef_of_prepared hprepare) _ _)⟩
      subst heq
      obtain ⟨answer, status, hcontents, hparse, hstatus⟩ := hrun.answered hdelivers
      refine ⟨answer, status, hcontents, ?_, hstatus⟩
      cases hparsed : parseExactGitRef answer fullRef with
      | error e =>
          rw [hparsed] at hparse
          cases hparse
      | ok found =>
          rw [hparsed] at hparse
          cases hparse
          rfl

/-- Git finds the reference and ends well. -/
theorem ends_resolveGitReference {command : GitCommand} (hvalid : limits.Valid)
    (hprepare : prepareExactGitRefResolution executable remote fullRef = .ok command)
    {output : Bytes} (hlength : output.length ≤ limits.maxStdoutBytes.toNat) {commit : GitCommit}
    (hparse : parseExactGitRef output fullRef = .ok commit) (group : UInt32)
    (hclock : clock < Plugin.clockEnd) :
    ((resolveGitReference executable remote fullRef limits).run clock).Ends
      (promptTrace command limits output group clock hclock) (.ok commit, clock) := by
  have hcaptured := ends_prompt command hvalid hlength group clock hclock
  unfold resolveGitReference
  rewrite [hprepare, ← List.append_nil (promptTrace command limits output group clock hclock)]
  refine hcaptured.bind ?_
  dsimp only
  rewrite [hparse]
  exact .ret _

/-- `resolveGitReference_failClosed` in a run that finds a branch. -/
theorem resolveGitReference_failClosed_prompt :
    let trace := promptTrace ((isolatedGitCommand (ascii "git")).arg
      [ascii "ls-remote", ascii "https://h", ascii "refs/heads/m"]) .default
      (List.replicate 40 97 ++ ascii "\trefs/heads/m\n") 7 0 Plugin.clockEnd_pos
    ∃ process status, started trace = [process] ∧ Swept process.2 trace ∧
      Isolated process.1 (ascii "git") [] [ascii "ls-remote"]
        [ascii "https://h", ascii "refs/heads/m"] ∧
      Observed status trace ∧ status.success = true := by
  intro trace
  have hprepare : prepareExactGitRefResolution (ascii "git") (ascii "https://h")
      (ascii "refs/heads/m") = .ok ((isolatedGitCommand (ascii "git")).arg
        [ascii "ls-remote", ascii "https://h", ascii "refs/heads/m"]) :=
    if_neg (by decide +kernel)
  have hparse : parseExactGitRef (List.replicate 40 97 ++ ascii "\trefs/heads/m\n")
      (ascii "refs/heads/m") = .ok ⟨List.replicate 40 97, by decide, by decide⟩ := by
    decide +kernel
  have hends := @ends_resolveGitReference _ _ _ .default 0 _ valid_default hprepare _
    (by decide +kernel) _ hparse 7 Plugin.clockEnd_pos
  obtain ⟨hprocess, hcommit, _⟩ := resolveGitReference_failClosed _ _ _ _ hends
  obtain ⟨hstarted, hswept, hisolated⟩ := hprocess _ List.mem_cons_self
  have hdelivers : Delivers
      (Reader.ofBytes (List.replicate 40 97 ++ ascii "\trefs/heads/m\n")) .default trace := by
    intro output hmem
    rw [List.mem_singleton.mp hmem]
    decide +kernel
  obtain ⟨_, status, _, _, hobserved, hsuccess⟩ := hcommit _ _ hdelivers rfl
  exact ⟨_, status, hstarted, hswept, hisolated, hobserved, hsuccess⟩

/-- Git finds a commit and ends well. -/
theorem ends_inspectGitCommitType {commit : GitCommit}
    (hcaptured : ((captureBounded (prepareLockedCommitKindInspection executable repository commit)
      limits).run clock).Ends trace (.ok (ascii "commit\n"), clock')) :
    ((inspectGitCommitType executable repository commit limits).run clock).Ends trace
      (.ok (), clock') := by
  unfold inspectGitCommitType
  rewrite [← List.append_nil trace]
  refine hcaptured.bind ?_
  dsimp only
  rewrite [verifyCommitTypeOutput, if_pos rfl]
  exact .ret _

/-- Every run of `inspect_git_commit_type` fails closed.  At most one process is started: Git,
isolated, and asked for the kind of the object; it is swept in the end.  The object is taken for
a commit only if that is the whole of what a successful process has written, if the reader thread
hands on what was written. -/
theorem inspectGitCommitType_failClosed (executable repository : Bytes) (commit : GitCommit)
    (limits : GitResolutionLimits) {outcome : Except GitResolutionError Unit}
    (h : ((inspectGitCommitType executable repository commit limits).run clock).Ends trace
      (outcome, clock')) :
    (∀ process ∈ started trace, started trace = [process] ∧ Swept process.2 trace ∧
      Isolated process.1 executable [ascii "-C", repository] [ascii "cat-file", ascii "-t"]
        [commit.asStr]) ∧
    ∀ stdout, Delivers stdout limits trace → outcome = .ok () →
      stdout.contents = some (ascii "commit\n") ∧
        ∃ status, Observed status trace ∧ status.success = true := by
  have hrun := comes_inspectGitCommitType.ends at_nil h
  refine ⟨fun process hmem =>
    hrun.process (isolated_lockedCommitKindInspection executable repository commit) hmem,
    fun stdout hdelivers heq => ?_⟩
  subst heq
  obtain ⟨answer, status, hcontents, hparse, hstatus⟩ := hrun.answered hdelivers
  unfold verifyCommitTypeOutput at hparse
  split at hparse
  · rename_i hanswer
    rw [hanswer] at hcontents
    exact ⟨hcontents, status, hstatus⟩
  · cases hparse

/-- `inspectGitCommitType_failClosed` in a run that finds a commit. -/
theorem inspectGitCommitType_failClosed_prompt :
    let trace := promptTrace (prepareLockedCommitKindInspection (ascii "git") (ascii "/r")
      ⟨List.replicate 40 97, by decide, by decide⟩) .default (ascii "commit\n") 7 0
      Plugin.clockEnd_pos
    ∃ process status, started trace = [process] ∧ Swept process.2 trace ∧
      Observed status trace ∧ status.success = true := by
  intro trace
  have hfits : (ascii "commit\n").length ≤ GitResolutionLimits.default.maxStdoutBytes.toNat := by
    decide
  have hends := ends_inspectGitCommitType (ends_prompt (prepareLockedCommitKindInspection
    (ascii "git") (ascii "/r") ⟨List.replicate 40 97, by decide, by decide⟩) valid_default hfits 7
    0 Plugin.clockEnd_pos)
  obtain ⟨hprocess, hcommit⟩ := inspectGitCommitType_failClosed _ _ _ _ hends
  obtain ⟨hstarted, hswept, _⟩ := hprocess _ List.mem_cons_self
  have hdelivers : Delivers (Reader.ofBytes (ascii "commit\n")) .default trace := by
    intro output hmem
    rw [List.mem_singleton.mp hmem]
    decide
  obtain ⟨_, status, hobserved, hsuccess⟩ := hcommit _ hdelivers rfl
  exact ⟨_, status, hstarted, hswept, hobserved, hsuccess⟩

end Asked

end Prep.Core.Git
