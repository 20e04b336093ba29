/-
  Core/Plugin/Trailing.lean --- what a plugin says after its result.

  The host takes two lines off the channel and does not look at what follows: neither at
  what the reader thread has read on, nor at what is still in the pipe.

  `CleanStream` is what the protocol says of a whole stdout: it is two lines, and more is an
  error.  It is asked of every run of the host that returns, whatever the other calls are
  answered, over a reader that hands exactly these bytes out, in any pieces.  A run that times
  out, or whose plugin fails otherwise, returns an error and is no offence.

  Two lines that are accepted are `Accepted`: good lines, the first a welcome handshake, the
  second the `ok` result of the request.  So `cleanStream_iff` is exact: the host keeps to the
  protocol on a stream exactly if there is nothing behind two such lines.  It does so vacuously
  where no run gets that far, because the time of the operation is none at all or has no end
  that an instant can hold.

  Not here: bytes on the plugin's standard error, and what a plugin does after it has closed its
  stdout.
-/
import Prep.Core.Plugin.Success

set_option autoImplicit false

namespace Prep.Core.Plugin

open Prep.Io (IoError Reader)
open Prep.Io.Reader (contents)
open Prep.Machine
open Prep.Protocol
open Prep.Serde
open Prep.Text

/-! ## Runs over a stdout -/

/-- The results that were taken from the channel. -/
def Received.result? : Received → Option (Except PluginProbeError Bytes)
  | .line result => some result
  | .timeout => none
  | .disconnected => none

/-- The channel hands out what the loop of the reader thread has sent, one after
another: the lines, and the error it stopped with. -/
def Delivers (maxFrameBytes : UInt64) (reader : Reader) (taken : List Received) : Prop :=
  taken.filterMap Received.result? <+:
    (readLines maxFrameBytes reader).1.map .ok ++ [.error (readLines maxFrameBytes reader).2]

/-- A run of a probe whose plugin writes `reader` to its stdout. -/
structure ProbeRun (s : SerdeJson) (policy : PluginProcessPolicy)
    (admission : PluginAdmissionPolicy) (reader : Reader) (trace : Trace Call Answer)
    (outcome : Except PluginProbeError PluginProbe) : Prop where
  ends : ∃ executable clock clock',
    ((probeBuildSystemWithPolicies s executable policy admission).run.run clock).Ends trace
      (outcome, clock')
  delivers : Delivers policy.maxFrameBytes reader (received trace)

/-- Two lines that the host takes as handshake and result. -/
structure Accepted (s : SerdeJson) (policy : PluginProcessPolicy)
    (admission : PluginAdmissionPolicy) (helloLine resultLine : Bytes) : Prop where
  helloGood : GoodLine policy.maxFrameBytes helloLine
  resultGood : GoodLine policy.maxFrameBytes resultLine
  welcome : ∃ hello, Welcome s policy admission helloLine hello
  answers : ∃ answer, Answers s policy resultLine answer

/-- A probe of a plugin that writes `bytes` succeeds only if these are the two lines, and
more after the two lines is a violation of the protocol. -/
def CleanStream (s : SerdeJson) (policy : PluginProcessPolicy)
    (admission : PluginAdmissionPolicy) (bytes : Bytes) : Prop :=
  ∀ reader trace outcome, contents reader = some bytes →
    ProbeRun s policy admission reader trace outcome →
    (∀ probe, outcome = .ok probe → ∃ helloLine resultLine,
      bytes = helloLine ++ resultLine ∧ Accepted s policy admission helloLine resultLine) ∧
    ∀ helloLine resultLine more, received trace = [.line (.ok helloLine), .line (.ok resultLine)] →
      Accepted s policy admission helloLine resultLine → bytes = helloLine ++ resultLine ++ more →
      more ≠ [] → ∃ message, outcome = .error (.protocol message)

variable {s : SerdeJson} {policy : PluginProcessPolicy} {admission : PluginAdmissionPolicy}

/-- The two lines that were taken are the first two of the stream. -/
theorem append_of_delivers {reader : Reader} {bytes helloLine resultLine : Bytes}
    (h : contents reader = some bytes)
    (hdelivers : Delivers policy.maxFrameBytes reader
      [.line (.ok helloLine), .line (.ok resultLine)]) :
    GoodLine policy.maxFrameBytes helloLine ∧ GoodLine policy.maxFrameBytes resultLine ∧
      ∃ more, bytes = helloLine ++ resultLine ++ more := by
  obtain ⟨rest, hbytes, hgood, _, _⟩ := @readLines_spec policy.maxFrameBytes _ _ h
  unfold Delivers at hdelivers
  generalize readLines policy.maxFrameBytes reader = delivered at hbytes hgood hdelivers
  obtain ⟨lines, error⟩ := delivered
  obtain ⟨more, hmore⟩ := hdelivers
  rcases lines with _ | ⟨first, _ | ⟨second, lines⟩⟩
  · cases hmore
  · cases hmore
  · obtain ⟨hfirst, hrest⟩ := List.cons.inj hmore
    obtain ⟨hsecond, _⟩ := List.cons.inj hrest
    obtain rfl := Except.ok.inj hfirst
    obtain rfl := Except.ok.inj hsecond
    refine ⟨hgood _ List.mem_cons_self, hgood _ (List.mem_cons_of_mem _ List.mem_cons_self),
      lines.flatten ++ rest, ?_⟩
    rw [hbytes, List.flatten_cons, List.flatten_cons, List.append_assoc, List.append_assoc,
      List.append_assoc]

/-! ## No time, no line -/

variable {deadline : Instant}

/-- The action takes no line. -/
def TakesNothing {α : Type} (act : Host α) : Prop :=
  ∀ clock past, (act.run clock).Keeps (fun _ _ => True) past fun trace _ =>
    received trace = received past

/-- Once the deadline has passed, the action takes no line. -/
def Late (deadline : Instant) {α : Type} (act : Host α) : Prop :=
  ∀ clock past, deadline ≤ clock → (act.run clock).Keeps (fun _ _ => True) past fun trace r =>
    received trace = received past ∧ deadline ≤ r.2

section Late

variable {α β ε ε' : Type}

theorem received_concat {trace : Trace Call Answer} {made : Answered Call Answer}
    (h : receivedBy made = none) : received (trace ++ [made]) = received trace := by
  rw [received_append, received, received, List.filterMap_cons_none h, List.filterMap_nil,
    List.append_nil]

theorem late_pure (a : α) : Late deadline (pure a : Host α) := fun _ _ hlate => ⟨rfl, hlate⟩

theorem late_perform {c : Call} (h : ∀ answer, receivedBy ⟨c, answer⟩ = none) :
    Late deadline (perform c) :=
  fun _ _ hlate answer => ⟨trivial, received_concat (h answer), hlate⟩

theorem Late.bind {act : Host α} {f : α → Host β} (h : Late deadline act)
    (hf : ∀ a, Late deadline (f a)) : Late deadline (act >>= f) := by
  refine fun clock past hlate => (h clock past hlate).bind fun trace (a, clock') hmid => ?_
  refine (hf a clock' trace hmid.2).mono fun trace' r hmore => ⟨?_, hmore.2⟩
  rw [hmore.1, hmid.1]

theorem Late.bindE {act : ExceptT ε Host α} {f : α → ExceptT ε Host β}
    (h : Late deadline act.run) (hf : ∀ a, Late deadline (f a).run) :
    Late deadline (act >>= f).run := by
  refine Late.bind h fun r => ?_
  cases r with
  | ok a => exact hf a
  | error e => exact late_pure _

theorem Late.map {act : Host α} (f : α → β) (h : Late deadline act) :
    Late deadline (f <$> act) :=
  h.bind fun a => late_pure (f a)

/-- The clock does not go back. -/
theorem Late.bindNow {f : Instant → ExceptT ε Host β}
    (hf : ∀ t, deadline ≤ t → Late deadline (f t).run) :
    Late deadline (ExceptT.lift now >>= f).run := by
  intro clock past hlate t
  have ht : deadline ≤ t.1 := hlate.trans t.2.1
  refine ⟨trivial, (hf t.1 ht t.1 _ ht).mono fun trace r hmore => ⟨?_, hmore.2⟩⟩
  rw [hmore.1]
  exact received_concat rfl

theorem Quiet.takesNothing {act : Host α} (h : Quiet act) : TakesNothing act := by
  intro clock past
  have hquiet : Ensures (fun _ _ => True) (· = past) act fun trace a => Ran act a trace ∧
      ∃ front own, trace = front ++ own ∧ front = past ∧ ∀ made ∈ own, made.call.Quiet :=
    h.ensures fun _ _ _ => trivial
  refine (hquiet clock past rfl).mono fun trace r hpost => ?_
  obtain ⟨_, front, own, rfl, rfl, hown⟩ := hpost
  exact (Call.Quiet.at hown ⟨rfl, rfl⟩).2

theorem takesNothing_pure (a : α) : TakesNothing (pure a : Host α) := fun _ _ => rfl

theorem TakesNothing.bind {act : Host α} {f : α → Host β} (h : TakesNothing act)
    (hf : ∀ a, TakesNothing (f a)) : TakesNothing (act >>= f) := by
  refine fun clock past => (h clock past).bind fun trace (a, clock') hmid => ?_
  refine (hf a clock' trace).mono fun trace' r hmore => ?_
  rw [hmore, hmid]

theorem TakesNothing.bindE {act : ExceptT ε Host α} {f : α → ExceptT ε Host β}
    (h : TakesNothing act.run) (hf : ∀ a, TakesNothing (f a).run) :
    TakesNothing (act >>= f).run := by
  refine TakesNothing.bind h fun r => ?_
  cases r with
  | ok a => exact hf a
  | error e => exact takesNothing_pure _

theorem TakesNothing.bindLift {act : Host α} {f : α → ExceptT ε Host β}
    (h : TakesNothing act) (hf : ∀ a, TakesNothing (f a).run) :
    TakesNothing (ExceptT.lift act >>= f).run :=
  TakesNothing.bindE (TakesNothing.bind h fun _ => takesNothing_pure _) hf

theorem takesNothing_deadline {duration : Duration} {f : Instant → ExceptT ε Host β}
    (hf : ∀ t past, t + duration < instantEnd →
      ((f (t + duration)).run.run t).Keeps (fun _ _ => True) past fun trace _ =>
        received trace = received past) :
    TakesNothing (ExceptT.lift (deadlineAfter duration) >>= f).run := by
  refine fun clock past t => ⟨trivial, ?_⟩
  have hafter : ∀ found, found = checkedAdd t.1 duration →
      ((ExceptT.lift (expect "overflow when adding duration to instant" found) >>= f).run.run
        t.1).Keeps (fun _ _ => True) (past ++ [⟨.now clock, t⟩]) fun trace _ =>
          received trace = received past := by
    rintro found hfound
    rw [checkedAdd] at hfound
    split at hfound
    · rename_i hfits
      subst hfound
      refine (hf t.1 _ hfits).mono fun trace r hmore => ?_
      rw [hmore]
      exact received_concat rfl
    · subst hfound
      exact fun answer => answer.elim
  exact hafter _ rfl

end Late

theorem late_write (frame : Tree) :
    Late deadline (lifecycle (writeProtocolFrame (fun bytes => perform (.writeAll bytes))
      (perform .flush) s frame)).run := by
  refine Late.map (Except.mapError LifecycleFailure.probe) ?_
  unfold writeProtocolFrame
  refine Late.bindE (fun _ _ hlate => ⟨rfl, hlate⟩) fun encoded => ?_
  refine Late.bindE (Late.map _ (late_perform fun _ => rfl)) fun _ => ?_
  refine Late.bindE (Late.map _ (late_perform fun _ => rfl)) fun _ => ?_
  exact Late.map _ (late_perform fun _ => rfl)

theorem late_receive (phase : PluginPhase) :
    Late deadline (receiveProtocolLine deadline phase).run := by
  unfold receiveProtocolLine
  refine Late.bindNow fun t ht => ?_
  rw [if_pos (Nat.sub_eq_zero_of_le ht)]
  exact late_pure _

theorem late_interaction : Late deadline (interaction s policy admission deadline).run := by
  have hresult : ∀ {α : Type} (value : Except PluginProbeError α),
      Late deadline (lifecycle (result value)).run := fun _ _ _ hlate => ⟨rfl, hlate⟩
  unfold interaction
  refine Late.bindE (late_write _) fun _ => Late.bindE (late_receive _) fun helloLine => ?_
  refine Late.bindE (hresult _) fun hello => Late.bindE (hresult _) fun _ => ?_
  refine Late.bindE (hresult _) fun _ => Late.bindE (late_write _) fun _ => ?_
  refine Late.bindE (late_receive _) fun resultLine => Late.bindE (hresult _) fun answer => ?_
  exact Late.bindE (hresult _) fun _ => late_pure _

theorem quiet_conclude (group : UInt32) (plugin : PluginDescriptor)
    (answer : ResultFrame ProbeBuildSystemResult) :
    Quiet (conclude group policy deadline plugin answer).run := by
  unfold conclude
  refine Makes.bindLift (quiet_waitForExit deadline) fun waited => ?_
  cases waited with
  | error failure =>
      exact Makes.bindLift (quiet_cleanupFailure group failure policy) fun _ => makes_pure _
  | ok status =>
      refine Makes.bindLift (quiet_cleanupRemainingProcessGroup group _) fun _ => ?_
      refine Makes.bindLift (quiet_perform trivial) fun _ => ?_
      refine Makes.bindLift (quiet_perform trivial) fun diagnostics => ?_
      split
      · exact makes_pure _
      · cases answer <;> exact makes_pure _

/-- Without time for the operation the host gives up before it takes a line, and with more time
than an instant can tell it does not get that far. -/
theorem received_of_no_time (executable : Bytes)
    (htimeout : policy.operationTimeout = 0 ∨ instantEnd ≤ policy.operationTimeout)
    {clock clock' : Instant} {trace : Trace Call Answer}
    {outcome : Except PluginProbeError PluginProbe}
    (h : ((probeBuildSystemWithPolicies s executable policy admission).run.run clock).Ends trace
      (outcome, clock')) : received trace = [] := by
  have hnothing : TakesNothing
      (probeBuildSystemWithPolicies s executable policy admission).run := by
    unfold probeBuildSystemWithPolicies
    refine TakesNothing.bindE (fun _ _ _ => ⟨trivial, received_concat rfl⟩) fun child => ?_
    refine TakesNothing.bindE (fun _ _ => rfl) fun _ => TakesNothing.bindE (fun _ _ => rfl)
      fun _ => TakesNothing.bindE (fun _ _ => rfl) fun _ => ?_
    refine TakesNothing.bindLift
      (quiet_perform (c := .spawnStdoutReader _) trivial).takesNothing fun _ => ?_
    refine TakesNothing.bindLift
      (quiet_perform (c := .captureDiagnostics _) trivial).takesNothing fun _ => ?_
    refine takesNothing_deadline fun t past hfits => ?_
    -- the deadline is what the clock has just shown
    have hlate : t + policy.operationTimeout ≤ t := by
      rcases htimeout with hzero | hlong
      · rw [hzero, Nat.add_zero]
      · exact absurd (hlong.trans (Nat.le_add_left _ t)) (Nat.not_le.mpr hfits)
    refine Program.Keeps.bind (Late.map Except.ok late_interaction t past hlate)
      fun trace (r, clock) hmid => ?_
    rw [← hmid.1]
    rcases r with e | e | accepted
    · exact rfl
    · exact TakesNothing.bindLift (quiet_perform (c := .dropStdin) trivial).takesNothing
        (fun _ => TakesNothing.bindLift (quiet_cleanupFailure _ _ _).takesNothing
          fun _ => takesNothing_pure _) clock trace
    · exact TakesNothing.bindLift (quiet_perform (c := .dropStdin) trivial).takesNothing
        (fun _ => (quiet_conclude _ _ _).takesNothing) clock trace
  exact (hnothing clock []).ends h

/-! ## Exactly when -/

theorem not_cleanStream {bytes helloLine resultLine more : Bytes}
    (htimeout : 0 < policy.operationTimeout) (hfits : policy.operationTimeout < instantEnd)
    (haccepted : Accepted s policy admission helloLine resultLine)
    (hbytes : bytes = helloLine ++ resultLine ++ more) (hmore : more ≠ []) :
    ¬ CleanStream s policy admission bytes := by
  intro hclean
  obtain ⟨hello, hwelcome⟩ := haccepted.welcome
  obtain ⟨answer, hanswers⟩ := haccepted.answers
  obtain ⟨trace, hends, hreceived⟩ :=
    can_probe [] clockEnd_pos htimeout (by rwa [Nat.zero_add]) hwelcome hanswers
  have hdelivers : Delivers policy.maxFrameBytes (Reader.ofBytes bytes) (received trace) := by
    have hlines : [helloLine, resultLine] <+:
        (readLines policy.maxFrameBytes (Reader.ofBytes bytes)).1 := by
      refine @isPrefix_readLines _ _ _ _ more (Reader.contents_ofBytes bytes) ?_ ?_
      · intro line hline
        rcases List.mem_cons.mp hline with rfl | hline
        · exact haccepted.helloGood
        · obtain rfl := List.mem_singleton.mp hline
          exact haccepted.resultGood
      · rw [hbytes, List.flatten_cons, List.flatten_cons, List.flatten_nil, List.append_nil]
    rw [hreceived]
    exact (hlines.map Except.ok).trans (List.prefix_append _ _)
  obtain ⟨message, herror⟩ := (hclean _ trace _ (Reader.contents_ofBytes bytes)
    ⟨⟨[], 0, 0, hends⟩, hdelivers⟩).2 helloLine resultLine more hreceived haccepted hbytes hmore
  cases answer with
  | ok => cases herror
  | error => cases herror

/-- A probe means a clean stream exactly where nothing follows two lines that the host
accepts, and in the degenerate cases: no time at all, and more time than an instant can
tell. -/
theorem cleanStream_iff (s : SerdeJson) (policy : PluginProcessPolicy)
    (admission : PluginAdmissionPolicy) (bytes : Bytes) :
    CleanStream s policy admission bytes ↔
      (policy.operationTimeout = 0 ∨ instantEnd ≤ policy.operationTimeout) ∨
      ∀ helloLine resultLine more, Accepted s policy admission helloLine resultLine →
        bytes = helloLine ++ resultLine ++ more → more = [] := by
  constructor
  · intro hclean
    rcases Nat.eq_zero_or_pos policy.operationTimeout with hzero | hpos
    · exact Or.inl (Or.inl hzero)
    rcases Nat.lt_or_ge policy.operationTimeout instantEnd with hfits | hlong
    · refine Or.inr fun helloLine resultLine more haccepted hbytes => ?_
      by_contra hmore
      exact not_cleanStream hpos hfits haccepted hbytes hmore hclean
    · exact Or.inl (Or.inr hlong)
  · intro hcond reader trace outcome hcontents hrun
    obtain ⟨⟨executable, clock, clock', hends⟩, hdelivers⟩ := hrun
    rcases hcond with hnotime | hnone
    · have hreceived := received_of_no_time executable hnotime hends
      constructor
      · intro probe heq
        obtain ⟨_, _, _, _, _, _, _, htwo, _⟩ :=
          ((@leads_probe s policy admission executable).ends rfl hends).2 probe heq
        rw [hreceived] at htwo
        cases htwo
      · intro _ _ _ htwo
        rw [hreceived] at htwo
        cases htwo
    · constructor
      · intro probe heq
        obtain ⟨helloLine, hello, resultLine, protocol, id, frameType, value, htwo, hwelcome,
          hanswers, _⟩ := ((@leads_probe s policy admission executable).ends rfl hends).2
          probe heq
        rw [htwo] at hdelivers
        obtain ⟨hhello, hresult, more, hbytes⟩ := append_of_delivers hcontents hdelivers
        have haccepted : Accepted s policy admission helloLine resultLine :=
          ⟨hhello, hresult, ⟨hello, hwelcome⟩, ⟨_, hanswers⟩⟩
        obtain rfl := hnone helloLine resultLine more haccepted hbytes
        rw [List.append_nil] at hbytes
        exact ⟨helloLine, resultLine, hbytes, haccepted⟩
      · intro helloLine resultLine more _ haccepted hbytes hmore
        exact absurd (hnone helloLine resultLine more haccepted hbytes) hmore

/-- A plugin that goes on after its result is accepted. -/
theorem trailing_output_accepted :
    ¬ CleanStream compactJson .default .denyAll
      (sampleHelloText ++ [10] ++ (sampleAnswerText ++ [10]) ++ ascii "more") :=
  not_cleanStream (by decide) (by decide)
    ⟨sampleHello_line.1, sampleAnswer_line.1, ⟨_, sampleHello_line.2⟩, ⟨_, sampleAnswer_line.2⟩⟩
    rfl (by decide)

end Prep.Core.Plugin
