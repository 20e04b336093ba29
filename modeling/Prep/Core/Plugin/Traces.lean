/-
  Core/Plugin/Traces.lean --- what the calls of a probe show.

  The plugin is whatever answers the calls of the host.  What the host may do, and what
  its result means, is read off the calls it has made so far: the lines it has taken, the
  processes it has started, and the end of those.
-/
import Prep.Core.Plugin.Probe
import Prep.Machine.Trace

set_option autoImplicit false

namespace Prep.Core.Plugin

open Prep.Io (IoError)
open Prep.Machine
open Prep.Protocol
open Prep.Serde
open Prep.Text

/-! ## What a trace shows -/

/-- What a call took from the channel of the reader thread. -/
def receivedBy : Answered Call Answer → Option Received
  | ⟨.recvTimeout _, answer⟩ => some answer
  | _ => none

/-- The process a call started. -/
def spawnedBy : Answered Call Answer → Option UInt32
  | ⟨.spawn _, .ok child⟩ => some child.id
  | _ => none

def received (trace : Trace Call Answer) : List Received := trace.filterMap receivedBy

def spawned (trace : Trace Call Answer) : List UInt32 := trace.filterMap spawnedBy

/-- The processes that were started so far, and what was taken from the channel. -/
def At (ids : List UInt32) (lines : List Received) (trace : Trace Call Answer) : Prop :=
  spawned trace = ids ∧ received trace = lines

/-- The calls that start no process, take no line and write nothing. -/
def Call.Quiet : Call → Prop
  | .spawn _ => False
  | .writeAll _ => False
  | .recvTimeout _ => False
  | _ => True

/-- The process was seen to have exited. -/
def Observed (trace : Trace Call Answer) : Prop :=
  ∃ status, (⟨.tryWait, .ok (some status)⟩ : Answered Call Answer) ∈ trace

/-- The process was seen to have exited, or was passed to `terminate_and_reap`. -/
def Settled (processGroupId : UInt32) (policy : PluginProcessPolicy)
    (trace : Trace Call Answer) : Prop :=
  Observed trace ∨
    ∃ cleanup, Ran (terminateAndReap processGroupId policy.terminationGrace).run cleanup trace

/-- `wait_for_exit` returned the status of a success. -/
def Exited (trace : Trace Call Answer) : Prop :=
  ∃ deadline status, Ran (waitForExit deadline).run (.ok status) trace ∧ status.success = true

theorem spawned_append (front back : Trace Call Answer) :
    spawned (front ++ back) = spawned front ++ spawned back := List.filterMap_append

theorem received_append (front back : Trace Call Answer) :
    received (front ++ back) = received front ++ received back := List.filterMap_append

theorem Call.Quiet.at {ids : List UInt32} {lines : List Received} {front own : Trace Call Answer}
    (hquiet : ∀ made ∈ own, made.call.Quiet) (h : At ids lines front) :
    At ids lines (front ++ own) := by
  have hspawned : spawned own = [] := by
    refine List.filterMap_eq_nil_iff.mpr fun ⟨c, answer⟩ hmade => ?_
    have hc := hquiet _ hmade
    cases c <;> first | rfl | cases hc
  have hreceived : received own = [] := by
    refine List.filterMap_eq_nil_iff.mpr fun ⟨c, answer⟩ hmade => ?_
    have hc := hquiet _ hmade
    cases c <;> first | rfl | cases hc
  rw [At, spawned_append, received_append, hspawned, hreceived, List.append_nil, List.append_nil]
  exact h

theorem Observed.append {trace : Trace Call Answer} (h : Observed trace)
    (more : Trace Call Answer) : Observed (trace ++ more) := by
  obtain ⟨status, hmem⟩ := h
  exact ⟨status, List.mem_append_left _ hmem⟩

theorem Settled.append {id : UInt32} {policy : PluginProcessPolicy} {trace : Trace Call Answer}
    (h : Settled id policy trace) (more : Trace Call Answer) :
    Settled id policy (trace ++ more) := by
  rcases h with h | ⟨cleanup, h⟩
  · exact Or.inl (h.append more)
  · exact Or.inr ⟨cleanup, h.append more⟩

theorem Exited.append {trace : Trace Call Answer} (h : Exited trace)
    (more : Trace Call Answer) : Exited (trace ++ more) := by
  obtain ⟨deadline, status, h, hsuccess⟩ := h
  exact ⟨deadline, status, h.append more, hsuccess⟩

/-! ## Quiet parts of the host -/

/-- An action of the host that makes only quiet calls. -/
abbrev Quiet {α : Type} (act : Host α) : Prop := Makes Call.Quiet act

theorem quiet_perform {c : Call} (h : c.Quiet) : Quiet (perform c) := makes_call h

theorem quiet_now : Quiet now := fun _ _ _ _ => ⟨trivial, trivial⟩

theorem quiet_panics {α : Type} (message : String) : Quiet (panics message : Host α) :=
  fun _ _ _ answer => answer.elim

theorem quiet_deadlineAfter (duration : Duration) : Quiet (deadlineAfter duration) := by
  unfold deadlineAfter
  refine Makes.bind quiet_now fun start => ?_
  cases checkedAdd start duration with
  | some deadline => exact makes_pure deadline
  | none => exact quiet_panics _

/-- A program without a clock that makes only quiet calls. -/
abbrev QuietProgram {α : Type} (p : Program Call Answer α) : Prop :=
  ∀ past, p.Keeps (fun _ made => made.call.Quiet) past fun _ _ => True

theorem quiet_liftM {α : Type} {p : Program Call Answer α} (h : QuietProgram p) :
    Quiet (liftM p) :=
  ensures_liftM fun past _ => h past

theorem quiet_signalProcessGroup (id : UInt32) (signal : String) :
    QuietProgram (signalProcessGroup id signal) :=
  fun _ _ => ⟨trivial, trivial⟩

theorem quiet_waitLoop (deadline clock : Instant) : QuietProgram (waitLoop deadline clock) := by
  induction hleft : deadline - clock using Nat.strong_induction_on generalizing clock with
  | _ left ih =>
      intro past
      rw [waitLoop]
      refine fun answer => ⟨trivial, ?_⟩
      rcases answer with source | _ | status
      · trivial
      · refine fun t => ⟨trivial, ?_⟩
        simp only
        split
        · trivial
        · rename_i hremaining
          refine fun woken => ⟨trivial, ih _ ?_ _ rfl _⟩
          rw [← hleft]
          exact time_shrinks (by decide) t.2.1 (Nat.lt_of_sub_ne_zero hremaining) le_rfl woken.2
      · trivial

theorem quiet_graceLoop (deadline clock : Instant)
    {body : Program Call Answer (Except IoError Bool)} (hbody : QuietProgram body) :
    QuietProgram (graceLoop deadline body clock) := by
  induction hleft : deadline - clock using Nat.strong_induction_on generalizing clock with
  | _ left ih =>
      intro past
      rw [graceLoop]
      refine fun t => ⟨trivial, ?_⟩
      simp only
      split
      · rename_i hbefore
        refine (hbody _).bind fun trace round _ => ?_
        rcases round with e | _ | _
        · trivial
        · refine fun again => ⟨trivial, fun woken => ⟨trivial, ih _ ?_ _ rfl _⟩⟩
          rw [← hleft]
          exact time_shrinks (by decide) t.2.1 hbefore again.2.1 woken.2
        · trivial
      · trivial

theorem quiet_groupGone (id : UInt32) : QuietProgram (groupGone id) :=
  fun past => (quiet_signalProcessGroup id "-0" past).bind fun _ _ _ => trivial

theorem quiet_reapRound (id : UInt32) : QuietProgram (reapRound id) := by
  intro past answer
  refine ⟨trivial, ?_⟩
  cases answer with
  | error e => trivial
  | ok status => exact quiet_groupGone id _

theorem quiet_waitForExit (deadline : Instant) : Quiet (waitForExit deadline).run :=
  fun clock past _ => quiet_waitLoop deadline clock past

theorem quiet_killIfRunning : Quiet killIfRunning.run := by
  unfold killIfRunning
  refine Makes.bindE (quiet_perform trivial) fun status => ?_
  split
  · exact quiet_perform trivial
  · exact makes_pure _

theorem quiet_killGroup (id : UInt32) : Quiet (killGroup id) := by
  unfold killGroup
  refine Makes.bind (quiet_liftM (quiet_signalProcessGroup id _)) fun running => ?_
  split
  · exact Makes.bind (quiet_liftM (quiet_signalProcessGroup id _)) fun _ => makes_pure _
  · exact makes_pure _

theorem quiet_terminateGroup (id : UInt32) : Quiet (terminateGroup id).run := by
  unfold terminateGroup
  refine Makes.bindLift (quiet_liftM (quiet_signalProcessGroup id _)) fun termSent => ?_
  split
  · exact quiet_killIfRunning
  · exact makes_pure _

theorem quiet_terminateAndReap (id : UInt32) (grace : Duration) :
    Quiet (terminateAndReap id grace).run := by
  have hgrace : ∀ deadline, Quiet (graceLoop deadline (reapRound id)) :=
    fun deadline clock past _ => quiet_graceLoop deadline clock (quiet_reapRound id) past
  unfold terminateAndReap
  refine Makes.bindE (quiet_terminateGroup id) fun _ => ?_
  refine Makes.bindLift (quiet_deadlineAfter grace) fun deadline => ?_
  refine Makes.bindE (hgrace _) fun _ => Makes.bindLift (quiet_killGroup id) fun _ => ?_
  refine Makes.bindE quiet_killIfRunning fun _ => Makes.bindE (quiet_perform trivial) fun _ => ?_
  exact makes_pure _

theorem quiet_cleanupRemainingProcessGroup (id : UInt32) (grace : Duration) :
    Quiet (cleanupRemainingProcessGroup id grace) := by
  have hgrace : ∀ deadline, Quiet (graceLoop deadline (groupGone id)) :=
    fun deadline clock past _ => quiet_graceLoop deadline clock (quiet_groupGone id) past
  unfold cleanupRemainingProcessGroup
  refine Makes.bind (quiet_liftM (quiet_signalProcessGroup id _)) fun running => ?_
  split
  · refine Makes.bind (quiet_liftM (quiet_signalProcessGroup id _)) fun _ => ?_
    refine Makes.bind (quiet_deadlineAfter grace) fun deadline => ?_
    refine Makes.bind (hgrace _) fun left => ?_
    split
    · exact Makes.bind (quiet_liftM (quiet_signalProcessGroup id _)) fun _ => makes_pure _
    · exact makes_pure _
  · exact makes_pure _

theorem quiet_cleanupFailure (id : UInt32) (failure : LifecycleFailure)
    (policy : PluginProcessPolicy) : Quiet (cleanupFailure id failure policy) := by
  unfold cleanupFailure
  refine Makes.bind (quiet_terminateAndReap id _) fun cleanup => ?_
  refine Makes.bind (quiet_perform trivial) fun _ => Makes.bind (quiet_perform trivial) fun _ => ?_
  exact makes_pure _

/-! ## The request -/

theorem fits_probeRequest : probeRequest.Fits json jsonDepth := by
  have hstring : ∀ value : Str, (Json.str.write value).Fits json (jsonDepth - 1) :=
    fun value => (Json.str.fits value).mono (by decide)
  refine ⟨by decide, fun entry hentry => ⟨?_, ?_⟩⟩
  · have hkeys : ∀ key ∈ [ascii "protocol", ascii "id", ascii "type", ascii "context"],
        json.string key := fun key hkey => Json.string_of_ascii key
      ((by decide : ∀ key ∈ [ascii "protocol", ascii "id", ascii "type", ascii "context"],
        key.all isAscii = true) key hkey)
    exact hkeys _ (List.mem_map_of_mem (f := Prod.fst) hentry)
  · rcases List.mem_cons.mp hentry with rfl | hentry
    · exact hstring protocolV1
    rcases List.mem_cons.mp hentry with rfl | hentry
    · exact hstring probeId
    rcases List.mem_cons.mp hentry with rfl | hentry
    · exact (PluginOperation.codec.fits .probeBuildSystem).mono (by decide)
    · obtain rfl := List.mem_singleton.mp hentry
      exact ⟨List.nodup_nil, fun entry hentry => absurd hentry List.not_mem_nil⟩

variable {s : SerdeJson} {policy : PluginProcessPolicy} {admission : PluginAdmissionPolicy}

theorem request_text {text : Bytes} (h : encodeFrame s probeRequest = .ok text) :
    s.ofText text = .ok probeRequest ∧ Compact.Clean text := by
  obtain ⟨text', hwrite, hback, _, hclean⟩ := s.reads_back probeRequest fits_probeRequest
  obtain rfl : text = text' := Except.ok.inj (h.symm.trans hwrite)
  exact ⟨hback, hclean⟩

/-- The two frames of the host have different texts. -/
theorem hello_text_ne {text : Bytes} (hhello : encodeFrame s helloFrame = .ok text) :
    encodeFrame s probeRequest ≠ .ok text := by
  intro hrequest
  obtain ⟨text', hwrite, hback, _⟩ := s.reads_back helloFrame
    ((HelloFrame.codec.fits _).mono (by decide))
  obtain rfl : text = text' := Except.ok.inj (hhello.symm.trans hwrite)
  have hsame : helloFrame = probeRequest :=
    Except.ok.inj (hback.symm.trans (request_text hrequest).1)
  have hentries := Tree.map.inj hsame
  have hid : ascii "hello" = ascii "probe-build-system" :=
    Tree.string.inj (congrArg Prod.snd (List.cons.inj (List.cons.inj hentries).2).1)
  exact absurd hid (by decide)

theorem newline_ne : encodeFrame s probeRequest ≠ .ok [10] := fun h =>
  absurd ((request_text h).2.2 10 List.mem_cons_self) (by decide)

/-! ## What the host accepts -/

/-- The first line of the plugin lets the host go on: it is a handshake, and the policy
allows what the plugin declares. -/
structure Welcome (s : SerdeJson) (policy : PluginProcessPolicy)
    (admission : PluginAdmissionPolicy) (line : Bytes) (hello : HelloResultFrame) : Prop where
  decodes : decodeFrame s HelloResultFrame.codec.read line policy.maxFrameBytes = .ok hello
  handshake : validateHandshake hello = .ok ()
  allowed : ∀ capability ∈ hello.plugin.capabilities, admission.allows capability = true

/-- The second line of the plugin is a result the host takes. -/
structure Answers (s : SerdeJson) (policy : PluginProcessPolicy) (line : Bytes)
    (answer : ResultFrame ProbeBuildSystemResult) : Prop where
  decodes : decodeFrame s probeResultCodec.read line policy.maxFrameBytes = .ok answer
  valid : validateResult answer = .ok ()

/-- The host has taken one line, and it lets the host go on. -/
def Admitted (s : SerdeJson) (policy : PluginProcessPolicy) (admission : PluginAdmissionPolicy)
    (trace : Trace Call Answer) : Prop :=
  ∃ line hello, received trace = [.line (.ok line)] ∧ Welcome s policy admission line hello

/-- The request is written only after the first line was accepted. -/
def Guard (s : SerdeJson) (policy : PluginProcessPolicy) (admission : PluginAdmissionPolicy)
    (past : Trace Call Answer) : Answered Call Answer → Prop
  | ⟨.writeAll text, _⟩ => encodeFrame s probeRequest = .ok text → Admitted s policy admission past
  | _ => True

theorem guard_of_quiet {past : Trace Call Answer} {made : Answered Call Answer}
    (h : made.call.Quiet) : Guard s policy admission past made := by
  obtain ⟨c, answer⟩ := made
  cases c <;> trivial

theorem decodeLine_eq_ok {α : Type} {codec : Codec json α} {line : Bytes} {value : α}
    (h : decodeLine s codec line policy = .ok value) :
    decodeFrame s codec.read line policy.maxFrameBytes = .ok value := by
  rw [decodeLine] at h
  cases hdecode : decodeFrame s codec.read line policy.maxFrameBytes with
  | error e =>
      rw [hdecode] at h
      cases h
  | ok found =>
      rw [hdecode] at h
      cases h
      rfl

/-! ## One rule for each part -/

variable {ids : List UInt32} {lines : List Received}

/-- Under the guard, an action of the host leads from one assertion to another. -/
abbrev Leads (s : SerdeJson) (policy : PluginProcessPolicy) (admission : PluginAdmissionPolicy)
    {α : Type} (pre : Trace Call Answer → Prop) (act : Host α)
    (post : Trace Call Answer → α → Prop) : Prop :=
  Ensures (Guard s policy admission) pre act post

theorem Quiet.leads {α : Type} {act : Host α} (h : Quiet act) :
    Leads s policy admission (At ids lines) act fun trace a =>
      At ids lines trace ∧ Ran act a trace := by
  refine (h.ensures fun _ _ => guard_of_quiet).mono (fun _ => id) fun trace a hpost => ?_
  obtain ⟨hran, front, own, rfl, hat, hown⟩ := hpost
  exact ⟨Call.Quiet.at hown hat, hran⟩

/-- Quiet actions do not undo what a trace has shown. -/
theorem Quiet.stays {α : Type} {act : Host α} (h : Quiet act) {P : Trace Call Answer → Prop}
    (hP : ∀ trace more, P trace → P (trace ++ more)) :
    Leads s policy admission (fun trace => At ids lines trace ∧ P trace) act fun trace _ =>
      At ids lines trace ∧ P trace := by
  refine (h.ensures fun _ _ => guard_of_quiet).mono (fun _ => id) fun trace a hpost => ?_
  obtain ⟨_, front, own, rfl, hat, hown⟩ := hpost
  exact ⟨Call.Quiet.at hown hat.1, hP _ _ hat.2⟩

theorem leads_result {α : Type} {pre : Trace Call Answer → Prop} (value : Except PluginProbeError α) :
    Leads s policy admission pre (lifecycle (result value)).run fun trace r =>
      pre trace ∧ r = value.mapError .probe :=
  fun _ _ hpre => ⟨hpre, rfl⟩

theorem at_concat {trace : Trace Call Answer} {made : Answered Call Answer}
    (h : At ids lines trace) (hspawned : spawnedBy made = none)
    (hreceived : receivedBy made = none) : At ids lines (trace ++ [made]) := by
  rw [At, spawned_append, received_append, spawned, spawned, received, received,
    List.filterMap_cons_none hspawned, List.filterMap_cons_none hreceived, List.filterMap_nil,
    List.filterMap_nil, List.append_nil, List.append_nil]
  exact h

/-- A frame is written where each of its texts may be. -/
theorem leads_write {frame : Tree}
    (hframe : ∀ past text, At ids lines past → encodeFrame s frame = .ok text →
      encodeFrame s probeRequest = .ok text → Admitted s policy admission past) :
    Leads s policy admission (At ids lines)
      (lifecycle (writeProtocolFrame (fun bytes => perform (.writeAll bytes)) (perform .flush) s
        frame)).run
      fun trace _ => At ids lines trace := by
  refine Ensures.map (f := Except.mapError LifecycleFailure.probe) ?_
  unfold writeProtocolFrame
  have hencode : Leads s policy admission (At ids lines)
      (ExceptT.run (result ((encodeFrame s frame).mapError PluginProbeError.protocol)))
      fun trace r => At ids lines trace ∧ r = (encodeFrame s frame).mapError .protocol :=
    fun _ _ hpre => ⟨hpre, rfl⟩
  refine Ensures.bindE hencode (fun encoded => ?_) fun _ _ h => h.1
  have hcall : ∀ {pre : Trace Call Answer → Prop} (bytes : Bytes),
      (∀ past, pre past → At ids lines past ∧ (encodeFrame s probeRequest = .ok bytes →
        Admitted s policy admission past)) →
      Leads s policy admission pre (orWrite (perform (.writeAll bytes))).run
        fun trace _ => At ids lines trace := by
    intro pre bytes hpre
    refine Ensures.map (ensures_call (fun past _ hpast => (hpre past hpast).2) ?_)
    exact fun past _ hpast => at_concat (hpre past hpast).1 rfl rfl
  refine Ensures.bindE (hcall encoded fun past hpast => ⟨hpast.1, ?_⟩)
    (fun _ => Ensures.bindE (hcall [10] fun past hpast => ⟨hpast, fun h => absurd h newline_ne⟩)
      (fun _ => ?_) fun _ _ => id) fun _ _ => id
  · refine hframe past encoded hpast.1 ?_
    have hencoded := hpast.2
    revert hencoded
    cases encodeFrame s frame with
    | error e => exact fun h => (by cases h)
    | ok text => exact fun h => by rw [Except.ok.inj h]
  · refine Ensures.map (ensures_call (fun _ _ _ => trivial) ?_)
    exact fun past _ hpast => at_concat hpast rfl rfl

/-- A line is taken, or the host does not go on. -/
theorem leads_receive {deadline : Instant} {phase : PluginPhase} :
    Leads s policy admission (At ids lines) (receiveProtocolLine deadline phase).run fun trace r =>
      match r with
      | .ok line => At ids (lines ++ [.line (.ok line)]) trace
      | .error _ => spawned trace = ids := by
  unfold receiveProtocolLine
  refine Ensures.bindLift (Quiet.leads quiet_now) fun t => ?_
  split
  · exact fun _ _ hpre => hpre.1.1
  · have htake : Leads s policy admission (At ids lines) (perform (.recvTimeout (deadline - t)))
        fun trace answer => At ids (lines ++ [answer]) trace := by
      refine ensures_call (fun _ _ _ => trivial) fun past answer hpast => ?_
      rw [At, spawned_append, received_append, hpast.1, hpast.2]
      exact ⟨List.append_nil ids, rfl⟩
    refine Ensures.bindLift (htake.from _ fun _ hpre => hpre.1) fun answer clock past hpast => ?_
    rcases answer with (e | line) | _ | _
    · exact hpast.1
    · exact hpast
    · exact hpast.1
    · exact hpast.1

theorem leads_of_spawned {α : Type} {act : Host α} {post : Trace Call Answer → α → Prop}
    (h : ∀ lines, Leads s policy admission (At ids lines) act post) :
    Leads s policy admission (fun trace => spawned trace = ids) act post :=
  fun clock past hpast => h (received past) clock past ⟨hpast, rfl⟩

/-- What the interaction has done, and with which lines. -/
def Interacted (s : SerdeJson) (policy : PluginProcessPolicy) (admission : PluginAdmissionPolicy)
    (ids : List UInt32) (trace : Trace Call Answer) :
    Except LifecycleFailure (PluginDescriptor × ResultFrame ProbeBuildSystemResult) → Prop
  | .error _ => spawned trace = ids
  | .ok (plugin, answer) => ∃ helloLine hello resultLine,
      At ids [.line (.ok helloLine), .line (.ok resultLine)] trace ∧
        Welcome s policy admission helloLine hello ∧ Answers s policy resultLine answer ∧
        plugin = hello.plugin

theorem eq_ok_of_mapError {ε ε' α : Type} {f : ε → ε'} {value : Except ε α} {a : α}
    (h : Except.ok a = value.mapError f) : value = .ok a := by
  cases value with
  | error e => cases h
  | ok found =>
      cases h
      rfl

theorem leads_interaction {deadline : Instant} :
    Leads s policy admission (At ids []) (interaction s policy admission deadline).run
      (Interacted s policy admission ids) := by
  unfold interaction
  refine Ensures.bindE (leads_write fun _ _ _ hhello h => absurd h (hello_text_ne hhello))
    (fun _ => ?_) fun _ _ h => h.1
  refine Ensures.bindE leads_receive (fun helloLine => ?_) fun _ _ => id
  refine Ensures.bindE (leads_result _) (fun hello => ?_) fun _ _ h => h.1.1
  refine Ensures.given fun hdecode => ?_
  refine Ensures.bindE (leads_result _) (fun _ => Ensures.given fun hhandshake => ?_)
    fun _ _ h => h.1.1
  refine Ensures.bindE (leads_result _) (fun _ => Ensures.given fun hadmit => ?_)
    fun _ _ h => h.1.1
  have hwelcome : Welcome s policy admission helloLine hello :=
    { decodes := decodeLine_eq_ok (eq_ok_of_mapError hdecode)
      handshake := eq_ok_of_mapError hhandshake
      allowed := admitCapabilities_eq_ok_iff.mp (eq_ok_of_mapError hadmit) }
  refine Ensures.bindE (leads_write fun past _ hat _ _ => ⟨helloLine, hello, hat.2, hwelcome⟩)
    (fun _ => ?_) fun _ _ h => h.1
  refine Ensures.bindE leads_receive (fun resultLine => ?_) fun _ _ => id
  refine Ensures.bindE (leads_result _) (fun answer => Ensures.given fun hdecode => ?_)
    fun _ _ h => h.1.1
  refine Ensures.bindE (leads_result _) (fun _ => Ensures.given fun hvalid => ?_)
    fun _ _ h => h.1.1
  have hanswers : Answers s policy resultLine answer :=
    { decodes := decodeLine_eq_ok (eq_ok_of_mapError hdecode)
      valid := eq_ok_of_mapError hvalid }
  exact ensures_pure fun trace hat => ⟨helloLine, hello, resultLine, hat, hwelcome, hanswers, rfl⟩

/-! ## The end of the process -/

theorem observed_of_waitLoop {deadline clock : Instant} {trace : Trace Call Answer}
    {status : ExitStatus} {clock' : Instant}
    (h : (waitLoop deadline clock).Ends trace (.ok status, clock')) : Observed trace := by
  have hkeeps : ∀ clock past, (waitLoop deadline clock).Keeps (fun _ _ => True) past
      fun trace r => ∀ status, r.1 = .ok status → Observed trace := by
    intro clock
    induction hleft : deadline - clock using Nat.strong_induction_on generalizing clock with
    | _ left ih =>
        intro past
        rw [waitLoop]
        refine fun answer => ⟨trivial, ?_⟩
        rcases answer with source | _ | status
        · exact fun _ h => (by cases h)
        · refine fun t => ⟨trivial, ?_⟩
          simp only
          split
          · exact fun _ h => (by cases h)
          · rename_i hremaining
            refine fun woken => ⟨trivial, ih _ ?_ _ rfl _⟩
            rw [← hleft]
            exact time_shrinks (by decide) t.2.1 (Nat.lt_of_sub_ne_zero hremaining) le_rfl woken.2
        · exact fun _ _ => ⟨status, List.mem_append_right _ List.mem_cons_self⟩
  exact (hkeeps clock []).ends h status rfl

theorem leads_cleanupFailure {group : UInt32} {failure : LifecycleFailure} :
    Leads s policy admission (At ids lines) (cleanupFailure group failure policy) fun trace _ =>
      At ids lines trace ∧ Settled group policy trace := by
  unfold cleanupFailure
  refine Ensures.bind (Quiet.leads (quiet_terminateAndReap group _)) fun cleanup => ?_
  refine Ensures.from (fun trace => At ids lines trace ∧ Settled group policy trace) ?_
    fun trace ⟨hat, hran⟩ => ⟨hat, Or.inr ⟨cleanup, hran⟩⟩
  refine Ensures.bind (Quiet.stays (quiet_perform (c := .finishDiagnostics _) trivial)
    fun _ more h => h.append more) fun _ => ?_
  refine Ensures.bind (Quiet.stays (quiet_perform (c := .snapshotDiagnostics) trivial)
    fun _ more h => h.append more) fun _ => ?_
  exact ensures_pure fun _ => id

/-- What the end of the probe has done, and what its success says of the result. -/
def Concluded (ids : List UInt32) (lines : List Received) (group : UInt32)
    (policy : PluginProcessPolicy) (plugin : PluginDescriptor)
    (answer : ResultFrame ProbeBuildSystemResult) (trace : Trace Call Answer)
    (outcome : Except PluginProbeError PluginProbe) : Prop :=
  (At ids lines trace ∧ Settled group policy trace) ∧ ∀ probe, outcome = .ok probe →
    Exited trace ∧ ∃ protocol id frameType value, answer = .ok protocol id frameType value ∧
      probe.name = plugin.name ∧ probe.version = plugin.version ∧
      probe.supported = value.supported

theorem leads_fail {α : Type} {error : PluginProbeError} {pre : Trace Call Answer → Prop}
    {post : Trace Call Answer → Except PluginProbeError α → Prop}
    (h : ∀ trace, pre trace → post trace (.error error)) :
    Leads s policy admission pre
      (ExceptT.run (result (.error error) : ExceptT PluginProbeError Host α)) post :=
  fun _ past hpre => h past hpre

theorem leads_conclude {group : UInt32} {deadline : Instant} {plugin : PluginDescriptor}
    {answer : ResultFrame ProbeBuildSystemResult} :
    Leads s policy admission (At ids lines) (conclude group policy deadline plugin answer).run
      (Concluded ids lines group policy plugin answer) := by
  have hfail : ∀ (error : PluginProbeError) trace,
      (At ids lines trace ∧ Settled group policy trace) →
      Concluded ids lines group policy plugin answer trace (.error error) :=
    fun _ _ h => ⟨h, fun _ h => (by cases h)⟩
  unfold conclude
  refine Ensures.bindLift (Quiet.leads (quiet_waitForExit deadline)) fun waited => ?_
  cases waited with
  | error failure =>
      refine Ensures.bindLift (leads_cleanupFailure.from _ fun _ h => h.1)
        fun error => ?_
      exact leads_fail (hfail error)
  | ok status =>
      refine Ensures.from (fun trace => At ids lines trace ∧
          (Settled group policy trace ∧ Ran (waitForExit deadline).run (.ok status) trace)) ?_
        fun trace ⟨hat, hran⟩ => ⟨hat, Or.inl ?_, hran⟩
      · have hstays : ∀ {α : Type} {act : Host α}, Quiet act →
            Leads s policy admission (fun trace => At ids lines trace ∧
              (Settled group policy trace ∧ Ran (waitForExit deadline).run (.ok status) trace)) act
              fun trace _ => At ids lines trace ∧
              (Settled group policy trace ∧ Ran (waitForExit deadline).run (.ok status) trace) :=
          fun h => Quiet.stays h fun _ more h => ⟨h.1.append more, h.2.append more⟩
        refine Ensures.bindLift (hstays (quiet_cleanupRemainingProcessGroup group _)) fun _ => ?_
        refine Ensures.bindLift (hstays (quiet_perform trivial)) fun _ => ?_
        refine Ensures.bindLift (hstays (quiet_perform trivial)) fun diagnostics => ?_
        split
        · exact leads_fail fun trace h => hfail _ trace ⟨h.1, h.2.1⟩
        · rename_i hsuccess
          cases answer with
          | error protocol id frameType error =>
              exact leads_fail fun trace h => hfail _ trace ⟨h.1, h.2.1⟩
          | ok protocol id frameType value =>
              refine ensures_pure fun trace h => ⟨⟨h.1, h.2.1⟩, fun probe hprobe => ?_⟩
              cases hprobe
              exact ⟨⟨deadline, status, h.2.2, Bool.eq_true_of_not_eq_false hsuccess⟩, protocol, id,
                frameType, value, rfl, rfl, rfl, rfl⟩
      · obtain ⟨front, own, back, clock, clock', rfl, hown⟩ := hran
        obtain ⟨seen, hmem⟩ := observed_of_waitLoop hown
        exact ⟨seen, List.mem_append_left _ (List.mem_append_right _ hmem)⟩

/-! ## The whole probe -/

/-- What a probe has done when it returns. -/
def Probed (s : SerdeJson) (policy : PluginProcessPolicy) (admission : PluginAdmissionPolicy)
    (trace : Trace Call Answer) (outcome : Except PluginProbeError PluginProbe) : Prop :=
  (∀ id ∈ spawned trace, Settled id policy trace) ∧ ∀ probe, outcome = .ok probe →
    ∃ helloLine hello resultLine protocol id frameType value,
      received trace = [.line (.ok helloLine), .line (.ok resultLine)] ∧
      Welcome s policy admission helloLine hello ∧
      Answers s policy resultLine (.ok protocol id frameType value) ∧ Exited trace ∧
      probe.name = hello.plugin.name ∧ probe.version = hello.plugin.version ∧
      probe.supported = value.supported

theorem probed_error {trace : Trace Call Answer} {error : PluginProbeError}
    (h : ∀ id ∈ spawned trace, Settled id policy trace) :
    Probed s policy admission trace (.error error) :=
  ⟨h, fun _ hfalse => (by cases hfalse)⟩

theorem probed_of_concluded {trace : Trace Call Answer} {group : UInt32}
    {helloLine resultLine : Bytes} {hello : HelloResultFrame}
    {answer : ResultFrame ProbeBuildSystemResult}
    {outcome : Except PluginProbeError PluginProbe}
    (hwelcome : Welcome s policy admission helloLine hello)
    (hanswers : Answers s policy resultLine answer)
    (h : Concluded [group] [.line (.ok helloLine), .line (.ok resultLine)] group policy
      hello.plugin answer trace outcome) : Probed s policy admission trace outcome := by
  obtain ⟨⟨hat, hsettled⟩, hprobe⟩ := h
  constructor
  · intro id hid
    rw [hat.1, List.mem_singleton] at hid
    rw [hid]
    exact hsettled
  · intro probe heq
    obtain ⟨hexited, protocol, id, frameType, value, rfl, hname, hversion, hsupported⟩ :=
      hprobe probe heq
    exact ⟨helloLine, hello, resultLine, protocol, id, frameType, value, hat.2, hwelcome, hanswers,
      hexited, hname, hversion, hsupported⟩

/-- The handle of a pipe is there. -/
theorem leads_requireHandle {α : Type} {pre : Trace Call Answer → Prop} {message : String}
    {f : Unit → ExceptT PluginProbeError Host α}
    {post : Trace Call Answer → Except PluginProbeError α → Prop}
    (h : Leads s policy admission pre (f ()).run post) :
    Leads s policy admission pre (requireHandle .piped message >>= f).run post := by
  have hpiped : Leads s policy admission pre (requireHandle .piped message).run fun trace r =>
      pre trace ∧ r = .ok () := fun _ _ hpre => ⟨hpre, rfl⟩
  exact Ensures.bindE hpiped (fun _ => Ensures.given fun _ => h) fun _ _ hfalse =>
    (by cases hfalse.2)

theorem leads_probe (executable : Bytes) :
    Leads s policy admission (fun trace => trace = [])
      (probeBuildSystemWithPolicies s executable policy admission).run
      (Probed s policy admission) := by
  unfold probeBuildSystemWithPolicies
  have hspawn : Leads s policy admission (· = [])
      (orFail PluginProbeError.spawn (perform (.spawn (pluginCommand executable)))).run
      fun trace r => match r with
      | .ok child => At [child.id] [] trace
      | .error _ => spawned trace = [] := by
    refine Ensures.map (ensures_call (fun _ _ _ => trivial) fun past answer hpast => ?_)
    subst hpast
    cases answer with
    | error e => rfl
    | ok child => exact ⟨rfl, rfl⟩
  refine Ensures.bindE hspawn (fun child => ?_) fun trace error hnone => ?_
  · have hquiet : ∀ {α : Type} {act : Host α}, Quiet act →
        Leads s policy admission (At [child.id] []) act fun trace _ => At [child.id] [] trace :=
      fun h => h.leads.mono (fun _ => id) fun _ _ hat => hat.1
    refine leads_requireHandle (leads_requireHandle (leads_requireHandle ?_))
    refine Ensures.bindLift (hquiet (quiet_perform trivial)) fun _ => ?_
    refine Ensures.bindLift (hquiet (quiet_perform trivial)) fun _ => ?_
    refine Ensures.bindLift (hquiet (quiet_deadlineAfter _)) fun deadline => ?_
    refine Ensures.bindLift leads_interaction fun interaction => ?_
    have hdrop : ∀ lines, Leads s policy admission (At [child.id] lines) (perform .dropStdin)
        fun trace _ => At [child.id] lines trace := fun lines =>
      (quiet_perform (c := .dropStdin) trivial).leads.mono (fun _ => id) fun _ _ hat => hat.1
    cases interaction with
    | error failure =>
        refine leads_of_spawned fun lines => Ensures.bindLift (hdrop lines) fun _ => ?_
        refine Ensures.bindLift leads_cleanupFailure fun error => leads_fail fun trace hpast => ?_
        refine probed_error fun id hid => ?_
        rw [hpast.1.1, List.mem_singleton] at hid
        rw [hid]
        exact hpast.2
    | ok accepted =>
        obtain ⟨plugin, answer⟩ := accepted
        rintro clock past ⟨helloLine, hello, resultLine, hat, hwelcome, hanswers, rfl⟩
        refine Ensures.bindLift (hdrop _) (fun _ => ?_) clock past hat
        exact leads_conclude.mono (fun _ => id) fun _ _ => probed_of_concluded hwelcome hanswers
  · refine probed_error fun id hid => ?_
    rw [hnone] at hid
    exact absurd hid List.not_mem_nil

end Prep.Core.Plugin
