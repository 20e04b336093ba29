/-
  Core/Plugin/Success.lean --- two lines that the host accepts are enough for a probe.

  The environment is an obliging one: it answers at once, nothing fails, and the clock stands.
  The run shows that such lines are accepted, under any policy that leaves time and whose time
  has an end, and no more than that.
-/
import Prep.Core.Plugin.Framing
import Prep.Core.Plugin.Panics

set_option autoImplicit false

namespace Prep.Core.Plugin

open Prep.Io (IoError)
open Prep.Machine
open Prep.Protocol
open Prep.Serde
open Prep.Text

variable {s : SerdeJson} {policy : PluginProcessPolicy} {admission : PluginAdmissionPolicy}

/-- There is a run that ends with `a`, takes `lines` from the channel, and needs no time. -/
def Can {α : Type} (lines : List Received) (act : Host α) (clock : Instant) (a : α) : Prop :=
  ∃ trace, (act.run clock).Ends trace (a, clock) ∧ received trace = lines

section Can

variable {ε ε' α β : Type} {clock : Instant} {lines more : List Received}

theorem can_pure (a : α) : Can [] (pure a) clock a := ⟨[], .ret _, rfl⟩

theorem can_call (c : Call) (answer : Answer c) (h : receivedBy ⟨c, answer⟩ = none) :
    Can [] (perform c) clock answer := by
  refine ⟨[⟨c, answer⟩], .call c _ answer (.ret _), ?_⟩
  rw [received, List.filterMap_cons_none h, List.filterMap_nil]

theorem can_receiveTimeout {remaining : Duration} (answer : Received) :
    Can [answer] (perform (.recvTimeout remaining)) clock answer := by
  refine ⟨[⟨.recvTimeout remaining, answer⟩], ?_, rfl⟩
  refine Program.Ends.call (Call.recvTimeout remaining) _ _ ?_
  exact .ret _

theorem can_now (hclock : clock < clockEnd) : Can [] now clock clock := by
  refine ⟨[⟨.now clock, ⟨clock, le_rfl, hclock⟩⟩], ?_, rfl⟩
  refine Program.Ends.call (Call.now clock) _ _ ?_
  exact .ret _

theorem can_liftM {p : Program Call Answer α} {trace : Trace Call Answer} {a : α}
    (h : p.Ends trace a) (hreceived : received trace = []) : Can [] (liftM p) clock a := by
  refine ⟨trace, ?_, hreceived⟩
  have hbind := h.bind (f := fun a => Program.ret (a, clock)) (.ret (a, clock))
  rwa [List.append_nil] at hbind

theorem Can.bind {act : Host α} {f : α → Host β} {a : α} {b : β} (h : Can lines act clock a)
    (hf : Can more (f a) clock b) : Can (lines ++ more) (act >>= f) clock b := by
  obtain ⟨front, hfront, rfl⟩ := h
  obtain ⟨back, hback, rfl⟩ := hf
  exact ⟨front ++ back, hfront.bind hback, received_append front back⟩

theorem can_deadlineAfter {duration : Duration} (hclock : clock < clockEnd)
    (hfits : clock + duration < instantEnd) :
    Can [] (deadlineAfter duration) clock (clock + duration) := by
  refine Can.bind (can_now hclock) ?_
  rw [checkedAdd_eq_some hfits]
  exact can_pure _

theorem Can.map {act : Host α} {f : α → β} {a : α} (h : Can lines act clock a) :
    Can lines (f <$> act) clock (f a) := by
  obtain ⟨trace, hends, hreceived⟩ := h
  exact ⟨trace, ends_map hends, hreceived⟩

/-- A step that takes no line, and what comes after it. -/
theorem Can.next {act : ExceptT ε Host α} {f : α → ExceptT ε Host β} {a : α} {b : Except ε β}
    (h : Can [] act.run clock (.ok a)) (hf : Can lines (f a).run clock b) :
    Can lines (act >>= f).run clock b :=
  Can.bind h hf

/-- A step that takes a line, and what comes after it. -/
theorem Can.take {act : ExceptT ε Host α} {f : α → ExceptT ε Host β} {a : α} {b : Except ε β}
    {line : Received} (h : Can [line] act.run clock (.ok a)) (hf : Can lines (f a).run clock b) :
    Can (line :: lines) (act >>= f).run clock b :=
  Can.bind h hf

theorem Can.nextLift {act : Host α} {f : α → ExceptT ε Host β} {a : α} {b : Except ε β}
    (h : Can [] act clock a) (hf : Can lines (f a).run clock b) :
    Can lines (ExceptT.lift act >>= f).run clock b :=
  Can.next (Can.map h) hf

theorem Can.lastLift {act : Host α} {f : α → ExceptT ε Host β} {a : α} {b : Except ε β}
    (h : Can lines act clock a) (hf : Can [] (f a).run clock b) :
    Can lines (ExceptT.lift act >>= f).run clock b := by
  have hbind := Can.bind (Can.map (f := @Except.ok ε α) h) (f := ExceptT.bindCont f) hf
  rwa [List.append_nil] at hbind

theorem can_result (a : α) :
    Can [] (lifecycle (result (.ok a))).run clock (.ok a) := ⟨[], .ret _, rfl⟩

end Can

variable {clock : Instant}

theorem can_write {frame : Tree} {text : Bytes} (h : encodeFrame s frame = .ok text) :
    Can [] (lifecycle (writeProtocolFrame (fun bytes => perform (.writeAll bytes))
      (perform .flush) s frame)).run clock (.ok ()) := by
  have horWrite : ∀ act : Host (Except IoError Unit), Can [] act clock (.ok ()) →
      Can [] (orWrite act).run clock (.ok ()) :=
    fun _ hact => Can.map (f := Except.mapError (PluginProbeError.io "write")) hact
  have hcall : ∀ bytes, Can [] (perform (.writeAll bytes)) clock (.ok ()) :=
    fun bytes => can_call (.writeAll bytes) (.ok ()) rfl
  refine Can.map (f := Except.mapError LifecycleFailure.probe) (a := .ok ()) ?_
  unfold writeProtocolFrame
  refine Can.next (a := text) ⟨[], ?_, rfl⟩ ?_
  · rw [h]
    exact .ret _
  · refine Can.next (horWrite _ (hcall text)) ?_
    refine Can.next (horWrite _ (hcall [10])) ?_
    exact horWrite _ (can_call .flush (.ok ()) rfl)

theorem can_receive {deadline : Instant} {phase : PluginPhase} (line : Bytes)
    (hclock : clock < clockEnd) (h : clock < deadline) :
    Can [.line (.ok line)] (receiveProtocolLine deadline phase).run clock (.ok line) := by
  unfold receiveProtocolLine
  refine Can.nextLift (can_now hclock) ?_
  rw [if_neg (Nat.sub_ne_zero_of_lt h)]
  exact Can.lastLift (can_receiveTimeout (.line (.ok line))) (can_pure _)

variable {helloLine resultLine : Bytes} {hello : HelloResultFrame}
  {answer : ResultFrame ProbeBuildSystemResult} {deadline : Instant}

theorem decodeLine_of_ok {α : Type} {codec : Codec json α} {line : Bytes} {value : α}
    (h : decodeFrame s codec.read line policy.maxFrameBytes = .ok value) :
    decodeLine s codec line policy = .ok value := by
  rw [decodeLine, h]
  rfl

theorem can_interaction (hclock : clock < clockEnd) (h : clock < deadline)
    (hwelcome : Welcome s policy admission helloLine hello)
    (hanswers : Answers s policy resultLine answer) :
    Can [.line (.ok helloLine), .line (.ok resultLine)]
      (interaction s policy admission deadline).run clock (.ok (hello.plugin, answer)) := by
  obtain ⟨helloText, hhello, _⟩ := s.reads_back helloFrame
    ((HelloFrame.codec.fits _).mono (by decide))
  obtain ⟨requestText, hrequest, _⟩ := s.reads_back probeRequest fits_probeRequest
  unfold interaction
  refine Can.next (can_write hhello) ?_
  refine Can.take (can_receive helloLine hclock h) ?_
  rw [decodeLine_of_ok hwelcome.decodes]
  refine Can.next (can_result hello) ?_
  rw [hwelcome.handshake]
  refine Can.next (can_result ()) ?_
  rw [admitCapabilities_eq_ok_iff.mpr hwelcome.allowed]
  refine Can.next (can_result ()) ?_
  refine Can.next (can_write hrequest) ?_
  refine Can.take (can_receive resultLine hclock h) ?_
  rw [decodeLine_of_ok hanswers.decodes]
  refine Can.next (can_result answer) ?_
  rw [hanswers.valid]
  exact Can.next (can_result ()) (can_pure _)

/-- What a probe returns of its two frames when the process ended well and said nothing on
stderr. -/
def verdict (plugin : PluginDescriptor) :
    ResultFrame ProbeBuildSystemResult → Except PluginProbeError PluginProbe
  | .error _ _ _ error => .error (.pluginReturnedError error.code error.message)
  | .ok _ _ _ value => .ok
      { name := plugin.name
        version := plugin.version
        supported := value.supported
        diagnostics := ⟨.ofAscii "" (by decide), false⟩ }

theorem can_conclude (group : UInt32) (plugin : PluginDescriptor)
    (answer : ResultFrame ProbeBuildSystemResult) :
    Can [] (conclude group policy deadline plugin answer).run clock (verdict plugin answer) := by
  have hexit : Can [] (waitForExit deadline).run clock (.ok ⟨some 0⟩) := by
    refine ⟨[⟨.tryWait, .ok (some ⟨some 0⟩)⟩], ?_, rfl⟩
    change (waitLoop deadline clock).Ends _ _
    rw [waitLoop]
    refine Program.Ends.call Call.tryWait _ _ ?_
    exact .ret _
  have hgone : Can [] (cleanupRemainingProcessGroup group policy.terminationGrace) clock () := by
    have hexists : (processGroupExists group).Ends
        [⟨.status "/bin/kill" ["-0", "--", s!"-{group}"], .error .notFound⟩]
        (.error .notFound) := by
      refine Program.Ends.call (Call.status _ _) _ _ ?_
      exact .ret _
    exact Can.bind (can_liftM hexists rfl) (can_pure ())
  unfold conclude
  refine Can.nextLift hexit ?_
  refine Can.nextLift hgone ?_
  refine Can.nextLift (can_call _ () rfl) ?_
  refine Can.nextLift
    (can_call .snapshotDiagnostics ⟨.ofAscii "" (by decide), false⟩ rfl) ?_
  rw [if_neg (by decide)]
  cases answer with
  | ok protocol id frameType value => exact can_pure _
  | error protocol id frameType error => exact can_pure _

/-- Two lines the host accepts are enough for a probe, whatever comes after them. -/
theorem can_probe (executable : Bytes) (hclock : clock < clockEnd)
    (htimeout : 0 < policy.operationTimeout) (hfits : clock + policy.operationTimeout < instantEnd)
    (hwelcome : Welcome s policy admission helloLine hello)
    (hanswers : Answers s policy resultLine answer) :
    Can [.line (.ok helloLine), .line (.ok resultLine)]
      (probeBuildSystemWithPolicies s executable policy admission).run clock
      (verdict hello.plugin answer) := by
  unfold probeBuildSystemWithPolicies
  refine Can.next (a := (⟨0⟩ : Child (pluginCommand executable)))
    (Can.map (f := Except.mapError PluginProbeError.spawn)
      (can_call (.spawn _) (.ok ⟨0⟩) rfl)) ?_
  -- the three handles are there
  refine Can.next (can_pure _) ?_
  refine Can.next (can_pure _) ?_
  refine Can.next (can_pure _) ?_
  refine Can.nextLift (can_call _ () rfl) ?_
  refine Can.nextLift (can_call _ () rfl) ?_
  refine Can.nextLift (can_deadlineAfter hclock hfits) ?_
  refine Can.lastLift
    (can_interaction hclock (Nat.lt_add_of_pos_right htimeout) hwelcome hanswers) ?_
  refine Can.nextLift (can_call _ () rfl) ?_
  exact can_conclude 0 hello.plugin answer

/-! ## A plugin -/

/-- The handshake of a plugin that wants nothing. -/
def sampleHello : HelloResultFrame where
  protocol := protocolV1
  id := helloId
  frameType := helloResultType
  plugin :=
    { name := .ofAscii "cmake" (by decide)
      version := .ofAscii "1" (by decide)
      operations := [.probeBuildSystem]
      capabilities := [] }

def sampleAnswer : ResultFrame ProbeBuildSystemResult :=
  .ok protocolV1 probeId .result ⟨true⟩

def sampleHelloText : Bytes :=
  ascii ("\x7b\"protocol\":\"prep.plugin/1\",\"id\":\"hello\",\"type\":\"hello_result\"," ++
    "\"plugin\":\x7b\"name\":\"cmake\",\"version\":\"1\"," ++
    "\"operations\":[\"probe_build_system\"],\"capabilities\":[]\x7d\x7d")

def sampleAnswerText : Bytes :=
  ascii ("\x7b\"status\":\"ok\",\"protocol\":\"prep.plugin/1\",\"id\":\"probe-build-system\"," ++
    "\"type\":\"result\",\"value\":\x7b\"supported\":true\x7d\x7d")

theorem sampleHello_line :
    GoodLine PluginProcessPolicy.default.maxFrameBytes (sampleHelloText ++ [10]) ∧
      Welcome compactJson .default .denyAll (sampleHelloText ++ [10]) sampleHello := by
  have hencode : encodeFrame compactJson (HelloResultFrame.codec.write sampleHello) =
      .ok sampleHelloText := by decide +kernel
  obtain ⟨hgood, hdecode⟩ := @decodeFrame_line defaultMaxFrameBytes _
    ⟨HelloResultFrame, HelloResultFrame.codec, sampleHello, by decide⟩ _ hencode
    (by decide +kernel)
  exact ⟨hgood, hdecode, rfl, fun capability h => absurd h List.not_mem_nil⟩

theorem sampleAnswer_line :
    GoodLine PluginProcessPolicy.default.maxFrameBytes (sampleAnswerText ++ [10]) ∧
      Answers compactJson .default (sampleAnswerText ++ [10]) sampleAnswer := by
  have hencode : encodeFrame compactJson (probeResultCodec.write sampleAnswer) =
      .ok sampleAnswerText := by decide +kernel
  obtain ⟨hgood, hdecode⟩ := @decodeFrame_line defaultMaxFrameBytes _
    ⟨ResultFrame ProbeBuildSystemResult, probeResultCodec, sampleAnswer, by decide⟩ _ hencode
    (by decide +kernel)
  exact ⟨hgood, hdecode, rfl⟩

end Prep.Core.Plugin
