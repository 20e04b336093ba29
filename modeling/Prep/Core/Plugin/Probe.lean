/-
  Core/Plugin/Probe.lean --- a probe: the handshake, the request, its result, and the end
  of the process.

  The calls are in the order of the source, and an error carries the phase, the text and the
  diagnostics that it has there.  The other two entry points are this one with default policies.
-/
import Prep.Core.Plugin.Host

set_option autoImplicit false

namespace Prep.Core.Plugin

open Prep.Io (IoError)
open Prep.Machine
open Prep.Protocol
open Prep.Serde
open Prep.Text

theorem isAscii_helloId : (ascii "hello").all isAscii = true := by decide

/-- `HELLO_ID`. -/
def helloId : Str := .ofAscii "hello" isAscii_helloId

/-- `PROBE_ID`. -/
def probeId : Str := .ofAscii "probe-build-system" (by decide)

/-- `env!("CARGO_PKG_VERSION")`. -/
def prepVersion : Str := .ofAscii "0.1.0" (by decide)

theorem isAscii_helloResult : (ascii "hello_result").all isAscii = true := by decide

/-- The type of the plugin's answer to the first frame. -/
def helloResultType : Str := .ofAscii "hello_result" isAscii_helloResult

/-- The tree of the frame the host says hello with. -/
def helloFrame : Tree := HelloFrame.codec.write (.new helloId prepVersion)

/-- The tree of the frame that asks for the probe. -/
def probeRequest : Tree := (ProbeBuildSystemRequest.new probeId).write

/-! ## Checks of what the plugin says -/

/-- `admit_capabilities`. -/
def admitCapabilities (capabilities : List PluginCapability) (policy : PluginAdmissionPolicy) :
    Except PluginProbeError Unit :=
  match capabilities with
  | [] => .ok ()
  | capability :: capabilities =>
      if policy.allows capability = false then .error (.policyDenied capability)
      else admitCapabilities capabilities policy

/-- `validate_handshake`. -/
def validateHandshake (hello : HelloResultFrame) : Except PluginProbeError Unit :=
  if hello.protocol ≠ protocolV1 then
    .error (.invalidHandshake
      s!"expected protocol {display protocolV1.bytes}, got {display hello.protocol.bytes}")
  else if hello.id ≠ helloId ∨ hello.frameType ≠ helloResultType then
    .error (.invalidHandshake "unexpected handshake id/type")
  else if hello.plugin.name.bytes = [] ∨ hello.plugin.version.bytes = [] then
    .error (.invalidHandshake "plugin name/version must be non-empty")
  else if PluginOperation.probeBuildSystem ∉ hello.plugin.operations then
    .error (.invalidHandshake "plugin did not declare probe_build_system")
  else .ok ()

/-- `validate_result`. -/
def validateResult {T : Type} (result : ResultFrame T) : Except PluginProbeError Unit :=
  if result.protocol ≠ protocolV1 then
    .error (.invalidResult
      s!"expected protocol {display protocolV1.bytes}, got {display result.protocol.bytes}")
  else if result.id ≠ probeId ∨ result.frameType ≠ .result then
    .error (.invalidResult "unexpected result id/type")
  else .ok ()

/-- The codec of `ProbeBuildSystemResultFrame`. -/
def probeResultCodec : Codec json (ResultFrame ProbeBuildSystemResult) :=
  ResultFrame.codec ProbeBuildSystemResult.codec

theorem admitCapabilities_eq_ok_iff {capabilities : List PluginCapability}
    {policy : PluginAdmissionPolicy} :
    admitCapabilities capabilities policy = .ok () ↔
      ∀ capability ∈ capabilities, policy.allows capability = true := by
  induction capabilities with
  | nil => exact ⟨fun _ c hc => absurd hc List.not_mem_nil, fun _ => rfl⟩
  | cons capability capabilities ih =>
      rw [admitCapabilities, List.forall_mem_cons]
      split
      · rename_i hdenied
        rw [hdenied]
        exact ⟨fun h => (by cases h), fun h => (by cases h.1)⟩
      · rename_i hallowed
        rw [ih, Bool.eq_true_of_not_eq_false hallowed]
        exact (and_iff_right rfl).symm

section Probe

variable (s : SerdeJson)

/-- `PluginProbeError` to `LifecycleFailure`. -/
def lifecycle {α : Type} (act : ExceptT PluginProbeError Host α) :
    ExceptT LifecycleFailure Host α :=
  orFail .probe act.run

/-- `receive_protocol_line`. -/
def receiveProtocolLine (deadline : Instant) (phase : PluginPhase) :
    ExceptT LifecycleFailure Host Bytes := do
  let t ← ExceptT.lift now
  if deadline - t = 0 then
    result (.error (.timeout phase))
  else
    match ← ExceptT.lift (perform (.recvTimeout (deadline - t))) with
    | .line received => result (received.mapError .probe)
    | .timeout => result (.error (.timeout phase))
    | .disconnected => result (.error (.probe .unexpectedEof))

/-- `decode_frame` of a line the plugin sent. -/
def decodeLine {α : Type} (codec : Codec json α) (line : Bytes) (policy : PluginProcessPolicy) :
    Except PluginProbeError α :=
  (decodeFrame s codec.read line policy.maxFrameBytes).mapError fun error =>
    .protocol error.display

/-- The closure `interaction`: the frames that go to and fro. -/
def interaction (policy : PluginProcessPolicy) (admission : PluginAdmissionPolicy)
    (deadline : Instant) :
    ExceptT LifecycleFailure Host (PluginDescriptor × ResultFrame ProbeBuildSystemResult) := do
  lifecycle <| writeProtocolFrame (fun bytes => perform (.writeAll bytes)) (perform .flush) s
    helloFrame
  let helloLine ← receiveProtocolLine deadline .handshake
  let hello ← lifecycle <| result (decodeLine s HelloResultFrame.codec helloLine policy)
  lifecycle <| result (validateHandshake hello)
  lifecycle <| result (admitCapabilities hello.plugin.capabilities admission)
  lifecycle <| writeProtocolFrame (fun bytes => perform (.writeAll bytes)) (perform .flush) s
    probeRequest
  let resultLine ← receiveProtocolLine deadline .result
  let answer ← lifecycle <| result (decodeLine s probeResultCodec resultLine policy)
  lifecycle <| result (validateResult answer)
  return (hello.plugin, answer)

/-- `cleanup_failure`. -/
def cleanupFailure (processGroupId : UInt32) (failure : LifecycleFailure)
    (policy : PluginProcessPolicy) : Host PluginProbeError := do
  let cleanup ← (terminateAndReap processGroupId policy.terminationGrace).run
  perform (.finishDiagnostics policy.terminationGrace)
  let captured ← perform .snapshotDiagnostics
  let primary := match failure with
    | .probe error => error
    | .timeout phase => .timeout phase policy.operationTimeout captured
  return match cleanup with
    | .ok () => primary
    | .error error => .cleanup primary (toString error)

/-- The command that starts a plugin. -/
def pluginCommand (executable : Bytes) : Command where
  program := executable
  envClear := true
  stdin := .piped
  stdout := .piped
  stderr := .piped
  -- `configure_process_group`
  processGroup := some 0

/-- `child.stdin.take().ok_or_else(..)?`, and the like for the other handles. -/
def requireHandle (stdio : Stdio) (message : String) : ExceptT PluginProbeError Host Unit :=
  match takeHandle stdio with
  | some () => pure ()
  | none => result (.error (.protocol message))

/-- `probe_build_system_with_policies` after the interaction: what the end of the process
makes of its result. -/
def conclude (processGroupId : UInt32) (policy : PluginProcessPolicy) (deadline : Instant)
    (plugin : PluginDescriptor) (answer : ResultFrame ProbeBuildSystemResult) :
    ExceptT PluginProbeError Host PluginProbe := do
  match ← ExceptT.lift (waitForExit deadline).run with
  | .error failure =>
      let error ← ExceptT.lift (cleanupFailure processGroupId failure policy)
      result (.error error)
  | .ok status =>
      ExceptT.lift (cleanupRemainingProcessGroup processGroupId policy.terminationGrace)
      ExceptT.lift (perform (.finishDiagnostics policy.terminationGrace))
      let diagnostics ← ExceptT.lift (perform .snapshotDiagnostics)
      if status.success = false then
        result (.error (.processFailed status.code diagnostics))
      else
        match answer with
        | .error _ _ _ error => result (.error (.pluginReturnedError error.code error.message))
        | .ok _ _ _ value =>
            return { name := plugin.name
                     version := plugin.version
                     supported := value.supported
                     diagnostics }

/-- `probe_build_system_with_policies`. -/
def probeBuildSystemWithPolicies (executable : Bytes) (policy : PluginProcessPolicy)
    (admission : PluginAdmissionPolicy) : ExceptT PluginProbeError Host PluginProbe := do
  let command := pluginCommand executable
  let child ← orFail .spawn (perform (.spawn command))
  requireHandle command.stdin "plugin stdin pipe was not created"
  requireHandle command.stdout "plugin stdout pipe was not created"
  requireHandle command.stderr "plugin stderr pipe was not created"
  ExceptT.lift (perform (.spawnStdoutReader policy.maxFrameBytes))
  ExceptT.lift (perform (.captureDiagnostics policy.maxDiagnosticBytes))
  let deadline ← ExceptT.lift (deadlineAfter policy.operationTimeout)
  let interaction ← ExceptT.lift (interaction s policy admission deadline).run
  ExceptT.lift (perform .dropStdin)
  match interaction with
  | .error failure =>
      let error ← ExceptT.lift (cleanupFailure child.id failure policy)
      result (.error error)
  | .ok (plugin, answer) => conclude child.id policy deadline plugin answer

end Probe

end Prep.Core.Plugin
