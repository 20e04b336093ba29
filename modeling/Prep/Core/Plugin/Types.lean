/-
  Core/Plugin/Types.lean --- policies, phases and errors of the plugin host.

  A duration and an instant are numbers of nanoseconds.  Where a sum of them is more than an
  instant can hold is said in `Core/Plugin/Host.lean`.
-/
import Prep.Io.Reader
import Prep.Protocol.Wire

set_option autoImplicit false

namespace Prep.Core.Plugin

open Prep.Io (IoError)
open Prep.Protocol
open Prep.Text

/-- `Duration`, in nanoseconds.  Those of the standard library end at `durationMax`. -/
abbrev Duration : Type := Nat

/-- `PluginDiagnostics`. -/
structure PluginDiagnostics where
  text : Str
  truncated : Bool

/-- `PluginProcessPolicy`. -/
structure PluginProcessPolicy where
  operationTimeout : Duration
  terminationGrace : Duration
  maxFrameBytes : UInt64
  maxDiagnosticBytes : UInt64

/-- `PluginProcessPolicy::default`. -/
def PluginProcessPolicy.default : PluginProcessPolicy where
  operationTimeout := 30 * 10 ^ 9
  terminationGrace := 500 * 10 ^ 6
  maxFrameBytes := defaultMaxFrameBytes
  maxDiagnosticBytes := 64 * 1024

/-- `PluginAdmissionPolicy`. -/
structure PluginAdmissionPolicy where
  allowedCapabilities : Finset PluginCapability

/-- `PluginAdmissionPolicy::deny_all`. -/
def PluginAdmissionPolicy.denyAll : PluginAdmissionPolicy := ⟨∅⟩

/-- `PluginAdmissionPolicy::allows`. -/
def PluginAdmissionPolicy.allows (policy : PluginAdmissionPolicy)
    (capability : PluginCapability) : Bool :=
  decide (capability ∈ policy.allowedCapabilities)

/-- `PluginPhase`. -/
inductive PluginPhase where
  | handshake
  | result
  | exit
  deriving DecidableEq, Repr

/-- `PluginProbe`. -/
structure PluginProbe where
  name : Str
  version : Str
  supported : Bool
  diagnostics : PluginDiagnostics

/-- `PluginProbeError`. -/
inductive PluginProbeError where
  | spawn (error : IoError)
  | io (operation : String) (source : IoError)
  | protocol (message : String)
  | unexpectedEof
  | missingNewline
  | invalidHandshake (message : String)
  | invalidResult (message : String)
  | pluginReturnedError (code : ProtocolErrorCode) (message : Str)
  | policyDenied (capability : PluginCapability)
  | processFailed (code : Option Int) (diagnostics : PluginDiagnostics)
  | timeout (phase : PluginPhase) (timeout : Duration) (diagnostics : PluginDiagnostics)
  | cleanup (primary : PluginProbeError) (message : String)

/-- `LifecycleFailure`. -/
inductive LifecycleFailure where
  | probe (error : PluginProbeError)
  | timeout (phase : PluginPhase)

end Prep.Core.Plugin
