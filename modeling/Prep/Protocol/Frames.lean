/-
  Protocol/Frames.lean --- the frames of `prep-protocol` and how they are written.

  Every type has a codec that follows its serde attributes: the fields with their wire
  names in their order, `default`, `rename`, `tag` and `deny_unknown_fields`.
-/
import Prep.Serde.Json

set_option autoImplicit false

namespace Prep.Protocol

open Prep.Serde
open Prep.Text

/-- `PROTOCOL_V1`. -/
def protocolV1 : Str := .ofAscii "prep.plugin/1" (by decide)

/-- `DEFAULT_MAX_FRAME_BYTES`. -/
def defaultMaxFrameBytes : UInt64 := 1024 * 1024

/-! ## Enumerations -/

/-- `PluginCapability`. -/
inductive PluginCapability where
  | network
  | processSpawn
  | filesystemReadSource
  | filesystemWriteStaging
  | hostPackageManager
  | privilege
  | prompt
  | promptSecret
  deriving DecidableEq, Repr

namespace PluginCapability

def all : List PluginCapability :=
  [network, processSpawn, filesystemReadSource, filesystemWriteStaging, hostPackageManager,
    privilege, prompt, promptSecret]

/-- The wire name, and what `Display` shows. -/
def name : PluginCapability → String
  | network => "network"
  | processSpawn => "process.spawn"
  | filesystemReadSource => "filesystem.read.source"
  | filesystemWriteStaging => "filesystem.write.staging"
  | hostPackageManager => "host.package_manager"
  | privilege => "privilege"
  | prompt => "prompt"
  | promptSecret => "prompt.secret"

def codec : Codec json PluginCapability :=
  Json.enumeration all name (fun a => by cases a <;> decide) fun a => by cases a <;> decide

end PluginCapability

/-- `PluginOperation`. -/
inductive PluginOperation where
  | probeBuildSystem
  | configure
  | build
  | test
  | installToStaging
  | probeHostDependency
  | planHostChange
  | applyHostChange
  deriving DecidableEq, Repr

namespace PluginOperation

def all : List PluginOperation :=
  [probeBuildSystem, configure, build, test, installToStaging, probeHostDependency,
    planHostChange, applyHostChange]

/-- The wire name, and what `Display` shows. -/
def name : PluginOperation → String
  | probeBuildSystem => "probe_build_system"
  | configure => "configure"
  | build => "build"
  | test => "test"
  | installToStaging => "install_to_staging"
  | probeHostDependency => "probe_host_dependency"
  | planHostChange => "plan_host_change"
  | applyHostChange => "apply_host_change"

def codec : Codec json PluginOperation :=
  Json.enumeration all name (fun a => by cases a <;> decide) fun a => by cases a <;> decide

end PluginOperation

/-- `BuilderOperation`. -/
inductive BuilderOperation where
  | configure
  | build
  | test
  | installToStaging
  deriving DecidableEq, Repr

namespace BuilderOperation

def all : List BuilderOperation := [configure, build, test, installToStaging]

/-- `PluginOperation::from`. -/
def toPluginOperation : BuilderOperation → PluginOperation
  | configure => .configure
  | build => .build
  | test => .test
  | installToStaging => .installToStaging

def name : BuilderOperation → String
  | configure => "configure"
  | build => "build"
  | test => "test"
  | installToStaging => "install_to_staging"

def codec : Codec json BuilderOperation :=
  Json.enumeration all name (fun a => by cases a <;> decide) fun a => by cases a <;> decide

end BuilderOperation

/-- `ProtocolErrorCode`. -/
inductive ProtocolErrorCode where
  | invalidRequest
  | unsupportedOperation
  | unsupportedBuildSystem
  | notFound
  | unavailable
  | buildFailed
  | testFailed
  | installFailed
  | policyDenied
  | cancelled
  | timeout
  | internal
  deriving DecidableEq, Repr

namespace ProtocolErrorCode

def all : List ProtocolErrorCode :=
  [invalidRequest, unsupportedOperation, unsupportedBuildSystem, notFound, unavailable,
    buildFailed, testFailed, installFailed, policyDenied, cancelled, timeout, internal]

/-- The wire name, and what `Display` shows. -/
def name : ProtocolErrorCode → String
  | invalidRequest => "invalid_request"
  | unsupportedOperation => "unsupported_operation"
  | unsupportedBuildSystem => "unsupported_build_system"
  | notFound => "not_found"
  | unavailable => "unavailable"
  | buildFailed => "build_failed"
  | testFailed => "test_failed"
  | installFailed => "install_failed"
  | policyDenied => "policy_denied"
  | cancelled => "cancelled"
  | timeout => "timeout"
  | internal => "internal"

def codec : Codec json ProtocolErrorCode :=
  Json.bufferedEnumeration all name (fun a => by cases a <;> decide) fun a => by cases a <;> decide

end ProtocolErrorCode

/-- `ResultFrameType`. -/
inductive ResultFrameType where
  | result
  deriving DecidableEq, Repr

namespace ResultFrameType

def name : ResultFrameType → String
  | result => "result"

def codec : Codec json ResultFrameType :=
  Json.bufferedEnumeration [result] name (fun a => by cases a; decide) fun a => by cases a; decide

end ResultFrameType

/-- `EventFrameType`. -/
inductive EventFrameType where
  | event
  deriving DecidableEq, Repr

namespace EventFrameType

def name : EventFrameType → String
  | event => "event"

def codec : Codec json EventFrameType :=
  Json.enumeration [event] name (fun a => by cases a; decide) fun a => by cases a; decide

end EventFrameType

/-- `PluginEventKind`. -/
inductive PluginEventKind where
  | progress
  deriving DecidableEq, Repr

namespace PluginEventKind

def name : PluginEventKind → String
  | progress => "progress"

def codec : Codec json PluginEventKind :=
  Json.enumeration [progress] name (fun a => by cases a; decide) fun a => by cases a; decide

end PluginEventKind

/-- `HostPlanningOperation`. -/
inductive HostPlanningOperation where
  | probeHostDependency
  | planHostChange
  deriving DecidableEq, Repr

namespace HostPlanningOperation

def all : List HostPlanningOperation := [probeHostDependency, planHostChange]

def name : HostPlanningOperation → String
  | probeHostDependency => "probe_host_dependency"
  | planHostChange => "plan_host_change"

def codec : Codec json HostPlanningOperation :=
  Json.enumeration all name (fun a => by cases a <;> decide) fun a => by cases a <;> decide

end HostPlanningOperation

/-- `HostChangeKind`. -/
inductive HostChangeKind where
  | install
  | upgrade
  | remove
  deriving DecidableEq, Repr

namespace HostChangeKind

def all : List HostChangeKind := [install, upgrade, remove]

def name : HostChangeKind → String
  | install => "install"
  | upgrade => "upgrade"
  | remove => "remove"

def codec : Codec json HostChangeKind :=
  Json.bufferedEnumeration all name (fun a => by cases a <;> decide) fun a => by cases a <;> decide

end HostChangeKind

/-! ## Handshake -/

/-- `HelloFrame`. -/
structure HelloFrame where
  protocol : Str
  id : Str
  frameType : Str
  prepVersion : Str

namespace HelloFrame

/-- `HelloFrame::new`. -/
def new (id prepVersion : Str) : HelloFrame :=
  ⟨protocolV1, id, .ofAscii "hello" (by decide), prepVersion⟩

def record : Record json HelloFrame :=
  .map (.cons (.required "protocol" Json.str) <| .cons (.required "id" Json.str) <|
      .cons (.required "type" Json.str) <| .cons (.required "prep_version" Json.str) .nil)
    (fun (protocol, id, frameType, prepVersion, ()) => ⟨protocol, id, frameType, prepVersion⟩)
    (fun x => (x.protocol, x.id, x.frameType, x.prepVersion, ())) fun _ => rfl

def codec : Codec json HelloFrame := Json.record record (by decide)

end HelloFrame

/-- `PluginDescriptor`. -/
structure PluginDescriptor where
  name : Str
  version : Str
  operations : List PluginOperation
  capabilities : List PluginCapability

namespace PluginDescriptor

def record : Record json PluginDescriptor :=
  .map (.cons (.required "name" Json.str) <| .cons (.required "version" Json.str) <|
      .cons (.required "operations" (.list PluginOperation.codec)) <|
      .cons (.required "capabilities" (.list PluginCapability.codec)) .nil)
    (fun (name, version, operations, capabilities, ()) =>
      ⟨name, version, operations, capabilities⟩)
    (fun x => (x.name, x.version, x.operations, x.capabilities, ())) fun _ => rfl

def codec : Codec json PluginDescriptor := Json.record record (by decide)

end PluginDescriptor

/-- `HelloResultFrame`. -/
structure HelloResultFrame where
  protocol : Str
  id : Str
  frameType : Str
  plugin : PluginDescriptor

namespace HelloResultFrame

def record : Record json HelloResultFrame :=
  .map (.cons (.required "protocol" Json.str) <| .cons (.required "id" Json.str) <|
      .cons (.required "type" Json.str) <| .cons (.required "plugin" PluginDescriptor.codec) .nil)
    (fun (protocol, id, frameType, plugin, ()) => ⟨protocol, id, frameType, plugin⟩)
    (fun x => (x.protocol, x.id, x.frameType, x.plugin, ())) fun _ => rfl

def codec : Codec json HelloResultFrame := Json.record record (by decide)

end HelloResultFrame

/-! ## Requests -/

/-- `ProbeBuildSystemRequest`.  Its context is any JSON; `new` gives it an empty
object. -/
structure ProbeBuildSystemRequest where
  protocol : Str
  id : Str
  frameType : PluginOperation
  context : Tree

namespace ProbeBuildSystemRequest

/-- `ProbeBuildSystemRequest::new`. -/
def new (id : Str) : ProbeBuildSystemRequest := ⟨protocolV1, id, .probeBuildSystem, .map []⟩

def write (x : ProbeBuildSystemRequest) : Tree :=
  .map [(ascii "protocol", Json.str.write x.protocol), (ascii "id", Json.str.write x.id),
    (ascii "type", PluginOperation.codec.write x.frameType), (ascii "context", x.context)]

end ProbeBuildSystemRequest

/-- `PluginPackage`. -/
structure PluginPackage where
  name : Str
  version : Str

namespace PluginPackage

def record : Record json PluginPackage :=
  .map (.cons (.required "name" Json.str) <| .cons (.required "version" Json.str) .nil)
    (fun (name, version, ()) => ⟨name, version⟩) (fun x => (x.name, x.version, ())) fun _ => rfl

def codec : Codec json PluginPackage := Json.record record (by decide)

end PluginPackage

/-- `PluginExecutionContext`. -/
structure PluginExecutionContext where
  sourceDir : Str
  buildDir : Str
  stagingDir : Str
  dependencyPrefixes : List Str
  environment : Data.SortedMap Str Str
  offline : Bool

namespace PluginExecutionContext

def record : Record json PluginExecutionContext :=
  .map (.cons (.required "source_dir" Json.str) <| .cons (.required "build_dir" Json.str) <|
      .cons (.required "staging_dir" Json.str) <|
      .cons (.defaulted "dependency_prefixes" (.list Json.str) []) <|
      .cons (.defaulted "environment" Json.strMap .empty) <|
      .cons (.defaulted "offline" .bool false) .nil)
    (fun (sourceDir, buildDir, stagingDir, dependencyPrefixes, environment, offline, ()) =>
      ⟨sourceDir, buildDir, stagingDir, dependencyPrefixes, environment, offline⟩)
    (fun x => (x.sourceDir, x.buildDir, x.stagingDir, x.dependencyPrefixes, x.environment,
      x.offline, ())) fun _ => rfl

def codec : Codec json PluginExecutionContext := Json.record record (by decide)

end PluginExecutionContext

/-- `BuilderRequestFrame`. -/
structure BuilderRequestFrame where
  protocol : Str
  id : Str
  operation : BuilderOperation
  package : PluginPackage
  context : PluginExecutionContext
  arguments : List Str

namespace BuilderRequestFrame

/-- `BuilderRequestFrame::new`. -/
def new (id : Str) (operation : BuilderOperation) (package : PluginPackage)
    (context : PluginExecutionContext) (arguments : List Str) : BuilderRequestFrame :=
  ⟨protocolV1, id, operation, package, context, arguments⟩

def record : Record json BuilderRequestFrame :=
  .map (.cons (.required "protocol" Json.str) <| .cons (.required "id" Json.str) <|
      .cons (.required "type" BuilderOperation.codec) <|
      .cons (.required "package" PluginPackage.codec) <|
      .cons (.required "context" PluginExecutionContext.codec) <|
      .cons (.defaulted "arguments" (.list Json.str) []) .nil)
    (fun (protocol, id, operation, package, context, arguments, ()) =>
      ⟨protocol, id, operation, package, context, arguments⟩)
    (fun x => (x.protocol, x.id, x.operation, x.package, x.context, x.arguments, ())) fun _ => rfl

def codec : Codec json BuilderRequestFrame := Json.record record (by decide)

end BuilderRequestFrame

/-- `HostDependency`. -/
structure HostDependency where
  manager : Str
  package : Str
  version : Option Str
  deriving DecidableEq

namespace HostDependency

def record : Record json HostDependency :=
  .map (.cons (.required "manager" Json.str) <| .cons (.required "package" Json.str) <|
      .cons (.defaulted "version" (Json.option Json.str Json.str_ne_null) none) .nil)
    (fun (manager, package, version, ()) => ⟨manager, package, version⟩)
    (fun x => (x.manager, x.package, x.version, ())) fun _ => rfl

def codec : Codec json HostDependency := Json.record record (by decide)

end HostDependency

/-- `HostPlanningRequest`. -/
structure HostPlanningRequest where
  protocol : Str
  id : Str
  operation : HostPlanningOperation
  dependency : HostDependency

namespace HostPlanningRequest

/-- `HostPlanningRequest::new`. -/
def new (id : Str) (operation : HostPlanningOperation) (dependency : HostDependency) :
    HostPlanningRequest := ⟨protocolV1, id, operation, dependency⟩

def record : Record json HostPlanningRequest :=
  .map (.cons (.required "protocol" Json.str) <| .cons (.required "id" Json.str) <|
      .cons (.required "type" HostPlanningOperation.codec) <|
      .cons (.required "dependency" HostDependency.codec) .nil)
    (fun (protocol, id, operation, dependency, ()) => ⟨protocol, id, operation, dependency⟩)
    (fun x => (x.protocol, x.id, x.operation, x.dependency, ())) fun _ => rfl

def codec : Codec json HostPlanningRequest := Json.record record (by decide)

end HostPlanningRequest

end Prep.Protocol
