/-
  Protocol/Results.lean --- result frames with their payloads, and progress events.

  A result frame is an enumeration with a tag: what stands beside the tag is buffered and
  then read as the fields of a variant.  Buffered content is read more freely than JSON in
  one place, the variants of enumerations (`Codec.isBufferedUnit`), and so the enumerations
  that stand in a result frame only (its type, the error code, the kind of a host change)
  have codecs of their own kind.  A progress event is read without a buffer.

  Not here: the accessors of `ResultFrame` that no modelled function calls.
-/
import Prep.Data.Except
import Prep.Protocol.Frames

set_option autoImplicit false

namespace Prep.Protocol

open Prep.Serde
open Prep.Text

/-! ## Result frames -/

/-- `ProtocolErrorBody`. -/
structure ProtocolErrorBody where
  code : ProtocolErrorCode
  message : Str
  retryable : Bool

namespace ProtocolErrorBody

def record : Record json ProtocolErrorBody :=
  .map (.cons (.required "code" ProtocolErrorCode.codec) <|
      .cons (.required "message" Json.str) <| .cons (.defaulted "retryable" .bool false) .nil)
    (fun (code, message, retryable, ()) => ⟨code, message, retryable⟩)
    (fun x => (x.code, x.message, x.retryable, ())) fun _ => rfl

def codec : Codec json ProtocolErrorBody := Json.record record (by decide)

end ProtocolErrorBody

/-- `ResultFrame`. -/
inductive ResultFrame (T : Type) where
  | ok (protocol id : Str) (frameType : ResultFrameType) (value : T)
  | error (protocol id : Str) (frameType : ResultFrameType) (error : ProtocolErrorBody)

namespace ResultFrame

variable {T : Type}

/-- `ResultFrame::protocol`. -/
def protocol : ResultFrame T → Str
  | .ok protocol _ _ _ => protocol
  | .error protocol _ _ _ => protocol

/-- `ResultFrame::id`. -/
def id : ResultFrame T → Str
  | .ok _ id _ _ => id
  | .error _ id _ _ => id

/-- `ResultFrame::frame_type`. -/
def frameType : ResultFrame T → ResultFrameType
  | .ok _ _ frameType _ => frameType
  | .error _ _ frameType _ => frameType

/-- The variant `ok`. -/
def okVariant (c : Codec json T) : Variant json (ResultFrame T) where
  payload := Str × Str × ResultFrameType × T × Unit
  tag := ascii "ok"
  record := .cons (.required "protocol" Json.str) <| .cons (.required "id" Json.str) <|
    .cons (.required "type" ResultFrameType.codec) <| .cons (.required "value" c) .nil
  build := fun (protocol, id, frameType, value, ()) => .ok protocol id frameType value
  parts
    | .ok protocol id frameType value => some (protocol, id, frameType, value, ())
    | .error .. => none
  parts_build {x p} h := by
    cases x with
    | ok protocol id frameType value =>
        cases h
        rfl
    | error => cases h

/-- The variant `error`. -/
def errorVariant : Variant json (ResultFrame T) where
  payload := Str × Str × ResultFrameType × ProtocolErrorBody × Unit
  tag := ascii "error"
  record := .cons (.required "protocol" Json.str) <| .cons (.required "id" Json.str) <|
    .cons (.required "type" ResultFrameType.codec) <|
    .cons (.required "error" ProtocolErrorBody.codec) .nil
  build := fun (protocol, id, frameType, body, ()) => .error protocol id frameType body
  parts
    | .error protocol id frameType body => some (protocol, id, frameType, body, ())
    | .ok .. => none
  parts_build {x p} h := by
    cases x with
    | ok => cases h
    | error protocol id frameType body =>
        cases h
        rfl

theorem tagged (c : Codec json T) :
    Variant.Tagged (ascii "status") [okVariant c, errorVariant] where
  covers x := by
    cases x with
    | ok => exact ⟨okVariant c, List.mem_cons_self, rfl⟩
    | error => exact ⟨errorVariant, List.mem_cons_of_mem _ List.mem_cons_self, rfl⟩
  distinct := show [ascii "ok", ascii "error"].Nodup by decide
  named := by
    have hok : [ascii "protocol", ascii "id", ascii "type", ascii "value"].Nodup ∧
        ∀ name ∈ [ascii "protocol", ascii "id", ascii "type", ascii "value"],
          name.all isAscii = true := by decide
    have herror : [ascii "protocol", ascii "id", ascii "type", ascii "error"].Nodup ∧
        ∀ name ∈ [ascii "protocol", ascii "id", ascii "type", ascii "error"],
          name.all isAscii = true := by decide
    have hvalue : ascii "status" ∉ [ascii "protocol", ascii "id", ascii "type", ascii "value"] := by
      decide
    have hbody : ascii "status" ∉ [ascii "protocol", ascii "id", ascii "type", ascii "error"] := by
      decide
    intro v hv
    rcases List.mem_cons.mp hv with rfl | hv
    · exact ⟨hok, hvalue, show (ascii "ok").all isAscii = true by decide⟩
    · obtain rfl := List.mem_singleton.mp hv
      exact ⟨herror, hbody, show (ascii "error").all isAscii = true by decide⟩
  key_ascii := by decide

/-- `#[serde(tag = "status", rename_all = "snake_case", deny_unknown_fields)]`. -/
def codec (c : Codec json T) : Codec json (ResultFrame T) :=
  .tagged (ascii "status") [okVariant c, errorVariant] (tagged c) Json.string_of_ascii

example : ResultFrameType.codec.read (.map [(ascii "result", .map [])]) = some .result ∧
    HostPlanningOperation.codec.read (.map [(ascii "plan_host_change", .map [])]) = none := by
  decide

/-- The id of a frame is one of the strings it is read from. -/
theorem ok_id {c : Codec json T} {t : Tree} {frame : ResultFrame T} {ok : Bytes → Prop} {d : Nat}
    (h : (codec c).read t = some frame) (hstrings : t.AllStrings ok (d + 1)) :
    ok frame.id.bytes := by
  have hread : ∀ {found : Option Tree} {id : Str}, (∀ t ∈ found, t.AllStrings ok d) →
      (Field.required "id" Json.str).readFound found = some id → ok id.bytes := by
    intro found id hfound h
    cases found with
    | none => cases h
    | some t =>
        have hok := hfound t rfl
        obtain rfl := Json.str_read_eq_some h
        cases d <;> exact hok
  -- in a variant the id is the second field
  cases t with
  | map entries =>
      obtain ⟨v, hv, p, rfl, _, _, hfields⟩ := Variant.readTagged_map h
      have hfound : ∀ name, ∀ t ∈ (Variant.without (ascii "status") entries).lookup name,
          t.AllStrings ok d := by
        intro name t ht
        obtain ⟨front, back, heq, _⟩ := List.lookup_eq_some_iff.mp ht
        have hmem : (name, t) ∈ Variant.without (ascii "status") entries := by
          rw [heq]
          exact List.mem_append_right _ List.mem_cons_self
        exact (hstrings _ (List.mem_of_mem_filter hmem)).2
      rcases List.mem_cons.mp hv with rfl | hv
      · exact hread (hfound _)
          (Record.cons_read_eq_some.mp (Record.cons_read_eq_some.mp hfields).2).1
      · obtain rfl := List.mem_singleton.mp hv
        exact hread (hfound _)
          (Record.cons_read_eq_some.mp (Record.cons_read_eq_some.mp hfields).2).1
  | seq items =>
      cases items with
      | nil => cases h
      | cons tag items =>
          obtain ⟨tag, _, h⟩ := Option.bind_eq_some_iff.mp h
          obtain ⟨v, hv, h⟩ := Option.bind_eq_some_iff.mp h
          obtain ⟨p, hp, rfl⟩ := Option.map_eq_some_iff.mp h
          have hfound : ∀ t ∈ items.tail.head?, t.AllStrings ok d := fun t ht =>
            hstrings t (List.mem_cons_of_mem _ (List.mem_of_mem_tail (List.mem_of_mem_head? ht)))
          have hfields := Record.readSeq_of_readTree hp
          rcases List.mem_cons.mp (List.mem_of_find?_eq_some hv) with rfl | hv
          · exact hread hfound
              (Record.cons_readSeq_eq_some (Record.cons_readSeq_eq_some hfields).2).1
          · obtain rfl := List.mem_singleton.mp hv
            exact hread hfound
              (Record.cons_readSeq_eq_some (Record.cons_readSeq_eq_some hfields).2).1
  | _ => cases h

end ResultFrame

/-! ## Payloads -/

/-- A record with one flag. -/
def flagRecord {σ : Type} (name : String) (build : Bool → σ) (flag : σ → Bool)
    (hbuild : ∀ x, build (flag x) = x) : Record json σ :=
  .map (.cons (.required name .bool) .nil) (fun p => build p.1) (fun x => (flag x, ())) hbuild

/-- `ProbeBuildSystemResult`. -/
structure ProbeBuildSystemResult where
  supported : Bool

def ProbeBuildSystemResult.codec : Codec json ProbeBuildSystemResult :=
  Json.record (flagRecord "supported" .mk (·.supported) fun _ => rfl) (by decide)

/-- `ConfigureResult`. -/
structure ConfigureResult where
  configured : Bool

def ConfigureResult.codec : Codec json ConfigureResult :=
  Json.record (flagRecord "configured" .mk (·.configured) fun _ => rfl) (by decide)

/-- `BuildResult`. -/
structure BuildResult where
  built : Bool

def BuildResult.codec : Codec json BuildResult :=
  Json.record (flagRecord "built" .mk (·.built) fun _ => rfl) (by decide)

/-- `TestResult`. -/
structure TestResult where
  passed : Bool

def TestResult.codec : Codec json TestResult :=
  Json.record (flagRecord "passed" .mk (·.passed) fun _ => rfl) (by decide)

/-- `InstallToStagingResult`. -/
structure InstallToStagingResult where
  installed : Bool

def InstallToStagingResult.codec : Codec json InstallToStagingResult :=
  Json.record (flagRecord "installed" .mk (·.installed) fun _ => rfl) (by decide)

/-- `HostProbeResult`. -/
structure HostProbeResult where
  present : Bool
  installedVersion : Option Str

namespace HostProbeResult

def record : Record json HostProbeResult :=
  .map (.cons (.required "present" .bool) <|
      .cons (.defaulted "installed_version" (Json.option Json.str Json.str_ne_null) none) .nil)
    (fun (present, installedVersion, ()) => ⟨present, installedVersion⟩)
    (fun x => (x.present, x.installedVersion, ())) fun _ => rfl

def codec : Codec json HostProbeResult := Json.record record (by decide)

end HostProbeResult

/-- `HostChangePlan`. -/
structure HostChangePlan where
  provider : Str
  dependency : HostDependency
  change : HostChangeKind
  requiresPrivilege : Bool
  summary : Str

namespace HostChangePlan

def record : Record json HostChangePlan :=
  .map (.cons (.required "provider" Json.str) <|
      .cons (.required "dependency" HostDependency.codec) <|
      .cons (.required "change" HostChangeKind.codec) <|
      .cons (.required "requires_privilege" .bool) <| .cons (.required "summary" Json.str) .nil)
    (fun (provider, dependency, change, requiresPrivilege, summary, ()) =>
      ⟨provider, dependency, change, requiresPrivilege, summary⟩)
    (fun x => (x.provider, x.dependency, x.change, x.requiresPrivilege, x.summary, ()))
    fun _ => rfl

def codec : Codec json HostChangePlan := Json.record record (by decide)

end HostChangePlan

/-! ## Progress events -/

/-- `ProgressEventError`. -/
structure ProgressEventError where
  message : String
  deriving DecidableEq, Repr

/-- `ProgressEventFrame`. -/
structure ProgressEventFrame where
  protocol : Str
  id : Str
  frameType : EventFrameType
  event : PluginEventKind
  message : Str
  completed : Option UInt64
  total : Option UInt64

/-- `RawProgressEventFrame`. -/
structure RawProgressEventFrame where
  protocol : Str
  id : Str
  frameType : EventFrameType
  event : PluginEventKind
  message : Str
  completed : Option UInt64
  total : Option UInt64

/-- What a frame is deserialized as, `completed` and `total` by default absent. -/
def RawProgressEventFrame.record : Record json RawProgressEventFrame :=
  .map (.cons (.required "protocol" Json.str) <| .cons (.required "id" Json.str) <|
      .cons (.required "type" EventFrameType.codec) <|
      .cons (.required "event" PluginEventKind.codec) <|
      .cons (.required "message" Json.str) <| .cons (.omitted "completed" Json.u64 Json.u64_ne_null) <|
      .cons (.omitted "total" Json.u64 Json.u64_ne_null) .nil)
    (fun (protocol, id, frameType, event, message, completed, total, ()) =>
      ⟨protocol, id, frameType, event, message, completed, total⟩)
    (fun x => (x.protocol, x.id, x.frameType, x.event, x.message, x.completed, x.total, ()))
    fun _ => rfl

def RawProgressEventFrame.codec : Codec json RawProgressEventFrame :=
  Json.record RawProgressEventFrame.record (by decide)

namespace ProgressEventFrame

/-- `ProgressEventFrame::from_parts`. -/
def fromParts (protocol id : Str) (frameType : EventFrameType) (event : PluginEventKind)
    (message : Str) (completed total : Option UInt64) :
    Except ProgressEventError ProgressEventFrame :=
  match completed, total with
  | none, none => .ok ⟨protocol, id, frameType, event, message, none, none⟩
  | some completed, some total =>
      if 0 < total ∧ completed ≤ total then
        .ok ⟨protocol, id, frameType, event, message, some completed, some total⟩
      else if total = 0 then .error ⟨"progress total must be greater than zero"⟩
      else .error ⟨"progress completed value exceeds total"⟩
  | _, _ => .error ⟨"progress completed and total must be provided together"⟩

/-- `ProgressEventFrame::new`. -/
def new (id message : Str) (progress : Option (UInt64 × UInt64)) :
    Except ProgressEventError ProgressEventFrame :=
  fromParts protocolV1 id .event .progress message (progress.map (·.1)) (progress.map (·.2))

/-- `derive(Serialize)`: `completed` and `total` are skipped when they are absent. -/
def record : Record json ProgressEventFrame :=
  .map (.cons (.required "protocol" Json.str) <| .cons (.required "id" Json.str) <|
      .cons (.required "type" EventFrameType.codec) <|
      .cons (.required "event" PluginEventKind.codec) <|
      .cons (.required "message" Json.str) <| .cons (.omitted "completed" Json.u64 Json.u64_ne_null) <|
      .cons (.omitted "total" Json.u64 Json.u64_ne_null) .nil)
    (fun (protocol, id, frameType, event, message, completed, total, ()) =>
      ⟨protocol, id, frameType, event, message, completed, total⟩)
    (fun x => (x.protocol, x.id, x.frameType, x.event, x.message, x.completed, x.total, ()))
    fun _ => rfl

def write (frame : ProgressEventFrame) : Tree := .map (record.write frame)

/-- `ProgressEventFrame::deserialize`. -/
def read (t : Tree) : Option ProgressEventFrame :=
  (RawProgressEventFrame.codec.read t).bind fun raw =>
    (fromParts raw.protocol raw.id raw.frameType raw.event raw.message raw.completed
      raw.total).toOption

/-- What `new` enforces: no progress, or progress up to a total that is not zero. -/
def Consistent (frame : ProgressEventFrame) : Prop :=
  frame.completed = none ∧ frame.total = none ∨
  ∃ completed total, frame.completed = some completed ∧ frame.total = some total ∧ 0 < total ∧
    completed ≤ total

/-- The parts that make a frame are those of a consistent one. -/
theorem fromParts_eq_ok_iff {frame : ProgressEventFrame} {protocol id message : Str}
    {frameType : EventFrameType} {event : PluginEventKind} {completed total : Option UInt64} :
    fromParts protocol id frameType event message completed total = .ok frame ↔
      frame = ⟨protocol, id, frameType, event, message, completed, total⟩ ∧ frame.Consistent := by
  rcases completed with _ | completed <;> rcases total with _ | total
  · constructor
    · intro h
      cases h
      exact ⟨rfl, Or.inl ⟨rfl, rfl⟩⟩
    · rintro ⟨rfl, _⟩
      rfl
  · refine ⟨fun h => (by cases h), ?_⟩
    rintro ⟨rfl, ⟨_, ⟨⟩⟩ | ⟨_, _, ⟨⟩, _⟩⟩
  · refine ⟨fun h => (by cases h), ?_⟩
    rintro ⟨rfl, ⟨⟨⟩, _⟩ | ⟨_, _, _, ⟨⟩, _⟩⟩
  · rw [fromParts]
    constructor
    · intro h
      split at h
      · rename_i hprogress
        cases h
        exact ⟨rfl, Or.inr ⟨completed, total, rfl, rfl, hprogress.1, hprogress.2⟩⟩
      · split at h <;> cases h
    · rintro ⟨rfl, ⟨⟨⟩, _⟩ | ⟨_, _, ⟨⟩, ⟨⟩, hpositive, hle⟩⟩
      rw [if_pos ⟨hpositive, hle⟩]

/-- A frame is read back from what it is written as when it is consistent. -/
theorem read_write {frame : ProgressEventFrame} (h : frame.Consistent) :
    read frame.write = some frame := by
  have hraw : frame.write = RawProgressEventFrame.codec.write ⟨frame.protocol, frame.id,
      frame.frameType, frame.event, frame.message, frame.completed, frame.total⟩ := rfl
  rw [read, hraw, Codec.reads, Option.bind_some, fromParts_eq_ok_iff.mpr ⟨rfl, h⟩]
  rfl

/-- What is read is consistent. -/
theorem read_eq_some_iff {t : Tree} {frame : ProgressEventFrame} :
    read t = some frame ↔ RawProgressEventFrame.codec.read t = some ⟨frame.protocol, frame.id,
      frame.frameType, frame.event, frame.message, frame.completed, frame.total⟩ ∧
      frame.Consistent := by
  rw [read, Option.bind_eq_some_iff]
  constructor
  · rintro ⟨raw, hraw, h⟩
    have hparts := Data.toOption_eq_some_iff.mp h
    obtain ⟨rfl, hconsistent⟩ := fromParts_eq_ok_iff.mp hparts
    exact ⟨hraw, hconsistent⟩
  · rintro ⟨hraw, hconsistent⟩
    exact ⟨_, hraw, by rw [fromParts_eq_ok_iff.mpr ⟨rfl, hconsistent⟩]; rfl⟩

end ProgressEventFrame

end Prep.Protocol
