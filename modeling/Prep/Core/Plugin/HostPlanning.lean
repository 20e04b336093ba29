/-
  Core/Plugin/HostPlanning.lean --- requests to a host provider, and the answers to them.

  A request is prepared by one function and its answer is judged by another.  The two fit
  as long as the request has an id, and an id that leaves room for an answer.

  A response is a text that somebody has received; the transport is left out, and so is what the
  host does with an accepted plan.
-/
import Prep.Core.Plugin.Probe
import Prep.Serde.Bounded

set_option autoImplicit false

namespace Prep.Core.Plugin

open Prep.Data
open Prep.Protocol
open Prep.Serde
open Prep.Text

/-! ## The request -/

/-- `valid_host_identifier`. -/
def validHostIdentifier (value punctuation : Bytes) (rejectTraversal : Bool) : Bool :=
  !value.isEmpty && decide (value.length ≤ 256) && value.head?.any isAsciiAlphanumeric &&
    (!rejectTraversal || !decide (ascii ".." <:+: value)) &&
    value.all fun byte => isAsciiAlphanumeric byte || punctuation.contains byte

/-- The punctuation a package of a manager may have. -/
def packagePunctuation (manager : Bytes) : Bytes :=
  if manager = ascii "brew" then ascii "+._-@/"
  else if manager = ascii "apt" then ascii "+._-:"
  else ascii "+._-"

/-- The dependencies `prepare_host_planning_request` takes. -/
def validHostDependency (dependency : HostDependency) : Bool :=
  validHostIdentifier dependency.manager.bytes (ascii "+._-") true &&
    validHostIdentifier dependency.package.bytes (packagePunctuation dependency.manager.bytes)
      true &&
    !dependency.version.any fun version =>
      !validHostIdentifier version.bytes (ascii "+._-:~") false

/-- `PluginOperation::from`. -/
def pluginOperation : HostPlanningOperation → PluginOperation
  | .probeHostDependency => .probeHostDependency
  | .planHostChange => .planHostChange

/-- `prepare_host_planning_request`. -/
def prepareHostPlanningRequest (plugin : PluginDescriptor) (policy : PluginAdmissionPolicy)
    (operation : HostPlanningOperation) (dependency : HostDependency) (id : Str) :
    Except PluginProbeError HostPlanningRequest :=
  match admitCapabilities plugin.capabilities policy with
  | .error e => .error e
  | .ok () =>
      if pluginOperation operation ∉ plugin.operations then
        .error (.invalidHandshake "host provider did not declare requested operation")
      else if .hostPackageManager ∉ plugin.capabilities then
        .error (.policyDenied .hostPackageManager)
      else if policy.allows .hostPackageManager = false then
        .error (.policyDenied .hostPackageManager)
      else if validHostDependency dependency = false then
        .error (.protocol "invalid host dependency identifier")
      else .ok (.new id operation dependency)

/-- What has to hold for a request. -/
structure Preparable (plugin : PluginDescriptor) (policy : PluginAdmissionPolicy)
    (operation : HostPlanningOperation) (dependency : HostDependency) : Prop where
  allowed : ∀ capability ∈ plugin.capabilities, policy.allows capability = true
  declared : pluginOperation operation ∈ plugin.operations
  capable : PluginCapability.hostPackageManager ∈ plugin.capabilities
  dependency : validHostDependency dependency = true

section Preparation

variable {plugin : PluginDescriptor} {policy : PluginAdmissionPolicy}
  {operation : HostPlanningOperation} {dependency : HostDependency} {id : Str}
  {request : HostPlanningRequest}

theorem prepareHostPlanningRequest_eq_ok_iff :
    prepareHostPlanningRequest plugin policy operation dependency id = .ok request ↔
      Preparable plugin policy operation dependency ∧ request = .new id operation dependency := by
  rw [prepareHostPlanningRequest]
  constructor
  · intro h
    split at h
    · cases h
    · rename_i hadmit
      split at h
      · cases h
      · rename_i hdeclared
        split at h
        · cases h
        · rename_i hcapable
          split at h
          · cases h
          · split at h
            · cases h
            · rename_i hdependency
              cases h
              exact ⟨⟨admitCapabilities_eq_ok_iff.mp hadmit, not_not.mp hdeclared,
                not_not.mp hcapable, Bool.not_eq_false _ ▸ hdependency⟩, rfl⟩
  · rintro ⟨hpreparable, rfl⟩
    rw [admitCapabilities_eq_ok_iff.mpr hpreparable.allowed]
    dsimp only
    rw [if_neg (not_not.mpr hpreparable.declared), if_neg (not_not.mpr hpreparable.capable),
      if_neg (ne_false_of_eq_true (hpreparable.allowed _ hpreparable.capable)),
      if_neg (ne_false_of_eq_true hpreparable.dependency)]

end Preparation

/-! ## The answer -/

/-- The payload of the answers to an operation. -/
def responsePayload : HostPlanningOperation → Payload
  | .probeHostDependency => .hostProbe
  | .planHostChange => .hostChangePlan

/-- `str::trim`, on code points. -/
def trim (text : Bytes) : List Nat :=
  ((Utf8.codePoints text).dropWhile Utf8.isWhitespace).rdropWhile Utf8.isWhitespace

/-- `validate_host_response_envelope`. -/
def validateHostResponseEnvelope {T : Type} (response : ResultFrame T) (requestId : Str) :
    Except PluginProbeError Unit :=
  if response.protocol ≠ protocolV1 ∨ response.id ≠ requestId then
    .error (.invalidResult "host response protocol or correlation id mismatch")
  else .ok ()

section Responses

variable (s : SerdeJson)

/-- `validate_host_planning_response`. -/
def validateHostPlanningResponse (request : HostPlanningRequest) (expectedProvider : Str)
    (responseJson : Str) : Except PluginProbeError Unit :=
  if request.protocol ≠ protocolV1 ∨ request.id.bytes = [] ∨ expectedProvider.bytes = [] then
    .error (.invalidResult "invalid host planning request context")
  else
    match request.operation with
    | .probeHostDependency => do
        let response ← (decodeFrame s (ResultFrame.codec HostProbeResult.codec).read
          responseJson.bytes defaultMaxFrameBytes).mapError fun error => .protocol error.display
        validateHostResponseEnvelope response request.id
        match response with
        | .ok _ _ _ value =>
            if value.present = false ∧ value.installedVersion.isSome = true then
              .error (.invalidResult "absent dependency has installed version")
            else .ok ()
        | .error .. => .ok ()
    | .planHostChange => do
        let response ← (decodeFrame s (ResultFrame.codec HostChangePlan.codec).read
          responseJson.bytes defaultMaxFrameBytes).mapError fun error => .protocol error.display
        validateHostResponseEnvelope response request.id
        match response with
        | .ok _ _ _ value =>
            if value.provider ≠ expectedProvider ∨ value.dependency ≠ request.dependency ∨
                trim value.summary.bytes = [] then
              .error (.invalidResult "host plan attribution or dependency mismatch")
            else .ok ()
        | .error .. => .ok ()

end Responses

/-! ## Which answers are accepted -/

/-- A text without a character that is seen. -/
def Blank (text : Bytes) : Prop := ∀ c ∈ Utf8.codePoints text, Utf8.isWhitespace c = true

/-- What the payload of an answer has to be. -/
def Fitting (dependency : HostDependency) (provider : Str) :
    (operation : HostPlanningOperation) → (responsePayload operation).Value → Prop
  | .probeHostDependency, (value : HostProbeResult) =>
      ¬ (value.present = false ∧ value.installedVersion.isSome = true)
  | .planHostChange, (value : HostChangePlan) =>
      value.provider = provider ∧ value.dependency = dependency ∧ ¬ Blank value.summary.bytes

/-- An answer to a request: an error, or a payload that fits. -/
structure Responds (request : HostPlanningRequest) (provider : Str)
    (frame : ResultFrame (responsePayload request.operation).Value) : Prop where
  protocol : frame.protocol = protocolV1
  id : frame.id = request.id
  payload : ∀ protocol id frameType value, frame = .ok protocol id frameType value →
    Fitting request.dependency provider request.operation value

section Judgement

variable {s : SerdeJson}

/-- A text is the JSON of a frame, up to its line ends. -/
def Decodes (s : SerdeJson) (payload : Payload) (text : Str) (frame : ResultFrame payload.Value) :
    Prop :=
  trimLineEnd text.bytes ≠ [] ∧ ∃ t, s.ofText (trimLineEnd text.bytes) = .ok t ∧
    (ResultFrame.codec payload.codec).read t = some frame

theorem trim_eq_nil_iff {text : Bytes} : trim text = [] ↔ Blank text := by
  rw [trim, List.rdropWhile_eq_nil_iff]
  constructor
  · intro h
    refine List.dropWhile_eq_nil_iff.mp ?_
    by_contra hne
    exact absurd (h _ (List.head_mem hne)) (ne_true_of_eq_false (List.head_dropWhile_not _ hne))
  · intro h
    rw [List.dropWhile_eq_nil_iff.mpr h]
    exact fun c hc => absurd hc List.not_mem_nil

theorem length_trimLineEnd_le (text : Bytes) : (trimLineEnd text).length ≤ text.length :=
  List.IsPrefix.length_le (List.rdropWhile_prefix _ _)

/-- An answer passes when it is decoded, is about the request, and passes its own check. -/
theorem judged_eq_ok_iff {payload : Payload} {text : Str} {requestId : Str}
    {check : ResultFrame payload.Value → Except PluginProbeError Unit}
    (hlength : text.bytes.length ≤ defaultMaxFrameBytes.toNat) :
    (do
      let response ← (decodeFrame s (ResultFrame.codec payload.codec).read text.bytes
        defaultMaxFrameBytes).mapError fun error => PluginProbeError.protocol (CodecError.display error)
      validateHostResponseEnvelope response requestId
      check response) = .ok () ↔
    ∃ response, Decodes s payload text response ∧
      (response.protocol = protocolV1 ∧ response.id = requestId) ∧ check response = .ok () := by
  rw [bind_eq_ok_iff]
  refine exists_congr fun response => and_congr ?_ ?_
  · rw [mapError_eq_ok_iff, decodeFrame_eq_ok_iff, checkFrame_eq_ok_iff]
    exact ⟨fun ⟨⟨hne, _⟩, h⟩ => ⟨hne, h⟩,
      fun ⟨hne, h⟩ => ⟨⟨hne, (length_trimLineEnd_le _).trans hlength⟩, h⟩⟩
  · rw [check_bind_eq_ok_iff, validateHostResponseEnvelope]
    refine and_congr_left fun _ => ?_
    split
    · rename_i hother
      refine ⟨fun h => (by cases h), fun h => ?_⟩
      rcases hother with hprotocol | hid
      · exact absurd h.1 hprotocol
      · exact absurd h.2 hid
    · rename_i hsame
      rw [not_or, not_not, not_not] at hsame
      exact ⟨fun _ => hsame, fun _ => rfl⟩

theorem error_responds_iff {request : HostPlanningRequest} {provider protocol id : Str}
    {frameType : ResultFrameType} {body : ProtocolErrorBody} :
    ((protocol = protocolV1 ∧ id = request.id) ∧
        (Except.ok () : Except PluginProbeError Unit) = .ok ()) ↔
      Responds request provider (.error protocol id frameType body) :=
  ⟨fun h => ⟨h.1.1, h.1.2, fun _ _ _ _ heq => (by cases heq)⟩,
    fun h => ⟨⟨h.protocol, h.id⟩, rfl⟩⟩

theorem validateHostPlanningResponse_eq_ok_iff {request : HostPlanningRequest}
    {provider text : Str} (hlength : text.bytes.length ≤ defaultMaxFrameBytes.toNat) :
    validateHostPlanningResponse s request provider text = .ok () ↔
      (request.protocol = protocolV1 ∧ request.id.bytes ≠ [] ∧ provider.bytes ≠ []) ∧
      ∃ frame, Decodes s (responsePayload request.operation) text frame ∧
        Responds request provider frame := by
  rw [validateHostPlanningResponse]
  by_cases hcontext :
      request.protocol ≠ protocolV1 ∨ request.id.bytes = [] ∨ provider.bytes = []
  · rw [if_pos hcontext]
    refine ⟨fun h => (by cases h), fun ⟨⟨hprotocol, hid, hprovider⟩, _⟩ => ?_⟩
    rcases hcontext with h | h | h
    · exact absurd hprotocol h
    · exact absurd h hid
    · exact absurd h hprovider
  · rw [if_neg hcontext]
    rw [not_or, not_or, not_not] at hcontext
    rw [and_iff_right hcontext]
    obtain ⟨protocol, id, operation, dependency⟩ := request
    cases operation with
    | probeHostDependency =>
        refine (@judged_eq_ok_iff s .hostProbe text id _ hlength).trans ?_
        refine exists_congr fun response => and_congr_right fun _ => ?_
        cases response with
        | ok =>
            refine ⟨fun ⟨⟨hprotocol, hid⟩, hcheck⟩ => ⟨hprotocol, hid, ?_⟩, fun h =>
              ⟨⟨h.protocol, h.id⟩, if_neg (h.payload _ _ _ _ rfl)⟩⟩
            rintro _ _ _ _ ⟨⟩ habsent
            cases hcheck.symm.trans (if_pos habsent)
        | error protocol' id' frameType body =>
            exact @error_responds_iff ⟨protocol, id, .probeHostDependency, dependency⟩ provider
              protocol' id' frameType body
    | planHostChange =>
        refine (@judged_eq_ok_iff s .hostChangePlan text id _ hlength).trans ?_
        refine exists_congr fun response => and_congr_right fun _ => ?_
        cases response with
        | ok protocol' id' frameType value =>
            have hfitting : (value.provider ≠ provider ∨ value.dependency ≠ dependency ∨
                trim value.summary.bytes = []) ↔
                ¬ Fitting dependency provider .planHostChange value := by
              show _ ↔ ¬ (value.provider = provider ∧ value.dependency = dependency ∧
                ¬ Blank value.summary.bytes)
              rw [trim_eq_nil_iff, not_and_or, not_and_or, not_not]
            refine ⟨fun ⟨⟨hprotocol, hid⟩, hcheck⟩ => ⟨hprotocol, hid, ?_⟩, fun h =>
              ⟨⟨h.protocol, h.id⟩, if_neg (not_not.mpr (h.payload _ _ _ _ rfl) ∘ hfitting.mp)⟩⟩
            rintro _ _ _ _ ⟨⟩
            by_contra hother
            cases hcheck.symm.trans (if_pos (hfitting.mpr hother))
        | error protocol' id' frameType body =>
            exact @error_responds_iff ⟨protocol, id, .planHostChange, dependency⟩ provider
              protocol' id' frameType body

/-- A frame has a text that is its JSON. -/
theorem exists_decodes (payload : Payload) (frame : ResultFrame payload.Value) :
    ∃ text : Str, encodeFrame s ((ResultFrame.codec payload.codec).write frame) = .ok text.bytes ∧
      Decodes s payload text frame := by
  obtain ⟨text, hencode, hback, hne, hclean⟩ :=
    s.reads_back _ (Frame.fits_write (.result payload) frame)
  refine ⟨⟨text, hclean.1⟩, hencode, ?_⟩
  rw [Decodes, trimLineEnd_of_clean hclean]
  exact ⟨hne, _, hback, (ResultFrame.codec payload.codec).reads frame⟩

end Judgement

theorem isAscii_summary : (ascii "ready").all isAscii = true := by decide

/-- Whatever is asked of a provider, it can say that the package is absent, or that it would
install it. -/
theorem exists_responds (request : HostPlanningRequest) (provider : Str) :
    ∃ value, Responds request provider (.ok protocolV1 request.id .result value) := by
  obtain ⟨protocol, id, operation, dependency⟩ := request
  cases operation with
  | probeHostDependency =>
      refine ⟨(⟨false, none⟩ : HostProbeResult), rfl, rfl, ?_⟩
      rintro _ _ _ _ ⟨⟩ ⟨_, hversion⟩
      cases hversion
  | planHostChange =>
      refine ⟨(⟨provider, dependency, .install, false, .ofAscii "ready" isAscii_summary⟩ :
        HostChangePlan), rfl, rfl, ?_⟩
      rintro _ _ _ _ ⟨⟩
      refine ⟨rfl, rfl, fun hblank => ?_⟩
      have hletter : Utf8.isWhitespace 114 = true := hblank 114 List.mem_cons_self
      exact absurd hletter (by decide)

/-- A request that has been prepared with an id accepts the answers to it and no other text
of at most a mebibyte.  There is an answer to it, and one is accepted when its JSON is no
larger. -/
theorem hostPlanning_answered (s : SerdeJson) {plugin : PluginDescriptor}
    {policy : PluginAdmissionPolicy} {operation : HostPlanningOperation}
    {dependency : HostDependency} {id : Str} {request : HostPlanningRequest}
    (hprepared : prepareHostPlanningRequest plugin policy operation dependency id = .ok request)
    (hid : id.bytes ≠ []) {provider : Str} (hprovider : provider.bytes ≠ []) :
    (∀ text : Str, text.bytes.length ≤ 1024 * 1024 →
      (validateHostPlanningResponse s request provider text = .ok () ↔
        ∃ frame, Decodes s (responsePayload request.operation) text frame ∧
          Responds request provider frame)) ∧
    (∃ value, Responds request provider (.ok protocolV1 request.id .result value)) ∧
    ∀ frame, Responds request provider frame → ∃ text : Str,
      encodeFrame s ((ResultFrame.codec (responsePayload request.operation).codec).write frame) =
        .ok text.bytes ∧
      (text.bytes.length ≤ 1024 * 1024 →
        validateHostPlanningResponse s request provider text = .ok ()) := by
  obtain ⟨_, rfl⟩ := prepareHostPlanningRequest_eq_ok_iff.mp hprepared
  have haccepted : ∀ text : Str, text.bytes.length ≤ 1024 * 1024 →
      (validateHostPlanningResponse s (.new id operation dependency) provider text = .ok () ↔
        ∃ frame, Decodes s (responsePayload operation) text frame ∧
          Responds (.new id operation dependency) provider frame) := fun text hlength =>
    (validateHostPlanningResponse_eq_ok_iff hlength).trans
      (and_iff_right ⟨rfl, hid, hprovider⟩)
  refine ⟨haccepted, exists_responds _ provider, fun frame hresponds => ?_⟩
  obtain ⟨text, hencode, hdecodes⟩ := exists_decodes (responsePayload operation) frame
  exact ⟨text, hencode, fun hlength => (haccepted text hlength).mpr ⟨frame, hdecodes, hresponds⟩⟩

/-! ## Requests that have no answer -/

section Unanswered

theorem isAscii_brew : (ascii "brew").all isAscii = true := by decide

/-- `brew`, as the manager and as the provider. -/
def brew : Str := .ofAscii "brew" isAscii_brew

/-- A provider for `brew`. -/
def brewPlugin : PluginDescriptor where
  name := brew
  version := .ofAscii "1.0.0" (by decide)
  operations := [.probeHostDependency, .planHostChange]
  capabilities := [.hostPackageManager]

/-- `zlib` from `brew`. -/
def zlib : HostDependency where
  manager := brew
  package := .ofAscii "zlib" (by decide)
  version := none

theorem prepare_zlib (operation : HostPlanningOperation) (id : Str) :
    prepareHostPlanningRequest brewPlugin ⟨{.hostPackageManager}⟩ operation zlib id =
      .ok (.new id operation zlib) := by
  refine prepareHostPlanningRequest_eq_ok_iff.mpr ⟨⟨?_, ?_, List.mem_singleton_self _, ?_⟩, rfl⟩
  · intro capability hcapability
    rw [List.mem_singleton.mp hcapability]
    decide
  · cases operation <;> decide
  · decide +kernel

/-- A request whose id is empty. -/
def unnamed : HostPlanningRequest := .new ⟨[], rfl⟩ .probeHostDependency zlib

/-- That `zlib` is absent. -/
def absentAnswer : ResultFrame HostProbeResult :=
  .ok protocolV1 ⟨[], rfl⟩ .result ⟨false, none⟩

theorem valid_long : Utf8.valid (List.replicate (1024 * 1024 + 1) 97) = true :=
  Utf8.valid_of_isAscii (by rw [List.all_replicate, if_neg (by decide)]; decide)

/-- A request whose id is longer than a frame may be. -/
def longRequest : HostPlanningRequest := .new ⟨_, valid_long⟩ .probeHostDependency zlib

/-- The id of a frame is no longer than its text. -/
theorem length_id_le {payload : Payload} {text : Str} {frame : ResultFrame payload.Value}
    (h : Decodes compactJson payload text frame) :
    frame.id.bytes.length ≤ text.bytes.length := by
  obtain ⟨_, t, htext, hread⟩ := h
  have hfits := length_trimLineEnd_le text.bytes
  cases hcompact : Compact.readAt jsonDepth (trimLineEnd text.bytes) with
  | none =>
      simp only [compactJson, hcompact] at htext
      cases htext
  | some p =>
      obtain ⟨found, rest⟩ := p
      obtain ⟨_, hstrings⟩ := Compact.within_readAt jsonDepth _ _ _ hfits hcompact
      cases rest with
      | nil =>
          simp only [compactJson, hcompact] at htext
          cases htext
          exact ResultFrame.ok_id hread hstrings
      | cons =>
          simp only [compactJson, hcompact] at htext
          cases htext

/-- An empty id is prepared, and the answer to it is refused; an id longer than a frame may
be is prepared, and no answer to it is short enough. -/
theorem hostPlanning_answered_unanswered :
    (prepareHostPlanningRequest brewPlugin ⟨{.hostPackageManager}⟩ .probeHostDependency zlib
        ⟨[], rfl⟩ = .ok unnamed ∧ brew.bytes ≠ [] ∧
      ∃ text : Str, text.bytes.length ≤ 1024 * 1024 ∧
        Decodes compactJson .hostProbe text absentAnswer ∧ Responds unnamed brew absentAnswer ∧
        validateHostPlanningResponse compactJson unnamed brew text ≠ .ok ()) ∧
    prepareHostPlanningRequest brewPlugin ⟨{.hostPackageManager}⟩ .probeHostDependency zlib
        ⟨_, valid_long⟩ = .ok longRequest ∧
      ∀ text : Str, text.bytes.length ≤ 1024 * 1024 →
        validateHostPlanningResponse compactJson longRequest brew text ≠ .ok () := by
  have hbrew : brew.bytes ≠ [] := by decide
  refine ⟨⟨prepare_zlib _ _, hbrew, ?_⟩, prepare_zlib _ _, fun text hlength hok => ?_⟩
  · obtain ⟨text, hencode, hdecodes⟩ := @exists_decodes compactJson .hostProbe absentAnswer
    have hlength : text.bytes.length ≤ 1024 * 1024 := by
      rw [← Except.ok.inj hencode]
      decide +kernel
    refine ⟨text, hlength, hdecodes, ⟨rfl, rfl, ?_⟩, fun hok => ?_⟩
    · rintro _ _ _ _ ⟨⟩ ⟨_, hversion⟩
      cases hversion
    · obtain ⟨⟨_, hid, _⟩, _⟩ := (validateHostPlanningResponse_eq_ok_iff hlength).mp hok
      exact hid rfl
  · obtain ⟨_, frame, hdecodes, hresponds⟩ :=
      (validateHostPlanningResponse_eq_ok_iff hlength).mp hok
    have hle := length_id_le hdecodes
    rw [hresponds.id, longRequest, HostPlanningRequest.new, List.length_replicate] at hle
    omega

/-- The plan to install `zlib` is accepted. -/
theorem hostPlanning_answered_zlib :
    ∃ text : Str, text.bytes.length ≤ 1024 * 1024 ∧
      validateHostPlanningResponse compactJson (.new brew .planHostChange zlib) brew text =
        .ok () := by
  have hbrew : brew.bytes ≠ [] := by decide
  have hplan : Responds (.new brew .planHostChange zlib) brew
      (.ok protocolV1 brew .result (⟨brew, zlib, .install, false, brew⟩ : HostChangePlan)) := by
    refine ⟨rfl, rfl, ?_⟩
    rintro _ _ _ _ ⟨⟩
    refine ⟨rfl, rfl, fun hblank => ?_⟩
    have hletter : Utf8.isWhitespace 98 = true := hblank 98 List.mem_cons_self
    exact absurd hletter (by decide)
  obtain ⟨_, _, hanswered⟩ := hostPlanning_answered compactJson
    (prepare_zlib .planHostChange brew) hbrew hbrew
  obtain ⟨text, hencode, haccepted⟩ := hanswered _ hplan
  have hlength : text.bytes.length ≤ 1024 * 1024 := by
    rw [← Except.ok.inj hencode]
    decide +kernel
  exact ⟨text, hlength, haccepted hlength⟩

end Unanswered

end Prep.Core.Plugin
