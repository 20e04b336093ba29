/-
  Protocol/Wire.lean --- frames on the wire.

  A frame is written as one line of compact JSON.  What is written is read back, and
  what is read has the fields of its frame and no others.

  Scope: every frame type of the protocol, under the largest number of bytes a caller allows.  A
  text that is read may have its keys in any order and blanks between them, and the tree it is
  read as is `serde_json`'s, which is a parameter.
-/
import Prep.Protocol.Results

set_option autoImplicit false

namespace Prep.Protocol

open Prep.Serde
open Prep.Text

/-- `CodecError`. -/
inductive CodecError where
  | emptyFrame
  | frameTooLarge (actual : Nat) (maximum : UInt64)
  | invalidJson (error : String)
  deriving DecidableEq, Repr

/-- `impl Display for CodecError`. -/
def CodecError.display : CodecError → String
  | .emptyFrame => "protocol frame is empty"
  | .frameTooLarge actual maximum =>
      s!"protocol frame is {actual} bytes; maximum is {maximum} bytes"
  | .invalidJson error => s!"invalid protocol JSON: {error}"

/-! ## Encoding and decoding -/

/-- `'\r'` and `'\n'`. -/
def isLineEnd (b : UInt8) : Bool := b == 13 || b == 10

/-- `trim_end_matches(['\r', '\n'])`. -/
def trimLineEnd (line : Bytes) : Bytes := line.rdropWhile isLineEnd

/-- The check of `decode_frame` before it reads JSON. -/
def checkFrame (line : Bytes) (maximum : UInt64) : Except CodecError Bytes :=
  let frame := trimLineEnd line
  if frame.isEmpty then .error .emptyFrame
  else if maximum.toNat < frame.length then .error (.frameTooLarge frame.length maximum)
  else .ok frame

section Codecs

variable {α : Type} (s : SerdeJson)

/-- `encode_frame`. -/
def encodeFrame (frame : Tree) : Except String Bytes := s.toText frame

/-- `decode_frame`. -/
def decodeFrame (read : Tree → Option α) (line : Bytes) (maximum : UInt64) :
    Except CodecError α :=
  match checkFrame line maximum with
  | .error e => .error e
  | .ok frame => (s.fromStr read frame).mapError .invalidJson

variable {s}

/-- What is decoded is the value of the JSON on the line. -/
theorem decodeFrame_eq_ok_iff {read : Tree → Option α} {line : Bytes} {maximum : UInt64}
    {value : α} : decodeFrame s read line maximum = .ok value ↔
      checkFrame line maximum = .ok (trimLineEnd line) ∧
        ∃ t, s.ofText (trimLineEnd line) = .ok t ∧ read t = some value := by
  rw [← SerdeJson.fromStr_eq_ok_iff, decodeFrame, checkFrame]
  split
  · rename_i e heq
    refine ⟨fun h => (by cases h), fun ⟨h, _⟩ => ?_⟩
    rw [h] at heq
    cases heq
  · rename_i frame heq
    obtain rfl : trimLineEnd line = frame := by
      split at heq
      · cases heq
      · split at heq
        · cases heq
        · exact Except.ok.inj heq
    cases s.fromStr read (trimLineEnd line) with
    | error e => exact ⟨fun h => (by cases h), fun ⟨_, h⟩ => (by cases h)⟩
    | ok found =>
        constructor
        · intro h
          cases h
          exact ⟨heq, rfl⟩
        · rintro ⟨_, h⟩
          cases h
          rfl

theorem checkFrame_eq_ok_iff {line : Bytes} {maximum : UInt64} :
    checkFrame line maximum = .ok (trimLineEnd line) ↔
      trimLineEnd line ≠ [] ∧ (trimLineEnd line).length ≤ maximum.toNat := by
  rw [checkFrame]
  split
  · rename_i h
    refine ⟨fun hfalse => (by cases hfalse), fun hfalse => ?_⟩
    exact absurd (List.isEmpty_iff.mp h) hfalse.1
  · rename_i hne
    split
    · rename_i hlt
      exact ⟨fun hfalse => (by cases hfalse), fun hfalse => absurd hfalse.2 (by omega)⟩
    · rename_i hle
      exact ⟨fun _ => ⟨fun hnil => hne (List.isEmpty_iff.mpr hnil), by omega⟩, fun _ => rfl⟩

/-- Printable text ends in no line end. -/
theorem trimLineEnd_of_clean {text : Bytes} (h : Compact.Clean text) : trimLineEnd text = text := by
  refine List.rdropWhile_eq_self_iff.mpr fun hne hend => ?_
  have hlow := h.2 _ (List.getLast_mem hne)
  rw [isLineEnd, Bool.or_eq_true, beq_iff_eq, beq_iff_eq] at hend
  rcases hend with hend | hend <;> rw [hend] at hlow <;> exact absurd hlow (by decide)

/-- A frame that fits the maximum is decoded from what it is encoded as. -/
theorem decodeFrame_encodeFrame {read : Tree → Option α} {t : Tree} {value : α}
    (hfits : t.Fits json jsonDepth) (hread : read t = some value) :
    ∃ text, encodeFrame s t = .ok text ∧ text ≠ [] ∧ Compact.Clean text ∧
      ∀ maximum : UInt64, text.length ≤ maximum.toNat →
        decodeFrame s read text maximum = .ok value := by
  obtain ⟨text, hwrite, hback, hne, hclean⟩ := s.reads_back t hfits
  refine ⟨text, hwrite, hne, hclean, fun maximum hlength => ?_⟩
  rw [decodeFrame_eq_ok_iff, checkFrame_eq_ok_iff, trimLineEnd_of_clean hclean]
  exact ⟨⟨hne, hlength⟩, t, hback, hread⟩

end Codecs

/-! ## The frames of the protocol -/

/-- The result payloads of the crate. -/
inductive Payload where
  | probeBuildSystem
  | configure
  | build
  | test
  | installToStaging
  | hostProbe
  | hostChangePlan
  deriving DecidableEq, Repr

def Payload.Value : Payload → Type
  | .probeBuildSystem => ProbeBuildSystemResult
  | .configure => ConfigureResult
  | .build => BuildResult
  | .test => TestResult
  | .installToStaging => InstallToStagingResult
  | .hostProbe => HostProbeResult
  | .hostChangePlan => HostChangePlan

def Payload.codec : (payload : Payload) → Codec json payload.Value
  | .probeBuildSystem => ProbeBuildSystemResult.codec
  | .configure => ConfigureResult.codec
  | .build => BuildResult.codec
  | .test => TestResult.codec
  | .installToStaging => InstallToStagingResult.codec
  | .hostProbe => HostProbeResult.codec
  | .hostChangePlan => HostChangePlan.codec

/-- The frames that go over the wire. -/
inductive Frame where
  | hello
  | helloResult
  | builderRequest
  | hostPlanning
  | result (payload : Payload)
  | progress
  deriving DecidableEq, Repr

namespace Frame

def Value : Frame → Type
  | .hello => HelloFrame
  | .helloResult => HelloResultFrame
  | .builderRequest => BuilderRequestFrame
  | .hostPlanning => HostPlanningRequest
  | .result payload => ResultFrame payload.Value
  | .progress => ProgressEventFrame

def write : (frame : Frame) → frame.Value → Tree
  | .hello => HelloFrame.codec.write
  | .helloResult => HelloResultFrame.codec.write
  | .builderRequest => BuilderRequestFrame.codec.write
  | .hostPlanning => HostPlanningRequest.codec.write
  | .result payload => (ResultFrame.codec payload.codec).write
  | .progress => ProgressEventFrame.write

def read : (frame : Frame) → Tree → Option frame.Value
  | .hello => HelloFrame.codec.read
  | .helloResult => HelloResultFrame.codec.read
  | .builderRequest => BuilderRequestFrame.codec.read
  | .hostPlanning => HostPlanningRequest.codec.read
  | .result payload => (ResultFrame.codec payload.codec).read
  | .progress => ProgressEventFrame.read

/-- The fields of a frame. -/
def fields : (frame : Frame) → frame.Value → List String
  | .hello, _ => ["protocol", "id", "type", "prep_version"]
  | .helloResult, _ => ["protocol", "id", "type", "plugin"]
  | .builderRequest, _ => ["protocol", "id", "type", "package", "context", "arguments"]
  | .hostPlanning, _ => ["protocol", "id", "type", "dependency"]
  | .result _, .ok .. => ["status", "protocol", "id", "type", "value"]
  | .result _, .error .. => ["status", "protocol", "id", "type", "error"]
  | .progress, _ => ["protocol", "id", "type", "event", "message", "completed", "total"]

/-- What a constructor makes sure of. -/
def Enforced : (frame : Frame) → frame.Value → Prop
  | .progress, x => ProgressEventFrame.Consistent x
  | _, _ => True

/-- Values as they come about: any, and for a progress event what `new` returns. -/
def Made : (frame : Frame) → frame.Value → Prop
  | .progress, x => ∃ id message progress, ProgressEventFrame.new id message progress = .ok x
  | _, _ => True

/-- What the object of a decoded frame says: of a result, its status and the one of
`value` and `error` that goes with it. -/
def Says : (frame : Frame) → frame.Value → List (Bytes × Tree) → Prop
  | .result _, .ok .., entries => entries.lookup (ascii "status") = some (.string (ascii "ok")) ∧
      ascii "value" ∈ entries.map (·.1) ∧ ascii "error" ∉ entries.map (·.1)
  | .result _, .error .., entries =>
      entries.lookup (ascii "status") = some (.string (ascii "error")) ∧
      ascii "error" ∈ entries.map (·.1) ∧ ascii "value" ∉ entries.map (·.1)
  | _, _, _ => True

theorem Made.enforced {frame : Frame} {x : frame.Value} (h : frame.Made x) :
    frame.Enforced x := by
  cases frame with
  | progress =>
      obtain ⟨_, _, _, h⟩ := h
      exact (ProgressEventFrame.fromParts_eq_ok_iff.mp h).2
  | _ => trivial

/-- Frames are shallow. -/
theorem fits_write (frame : Frame) (x : frame.Value) :
    (frame.write x).Fits json jsonDepth := by
  cases frame with
  | hello => exact (HelloFrame.codec.fits x).mono (by decide)
  | helloResult => exact (HelloResultFrame.codec.fits x).mono (by decide)
  | builderRequest => exact (BuilderRequestFrame.codec.fits x).mono (by decide)
  | hostPlanning => exact (HostPlanningRequest.codec.fits x).mono (by decide)
  | result payload =>
      refine ((ResultFrame.codec payload.codec).fits x).mono ?_
      cases payload <;> decide
  | progress =>
      exact (RawProgressEventFrame.codec.fits ⟨x.protocol, x.id, x.frameType, x.event, x.message,
        x.completed, x.total⟩).mono (by decide)

/-- What is written is read back. -/
theorem read_write {frame : Frame} {x : frame.Value} (h : frame.Enforced x) :
    frame.read (frame.write x) = some x := by
  cases frame with
  | hello => exact HelloFrame.codec.reads x
  | helloResult => exact HelloResultFrame.codec.reads x
  | builderRequest => exact BuilderRequestFrame.codec.reads x
  | hostPlanning => exact HostPlanningRequest.codec.reads x
  | result payload => exact (ResultFrame.codec payload.codec).reads x
  | progress => exact ProgressEventFrame.read_write h

theorem enforced_of_read {frame : Frame} {t : Tree} {x : frame.Value}
    (h : frame.read t = some x) : frame.Enforced x := by
  cases frame with
  | progress => exact (ProgressEventFrame.read_eq_some_iff.mp h).2
  | _ => trivial

/-- The object of a decoded frame has the fields of the frame and no others. -/
theorem fields_of_read {frame : Frame} {entries : List (Bytes × Tree)} {x : frame.Value}
    (h : frame.read (.map entries) = some x) :
    (∀ entry ∈ entries, entry.1 ∈ (frame.fields x).map ascii) ∧ frame.Says x entries := by
  cases frame with
  | hello => exact ⟨(Record.readTree_map_eq_some.mp h).1.2, trivial⟩
  | helloResult => exact ⟨(Record.readTree_map_eq_some.mp h).1.2, trivial⟩
  | builderRequest => exact ⟨(Record.readTree_map_eq_some.mp h).1.2, trivial⟩
  | hostPlanning => exact ⟨(Record.readTree_map_eq_some.mp h).1.2, trivial⟩
  | progress =>
      exact ⟨(Record.readTree_map_eq_some.mp (ProgressEventFrame.read_eq_some_iff.mp h).1).1.2,
        trivial⟩
  | result payload =>
      obtain ⟨v, hv, p, rfl, hstatus, hnames, hread⟩ := Variant.readTagged_map h
      have hfields : ∀ entry ∈ entries, entry.1 ∈ ascii "status" :: v.record.names :=
        fun entry hentry => List.mem_cons.mpr (hnames entry hentry)
      have hothers : ∀ {name : Bytes}, name ∉ ascii "status" :: v.record.names →
          name ∉ entries.map (·.1) := by
        intro name hname hmem
        obtain ⟨entry, hentry, rfl⟩ := List.mem_map.mp hmem
        exact hname (hfields entry hentry)
      -- the field that goes with the status is the fourth of the variant
      rcases List.mem_cons.mp hv with rfl | hv
      · obtain ⟨protocol, id, frameType, value, ⟨⟩⟩ := p
        have hvalue := Record.cons_read_eq_some.mp hread
        have hvalue := Record.cons_read_eq_some.mp hvalue.2
        have hvalue := Record.cons_read_eq_some.mp hvalue.2
        exact ⟨hfields, hstatus, Variant.mem_of_without (Record.required_found hvalue.2),
          hothers (show ascii "error" ∉ [ascii "status", ascii "protocol", ascii "id",
            ascii "type", ascii "value"] by decide)⟩
      · obtain rfl := List.mem_singleton.mp hv
        obtain ⟨protocol, id, frameType, body, ⟨⟩⟩ := p
        have hbody := Record.cons_read_eq_some.mp hread
        have hbody := Record.cons_read_eq_some.mp hbody.2
        have hbody := Record.cons_read_eq_some.mp hbody.2
        exact ⟨hfields, hstatus, Variant.mem_of_without (Record.required_found hbody.2),
          hothers (show ascii "value" ∉ [ascii "status", ascii "protocol", ascii "id",
            ascii "type", ascii "error"] by decide)⟩

end Frame

/-- Every frame that is encoded is decoded to itself at any maximum it fits; a frame is
decoded from an object with its own fields only, a result from one with a value or an
error as its status says; and what is decoded has what a constructor makes sure of, and
is decoded again from what it is encoded as. -/
theorem wireFrames_exact (s : SerdeJson) (frame : Frame) :
    (∀ x, frame.Made x → ∃ text, encodeFrame s (frame.write x) = .ok text ∧
      ∀ maximum : UInt64, text.length ≤ maximum.toNat →
        decodeFrame s frame.read text maximum = .ok x) ∧
    ∀ line maximum x, decodeFrame s frame.read line maximum = .ok x →
      (∀ entries, s.ofText (trimLineEnd line) = .ok (.map entries) →
        (∀ entry ∈ entries, entry.1 ∈ (frame.fields x).map ascii) ∧ frame.Says x entries) ∧
      frame.Enforced x ∧
      ∃ text, encodeFrame s (frame.write x) = .ok text ∧
        ∀ maximum : UInt64, text.length ≤ maximum.toNat →
          decodeFrame s frame.read text maximum = .ok x := by
  have hback : ∀ x, frame.Enforced x → ∃ text, encodeFrame s (frame.write x) = .ok text ∧
      ∀ maximum : UInt64, text.length ≤ maximum.toNat →
        decodeFrame s frame.read text maximum = .ok x := by
    intro x hx
    obtain ⟨text, hencode, _, _, hdecode⟩ :=
      decodeFrame_encodeFrame (s := s) (frame.fits_write x) (Frame.read_write hx)
    exact ⟨text, hencode, hdecode⟩
  refine ⟨fun x hx => hback x hx.enforced, fun line maximum x hdecode => ?_⟩
  obtain ⟨_, t, htext, hread⟩ := decodeFrame_eq_ok_iff.mp hdecode
  have henforced := Frame.enforced_of_read hread
  refine ⟨fun entries hentries => ?_, henforced, hback x henforced⟩
  rw [htext] at hentries
  cases hentries
  exact Frame.fields_of_read hread

example : encodeFrame compactJson (HelloFrame.codec.write
    (.new (.ofAscii "1" (by decide)) (.ofAscii "2.0.0-dev" (by decide)))) =
    .ok (ascii ("\x7b\"protocol\":\"prep.plugin/1\",\"id\":\"1\",\"type\":\"hello\"," ++
      "\"prep_version\":\"2.0.0-dev\"\x7d")) := by
  decide +kernel

end Prep.Protocol
