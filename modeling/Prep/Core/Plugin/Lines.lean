/-
  Core/Plugin/Lines.lean --- the lines of the protocol.

  The reader thread of the host takes lines off the plugin's stdout until the first that
  is no good; a frame is written as one line.

  A read that is interrupted is made again; one that fails ends the loop, and the error is what
  the host is told last.
-/
import Prep.Core.Plugin.Types
import Prep.Data.Effect
import Prep.Io.Lines
import Prep.Io.Writer
import Prep.Text.Display

set_option autoImplicit false

namespace Prep.Core.Plugin

open Prep.Data
open Prep.Io (IoError Reader Writer takeThrough)
open Prep.Io.Reader (contents)
open Prep.Protocol
open Prep.Serde
open Prep.Text

/-! ## Reading -/

/-- `max_frame_bytes.saturating_add(1)`. -/
def lineLimit (maxFrameBytes : UInt64) : Nat := min (maxFrameBytes.toNat + 1) (2 ^ 64 - 1)

/-- `read_bounded_line`. -/
def readBoundedLine (maxFrameBytes : UInt64) (reader : Reader) :
    Except PluginProbeError (Bytes × Reader) :=
  match reader.readUntil 10 (lineLimit maxFrameBytes) with
  | .error source => .error (.io "read" source)
  | .ok (line, reader) =>
      -- `read_line` checks the text it has read before it returns it
      if Utf8.valid line = false then .error (.io "read" .invalidData)
      else if line.length = 0 then .error .unexpectedEof
      else if maxFrameBytes.toNat < line.length then
        .error (.protocol s!"protocol frame exceeds {maxFrameBytes} bytes")
      else if line.getLast? ≠ some 10 then .error .missingNewline
      else .ok (line, reader)

/-- A line as `read_bounded_line` returns it: text without newline, the newline, both
UTF-8 and no more than the maximum. -/
def GoodLine (maxFrameBytes : UInt64) (line : Bytes) : Prop :=
  ∃ text, line = text ++ [10] ∧ (10 : UInt8) ∉ text ∧ Utf8.valid line = true ∧
    line.length ≤ maxFrameBytes.toNat

theorem lineLimit_pos (maxFrameBytes : UInt64) : 0 < lineLimit maxFrameBytes := by
  unfold lineLimit
  omega

theorem le_lineLimit (maxFrameBytes : UInt64) : maxFrameBytes.toNat ≤ lineLimit maxFrameBytes := by
  have h := maxFrameBytes.toNat_lt
  unfold lineLimit
  omega

variable {maxFrameBytes : UInt64} {reader : Reader} {bytes : Bytes}

/-- What makes `read_bounded_line` return a line. -/
theorem readBoundedLine_eq_ok_iff {line : Bytes} {rest : Reader} :
    readBoundedLine maxFrameBytes reader = .ok (line, rest) ↔
      reader.readUntil 10 (lineLimit maxFrameBytes) = .ok (line, rest) ∧
        Utf8.valid line = true ∧ line.length ≤ maxFrameBytes.toNat ∧
        line.getLast? = some 10 := by
  rw [readBoundedLine]
  split
  · rename_i source heq
    exact ⟨fun h => (by cases h), fun h => (by rw [heq] at h; cases h.1)⟩
  · rename_i taken after heq
    rw [heq]
    constructor
    · intro h
      split at h
      · cases h
      rename_i hvalid
      split at h
      · cases h
      split at h
      · cases h
      rename_i hlength
      split at h
      · cases h
      rename_i hlast
      cases h
      exact ⟨rfl, Bool.eq_true_of_not_eq_false hvalid, Nat.le_of_not_lt hlength,
        not_not.mp hlast⟩
    · rintro ⟨⟨⟩, hvalid, hlength, hlast⟩
      have hne : line.length ≠ 0 := by
        intro hzero
        rw [List.length_eq_zero_iff.mp hzero] at hlast
        cases hlast
      rw [if_neg (by rw [hvalid]; exact Bool.noConfusion), if_neg hne,
        if_neg (Nat.not_lt.mpr hlength), if_neg (not_not.mpr hlast)]

/-- From input that begins with a good line, that line is read. -/
theorem readBoundedLine_of_goodLine {line rest : Bytes} (hline : GoodLine maxFrameBytes line)
    (h : contents reader = some (line ++ rest)) :
    ∃ reader', readBoundedLine maxFrameBytes reader = .ok (line, reader') ∧
      contents reader' = some rest := by
  obtain ⟨text, rfl, htext, hvalid, hlength⟩ := hline
  obtain ⟨reader', hread, hcontents⟩ :=
    Reader.readUntil_of_contents 10 h (lineLimit maxFrameBytes)
  have htaken : takeThrough 10 (lineLimit maxFrameBytes) (text ++ [10] ++ rest) =
      text ++ [10] := by
    have hlimit := le_lineLimit maxFrameBytes
    rw [List.append_assoc, List.singleton_append]
    refine Io.takeThrough_of_delim htext ?_
    rw [List.length_append, List.length_singleton] at hlength
    omega
  rw [htaken] at hread
  rw [htaken, List.drop_left] at hcontents
  refine ⟨reader', readBoundedLine_eq_ok_iff.mpr ⟨hread, hvalid, hlength, ?_⟩, hcontents⟩
  rw [List.getLast?_concat]

/-- A line that is read is good, and stands at the front of the input. -/
theorem goodLine_of_readBoundedLine {line : Bytes} {reader' : Reader}
    (h : contents reader = some bytes)
    (hread : readBoundedLine maxFrameBytes reader = .ok (line, reader')) :
    GoodLine maxFrameBytes line ∧ ∃ rest, contents reader' = some rest ∧ bytes = line ++ rest := by
  obtain ⟨htaken, hvalid, hlength, hlast⟩ := readBoundedLine_eq_ok_iff.mp hread
  obtain ⟨after, hread', hcontents⟩ :=
    Reader.readUntil_of_contents 10 h (lineLimit maxFrameBytes)
  rw [htaken] at hread'
  cases hread'
  refine ⟨?_, _, hcontents, Io.takeThrough_append_drop.symm⟩
  rcases Io.takeThrough_cases 10 (lineLimit maxFrameBytes) bytes with ⟨text, heq, htext⟩ | ⟨hnot, _⟩
  · exact ⟨text, heq, htext, hvalid, hlength⟩
  · exact absurd (List.mem_of_getLast? hlast) hnot

/-- Reading finds the end of the input exactly where there is no more input. -/
theorem readBoundedLine_eof_iff (h : contents reader = some bytes) :
    readBoundedLine maxFrameBytes reader = .error .unexpectedEof ↔ bytes = [] := by
  obtain ⟨reader', hread, _⟩ :=
    Reader.readUntil_of_contents 10 h (lineLimit maxFrameBytes)
  rw [← Io.takeThrough_eq_nil_iff 10 (lineLimit_pos maxFrameBytes),
    readBoundedLine, hread]
  simp only
  generalize takeThrough 10 (lineLimit maxFrameBytes) bytes = taken
  constructor
  · intro heof
    split at heof
    · cases heof
    split at heof
    · rename_i hzero
      exact List.length_eq_zero_iff.mp hzero
    split at heof
    · cases heof
    split at heof <;> cases heof
  · rintro rfl
    rfl

/-- A line uses input up. -/
theorem size_readBoundedLine {line : Bytes} {reader' : Reader}
    (h : readBoundedLine maxFrameBytes reader = .ok (line, reader')) :
    reader'.size < reader.size := by
  obtain ⟨htaken, _, _, hlast⟩ := readBoundedLine_eq_ok_iff.mp h
  have hsize := Reader.size_readUntil htaken
  have hpos : 0 < line.length := List.length_pos_of_mem (List.mem_of_getLast? hlast)
  omega

/-- The loop of `spawn_stdout_reader`: the lines it delivers, and the error it delivers
last. -/
def readLines (maxFrameBytes : UInt64) (reader : Reader) : List Bytes × PluginProbeError :=
  match h : readBoundedLine maxFrameBytes reader with
  | .error e => ([], e)
  | .ok (line, rest) =>
      have := size_readBoundedLine h
      let (lines, e) := readLines maxFrameBytes rest
      (line :: lines, e)
termination_by reader.size

theorem readLines_of_error {e : PluginProbeError}
    (h : readBoundedLine maxFrameBytes reader = .error e) :
    readLines maxFrameBytes reader = ([], e) := by
  rw [readLines]
  split
  · rename_i heq
    rw [h] at heq
    cases heq
    rfl
  · rename_i heq
    rw [h] at heq
    cases heq

theorem readLines_of_ok {line : Bytes} {rest : Reader}
    (h : readBoundedLine maxFrameBytes reader = .ok (line, rest)) :
    readLines maxFrameBytes reader =
      (line :: (readLines maxFrameBytes rest).1, (readLines maxFrameBytes rest).2) := by
  rw [readLines]
  split
  · rename_i heq
    rw [h] at heq
    cases heq
  · rename_i heq
    rw [h] at heq
    cases heq
    rfl

/-! ## The lines of a stream -/

/-- Input has one good line at its front, if it has any. -/
theorem GoodLine.unique {left right leftRest rightRest : Bytes}
    (hleft : GoodLine maxFrameBytes left) (hright : GoodLine maxFrameBytes right)
    (h : left ++ leftRest = right ++ rightRest) : left = right ∧ leftRest = rightRest := by
  have hread : contents (Reader.ofBytes (left ++ leftRest)) = some (left ++ leftRest) :=
    Reader.contents_ofBytes _
  obtain ⟨_, hl, hlrest⟩ := readBoundedLine_of_goodLine hleft hread
  rw [h] at hread hl
  obtain ⟨_, hr, hrrest⟩ := readBoundedLine_of_goodLine hright hread
  rw [hl] at hr
  cases hr
  rw [hlrest] at hrrest
  cases hrrest
  exact ⟨rfl, rfl⟩

/-- What the loop delivers of a stream: good lines from its front, until no good line
follows.  It stops at the end of the stream when nothing is left, and only then. -/
theorem readLines_spec : ∀ {reader : Reader} {bytes : Bytes}, contents reader = some bytes →
    ∃ rest, bytes = (readLines maxFrameBytes reader).1.flatten ++ rest ∧
      (∀ line ∈ (readLines maxFrameBytes reader).1, GoodLine maxFrameBytes line) ∧
      (∀ line rest', GoodLine maxFrameBytes line → rest ≠ line ++ rest') ∧
      ((readLines maxFrameBytes reader).2 = .unexpectedEof ↔ rest = []) := by
  intro reader
  induction hsize : reader.size using Nat.strong_induction_on generalizing reader with
  | _ size ih =>
      intro bytes h
      cases hread : readBoundedLine maxFrameBytes reader with
      | error e =>
          rw [readLines_of_error hread]
          refine ⟨bytes, rfl, fun line hline => absurd hline List.not_mem_nil, ?_, ?_⟩
          · rintro line rest' hline rfl
            obtain ⟨_, hok, _⟩ := readBoundedLine_of_goodLine hline h
            rw [hread] at hok
            cases hok
          · have heof := @readBoundedLine_eof_iff maxFrameBytes _ _ h
            rw [hread, Except.error.injEq] at heof
            exact heof
      | ok p =>
          obtain ⟨line, after⟩ := p
          obtain ⟨hline, left, hafter, rfl⟩ := goodLine_of_readBoundedLine h hread
          obtain ⟨rest, hleft, hgood, hmax, heof⟩ :=
            ih after.size (hsize ▸ size_readBoundedLine hread) rfl hafter
          rw [readLines_of_ok hread]
          refine ⟨rest, ?_, List.forall_mem_cons.mpr ⟨hline, hgood⟩, hmax, heof⟩
          rw [List.flatten_cons, List.append_assoc, ← hleft]

/-- A run of good lines at the front of a stream is delivered. -/
theorem isPrefix_readLines {lines : List Bytes} : ∀ {reader : Reader} {bytes rest : Bytes},
    contents reader = some bytes → (∀ line ∈ lines, GoodLine maxFrameBytes line) →
      bytes = lines.flatten ++ rest → lines <+: (readLines maxFrameBytes reader).1 := by
  induction lines with
  | nil => exact fun _ _ _ => List.nil_prefix
  | cons line lines ih =>
      intro reader bytes rest h hgood heq
      rw [List.forall_mem_cons] at hgood
      rw [List.flatten_cons, List.append_assoc] at heq
      rw [heq] at h
      obtain ⟨after, hread, hafter⟩ := readBoundedLine_of_goodLine hgood.1 h
      rw [readLines_of_ok hread]
      exact (List.prefix_cons_inj line).mpr (ih hafter hgood.2 rfl)

/-! ## Writing -/

section Frame

variable {m : Type → Type} [Monad m]

/-- `map_err` to a failed write. -/
def orWrite (act : m (Except IoError Unit)) : ExceptT PluginProbeError m Unit :=
  ExceptT.mk ((fun written => written.mapError (.io "write")) <$> act)

/-- A result without an effect. -/
def result {ε α : Type} (value : Except ε α) : ExceptT ε m α := ExceptT.mk (pure value)

/-- `write_protocol_frame`, to a sink that `writeAll` and `flush` write to. -/
def writeProtocolFrame (writeAll : Bytes → m (Except IoError Unit))
    (flush : m (Except IoError Unit)) (s : SerdeJson) (frame : Tree) :
    ExceptT PluginProbeError m Unit := do
  let encoded ← result ((encodeFrame s frame).mapError .protocol)
  orWrite (writeAll encoded)
  orWrite (writeAll [10])
  orWrite flush

end Frame

/-- A frame to be written: a value of a type that is read back as shallow JSON. -/
structure Message where
  Value : Type
  codec : Codec json Value
  value : Value
  shallow : codec.depth ≤ jsonDepth

def Message.frame (message : Message) : Tree := message.codec.write message.value

/-- Frames written one after another to a sink. -/
def writeFrames (s : SerdeJson) : List Tree → ExceptT PluginProbeError (StateM Writer) Unit
  | [] => return ()
  | frame :: frames => do
      writeProtocolFrame Writer.writeAll Writer.flush s frame
      writeFrames s frames

theorem yields_orWrite {act : StateM Writer (Except IoError Unit)} {writer : Writer}
    {post : Writer → Prop} (h : (act writer).1 = .ok () → post (act writer).2) :
    Yields (fun _ => True) writer (orWrite act) fun _ after => post after := by
  have hrun : (orWrite act).run writer =
      ((act writer).1.mapError (.io "write"), (act writer).2) := rfl
  unfold Yields
  rw [hrun]
  cases hact : (act writer).1 with
  | ok u => exact h hact
  | error e => trivial

/-- A frame that is written is on the sink, a newline behind it. -/
theorem yields_writeProtocolFrame {s : SerdeJson} {frame : Tree} {writer : Writer} :
    Yields (fun _ => True) writer (writeProtocolFrame Writer.writeAll Writer.flush s frame)
      fun _ after => ∃ text, encodeFrame s frame = .ok text ∧
        after.written = writer.written ++ (text ++ [10]) := by
  unfold writeProtocolFrame
  cases hencode : encodeFrame s frame with
  | error message => trivial
  | ok text =>
      have hresult : Yields (fun _ => True) writer
          (result ((Except.ok text : Except String Bytes).mapError PluginProbeError.protocol))
          fun value after => value = text ∧ after = writer := ⟨rfl, rfl⟩
      refine hresult.bind fun value start ⟨hvalue, hstart⟩ => ?_
      subst hvalue hstart
      have hall : ∀ (bytes : Bytes) (writer : Writer), Yields (fun _ => True) writer
          (orWrite (Writer.writeAll bytes)) fun _ after =>
            after.written = writer.written ++ bytes :=
        fun bytes writer => yields_orWrite Writer.written_of_writeAll
      refine (hall value start).bind fun _ mid hmid => (hall [10] mid).bind fun _ last hlast => ?_
      refine yields_orWrite fun _ => ⟨value, rfl, ?_⟩
      show last.written = _
      rw [hlast, hmid, List.append_assoc]

/-- The lines of the frames that are written are on the sink. -/
theorem yields_writeFrames {s : SerdeJson} {frames : List Tree} {writer : Writer} :
    Yields (fun _ => True) writer (writeFrames s frames) fun _ after =>
      ∃ texts, List.Forall₂ (fun frame text => encodeFrame s frame = .ok text) frames texts ∧
        after.written = writer.written ++ (texts.map (· ++ [10])).flatten := by
  induction frames generalizing writer with
  | nil => exact ⟨[], .nil, (List.append_nil _).symm⟩
  | cons frame frames ih =>
      refine yields_writeProtocolFrame.bind fun _ mid ⟨text, htext, hmid⟩ => ?_
      refine ih.mono fun _ after ⟨texts, htexts, hafter⟩ => ?_
      refine ⟨text :: texts, .cons htext htexts, ?_⟩
      rw [hafter, hmid, List.map_cons, List.flatten_cons, List.append_assoc]

end Prep.Core.Plugin
