/-
  Core/Plugin/Framing.lean --- what line framing keeps of a stream, and where it and the
  frame codec disagree about length.

  Scope: streams that are handed out in any pieces, with interruptions, and end without an
  error.  `serde_json` is a parameter; what is relied on is in `Serde/Json.lean`.  A frame is
  measured in two ways: `decode_frame` counts it without its newline (and a carriage return
  before that), `read_bounded_line` counts the newline too.
-/
import Prep.Core.Plugin.Lines
import Prep.Data.Traverse

set_option autoImplicit false

namespace Prep.Core.Plugin

open Prep.Data
open Prep.Io (Reader Writer)
open Prep.Io.Reader (contents)
open Prep.Protocol
open Prep.Serde
open Prep.Text

variable {maxFrameBytes : UInt64}

/-! ## Nothing is lost -/

/-- The line of printable text that is shorter than the maximum is good. -/
theorem goodLine_of_clean {text : Bytes} (h : Compact.Clean text)
    (hlength : text.length < maxFrameBytes.toNat) : GoodLine maxFrameBytes (text ++ [10]) := by
  refine ⟨text, rfl, fun hmem => absurd (h.2 10 hmem) (by decide), ?_, ?_⟩
  · rw [Utf8.valid_append h.1]
    decide
  · rw [List.length_append, List.length_singleton]
    exact hlength

theorem GoodLine.ne_nil {line : Bytes} (h : GoodLine maxFrameBytes line) : line ≠ [] := by
  obtain ⟨text, rfl, _⟩ := h
  exact List.append_ne_nil_of_right_ne_nil _ (List.cons_ne_nil _ _)

/-- A stream of good lines is delivered whole. -/
theorem readLines_of_goodLines {lines : List Bytes}
    (hgood : ∀ line ∈ lines, GoodLine maxFrameBytes line) {reader : Reader}
    (h : contents reader = some lines.flatten) :
    (readLines maxFrameBytes reader).1 = lines ∧
      (readLines maxFrameBytes reader).2 = .unexpectedEof := by
  obtain ⟨more, hmore⟩ := isPrefix_readLines h hgood (List.append_nil _).symm
  obtain ⟨rest, hall, hdelivered, _, heof⟩ := @readLines_spec maxFrameBytes _ _ h
  rw [← hmore] at hall hdelivered
  rw [List.flatten_append, List.append_assoc, List.self_eq_append_right,
    List.append_eq_nil_iff] at hall
  have hnil : more = [] := by
    refine List.eq_nil_iff_forall_not_mem.mpr fun line hline => ?_
    have hne := (hdelivered line (List.mem_append_right _ hline)).ne_nil
    exact hne (List.flatten_eq_nil_iff.mp hall.1 line hline)
  rw [← hmore, hnil, List.append_nil]
  exact ⟨rfl, heof.mpr hall.2⟩

/-- The line of a message, if it is shorter than the maximum, is good, and the message is
decoded from it. -/
theorem decodeFrame_line {s : SerdeJson} {message : Message} {text : Bytes}
    (htext : encodeFrame s message.frame = .ok text)
    (hlength : text.length < maxFrameBytes.toNat) :
    GoodLine maxFrameBytes (text ++ [10]) ∧
      decodeFrame s message.codec.read (text ++ [10]) maxFrameBytes = .ok message.value := by
  obtain ⟨text', htext', hne, hclean, hdecode⟩ := decodeFrame_encodeFrame (s := s)
    ((message.codec.fits message.value).mono message.shallow) (message.codec.reads message.value)
  obtain rfl : text = text' := Except.ok.inj (htext.symm.trans htext')
  refine ⟨goodLine_of_clean hclean hlength, ?_⟩
  have htrim : trimLineEnd (text ++ [10]) = trimLineEnd text := by
    rw [trimLineEnd, trimLineEnd, List.rdropWhile_concat_pos _ _ _ (by decide)]
  have hsame := decodeFrame_eq_ok_iff.mp (hdecode maxFrameBytes hlength.le)
  rw [checkFrame_eq_ok_iff, ← htrim] at hsame
  rw [decodeFrame_eq_ok_iff, checkFrame_eq_ok_iff]
  exact hsame

/-- The reader loop delivers the longest run of good lines at the front of the stream, and
stops with the end of the input exactly when it has delivered all of it; frames that are
written, each encoding shorter than the maximum, are decoded from the lines the loop
delivers, one from each, and then the input ends.  The reader hands the stream out in any pieces,
with interruptions but without an error; the sink has taken all frames. -/
theorem lineFraming_exact (s : SerdeJson) (maxFrameBytes : UInt64) :
    (∀ reader bytes, contents reader = some bytes →
      ∃ rest, bytes = (readLines maxFrameBytes reader).1.flatten ++ rest ∧
        (∀ line ∈ (readLines maxFrameBytes reader).1, GoodLine maxFrameBytes line) ∧
        (∀ lines rest', (∀ line ∈ lines, GoodLine maxFrameBytes line) →
          bytes = lines.flatten ++ rest' → lines <+: (readLines maxFrameBytes reader).1) ∧
        ((readLines maxFrameBytes reader).2 = .unexpectedEof ↔ rest = [])) ∧
    ∀ (messages : List Message) writer writer',
      (writeFrames s (messages.map Message.frame)).run writer = (.ok (), writer') →
      (∀ message ∈ messages, ∀ text, encodeFrame s message.frame = .ok text →
        text.length < maxFrameBytes.toNat) →
      ∃ bytes, writer'.written = writer.written ++ bytes ∧
        ∀ reader, contents reader = some bytes →
          List.Forall₂
            (fun message line =>
              decodeFrame s message.codec.read line maxFrameBytes = .ok message.value)
            messages (readLines maxFrameBytes reader).1 ∧
          (readLines maxFrameBytes reader).2 = .unexpectedEof := by
  constructor
  · intro reader bytes h
    obtain ⟨rest, hall, hgood, _, heof⟩ := readLines_spec h
    exact ⟨rest, hall, hgood, fun lines rest' hlines heq => isPrefix_readLines h hlines heq, heof⟩
  · intro messages writer writer' hwrite hshort
    obtain ⟨texts, htexts, hwritten⟩ := yields_writeFrames.of_ok hwrite
    refine ⟨_, hwritten, fun reader h => ?_⟩
    have hlines : List.Forall₂ (fun (message : Message) line => GoodLine maxFrameBytes line ∧
        decodeFrame s message.codec.read line maxFrameBytes = .ok message.value)
        messages (texts.map (· ++ [10])) := by
      rw [List.forall₂_map_left_iff] at htexts
      rw [List.forall₂_map_right_iff]
      clear hwrite hwritten h
      induction htexts with
      | nil => exact .nil
      | cons htext _ ih =>
          rw [List.forall_mem_cons] at hshort
          exact .cons (decodeFrame_line htext (hshort.1 _ htext)) (ih hshort.2)
    have hgood : ∀ line ∈ texts.map (· ++ [10]), GoodLine maxFrameBytes line := by
      intro line hline
      obtain ⟨message, _, hmessage⟩ := exists_mem_of_forall₂_right hlines hline
      exact hmessage.1
    obtain ⟨hdelivered, heof⟩ := readLines_of_goodLines hgood h
    rw [hdelivered]
    exact ⟨hlines.imp fun _ _ => And.right, heof⟩

theorem isAscii_greetingId : (ascii "hello").all isAscii = true := by decide

theorem isAscii_greetingVersion : (ascii "1").all isAscii = true := by decide

/-- A handshake of Prep. -/
def greeting : HelloFrame :=
  .new (.ofAscii "hello" isAscii_greetingId) (.ofAscii "1" isAscii_greetingVersion)

def greetingText : Bytes :=
  ascii ("\x7b\"protocol\":\"prep.plugin/1\",\"id\":\"hello\",\"type\":\"hello\"," ++
    "\"prep_version\":\"1\"\x7d")

/-- `lineFraming_exact` for two frames that are shorter than the maximum by one byte. -/
theorem lineFraming_exact_greetings : ∃ writer',
    (writeFrames compactJson [HelloFrame.codec.write greeting, HelloFrame.codec.write greeting]).run
      ⟨[], none⟩ = (.ok (), writer') ∧
    greetingText.length + 1 = UInt64.toNat 76 ∧
    (readLines 76 (Reader.ofBytes writer'.written)).1.map
      (decodeFrame compactJson HelloFrame.codec.read · 76) = [.ok greeting, .ok greeting] ∧
    (readLines 76 (Reader.ofBytes writer'.written)).2 = .unexpectedEof := by
  have hencode : encodeFrame compactJson (HelloFrame.codec.write greeting) = .ok greetingText := by
    decide +kernel
  have hlength : greetingText.length + 1 = UInt64.toNat 76 := by decide +kernel
  have hwrite : (writeFrames compactJson
      [HelloFrame.codec.write greeting, HelloFrame.codec.write greeting]).run ⟨[], none⟩ =
      (.ok (), ⟨greetingText ++ [10] ++ greetingText ++ [10], none⟩) := by
    unfold writeFrames writeFrames writeProtocolFrame
    rw [hencode]
    rfl
  let message : Message := ⟨HelloFrame, HelloFrame.codec, greeting, by decide⟩
  have hshort : ∀ other ∈ [message, message], ∀ text,
      encodeFrame compactJson other.frame = .ok text → text.length < UInt64.toNat 76 := by
    intro other hmem text htext
    obtain rfl : other = message := by simpa using hmem
    obtain rfl : greetingText = text := Except.ok.inj (hencode.symm.trans htext)
    exact Nat.lt_of_succ_le hlength.le
  obtain ⟨bytes, hwritten, hread⟩ :=
    (lineFraming_exact compactJson 76).2 [message, message] _ _ hwrite hshort
  obtain ⟨hlines, heof⟩ := hread (Reader.ofBytes bytes) (Reader.contents_ofBytes bytes)
  rw [List.nil_append] at hwritten
  refine ⟨_, hwrite, hlength, ?_, ?_⟩
  · rw [hwritten]
    generalize (readLines 76 (Reader.ofBytes bytes)).1 = lines at hlines
    obtain _ | ⟨hfirst, _ | ⟨hsecond, ⟨⟩⟩⟩ := hlines
    rw [List.map_cons, List.map_cons, hfirst, hsecond]
    rfl
  · rw [hwritten]
    exact heof

/-! ## Two limits on one length -/

/-- A frame that `decode_frame` admits is returned by `read_bounded_line` from a stream it
begins exactly when it is shorter than the maximum, since there the newline counts; a line
that is returned passes the size check of `decode_frame`.  The frame is text without a newline; a
carriage return at its end counts for the reader, and not for `decode_frame`. -/
theorem frameLimits_agree_iff (maxFrameBytes : UInt64) :
    (∀ frame reader rest, (10 : UInt8) ∉ frame → Utf8.valid frame = true →
      checkFrame frame maxFrameBytes = .ok (trimLineEnd frame) →
      contents reader = some (frame ++ 10 :: rest) →
      ((∃ reader', readBoundedLine maxFrameBytes reader = .ok (frame ++ [10], reader')) ↔
        frame.length < maxFrameBytes.toNat)) ∧
    ∀ reader line reader', readBoundedLine maxFrameBytes reader = .ok (line, reader') →
      (trimLineEnd line).length ≤ maxFrameBytes.toNat := by
  constructor
  · intro frame reader rest hframe hvalid _ h
    constructor
    · rintro ⟨reader', hread⟩
      have hlength := (readBoundedLine_eq_ok_iff.mp hread).2.2.1
      rw [List.length_append, List.length_singleton] at hlength
      exact hlength
    · intro hlength
      have hline : GoodLine maxFrameBytes (frame ++ [10]) := by
        refine ⟨frame, rfl, hframe, ?_, ?_⟩
        · rw [Utf8.valid_append hvalid]
          decide
        · rw [List.length_append, List.length_singleton]
          exact hlength
      rw [List.append_cons] at h
      obtain ⟨reader', hread, _⟩ := readBoundedLine_of_goodLine hline h
      exact ⟨reader', hread⟩
  · intro reader line reader' hread
    refine le_trans ?_ (readBoundedLine_eq_ok_iff.mp hread).2.2.1
    exact (List.rdropWhile_prefix _ _).length_le

/-- A frame of just the maximum: the codec admits it, the reader refuses its line. -/
theorem frame_at_limit_refused :
    checkFrame (ascii "\x7b\x7d") 2 = .ok (ascii "\x7b\x7d") ∧
      readBoundedLine 2 (Reader.ofBytes (ascii "\x7b\x7d\n")) =
        .error (.protocol "protocol frame exceeds 2 bytes") :=
  ⟨by decide, by rfl⟩

end Prep.Core.Plugin
