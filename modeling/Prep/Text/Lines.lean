/-
  Text/Lines.lean --- `str::lines` and the texts that consist of given lines.
-/
import Prep.Text.Bytes

set_option autoImplicit false

namespace Prep.Text

/-- `split_inclusive`: pieces that end behind the separator, but for the last. -/
def splitInclusive (separator : UInt8) : Bytes → List Bytes
  | [] => []
  | b :: rest =>
      if b = separator then [b] :: splitInclusive separator rest
      else
        match splitInclusive separator rest with
        | [] => [[b]]
        | piece :: pieces => (b :: piece) :: pieces

/-- A piece without the line feed it ends with, and the carriage return in front of that. -/
def trimLineFeed (piece : Bytes) : Bytes :=
  if piece.getLast? = some 10 then
    if piece.dropLast.getLast? = some 13 then piece.dropLast.dropLast else piece.dropLast
  else piece

/-- `str::lines`. -/
def lines (text : Bytes) : List Bytes := (splitInclusive 10 text).map trimLineFeed

/-- A text consists of lines: each ends with a line feed, which a carriage return may precede;
the last may go without. -/
inductive LinesOf : List Bytes → Bytes → Prop
  | none : LinesOf [] []
  | last {line : Bytes} (hsome : line ≠ []) (hfree : 10 ∉ line) : LinesOf [line] line
  | lineFeed {line : Bytes} {more : List Bytes} {text : Bytes} (hfree : 10 ∉ line)
      (hreturn : line.getLast? ≠ some 13) (h : LinesOf more text) :
      LinesOf (line :: more) (line ++ 10 :: text)
  | carriageReturn {line : Bytes} {more : List Bytes} {text : Bytes} (hfree : 10 ∉ line)
      (h : LinesOf more text) : LinesOf (line :: more) (line ++ 13 :: 10 :: text)

theorem splitInclusive_free {separator : UInt8} {piece : Bytes} (hsome : piece ≠ [])
    (hfree : separator ∉ piece) : splitInclusive separator piece = [piece] := by
  induction piece with
  | nil => exact absurd rfl hsome
  | cons b piece ih =>
      rw [List.mem_cons, not_or] at hfree
      rw [splitInclusive, if_neg (Ne.symm hfree.1)]
      cases piece with
      | nil => rfl
      | cons c piece => rw [ih (List.cons_ne_nil _ _) hfree.2]

theorem splitInclusive_append {separator : UInt8} {piece : Bytes} (hfree : separator ∉ piece)
    (text : Bytes) : splitInclusive separator (piece ++ separator :: text) =
      (piece ++ [separator]) :: splitInclusive separator text := by
  induction piece with
  | nil => rw [List.nil_append, splitInclusive, if_pos rfl, List.nil_append]
  | cons b piece ih =>
      rw [List.mem_cons, not_or] at hfree
      rw [List.cons_append, splitInclusive, if_neg (Ne.symm hfree.1), ih hfree.2]
      rfl

theorem trimLineFeed_free {piece : Bytes} (hfree : 10 ∉ piece) : trimLineFeed piece = piece := by
  rw [trimLineFeed, if_neg]
  exact fun hlast => hfree (List.mem_of_getLast? hlast)

theorem trimLineFeed_concat (piece : Bytes) : trimLineFeed (piece ++ [10]) =
    if piece.getLast? = some 13 then piece.dropLast else piece := by
  rw [trimLineFeed, List.getLast?_concat, if_pos rfl, List.dropLast_concat]

/-- The lines of a text are the lines it consists of. -/
theorem lines_eq_iff {text : Bytes} : ∀ {found : List Bytes},
    lines text = found ↔ LinesOf found text := by
  have hlines : ∀ {found : List Bytes} {text : Bytes}, LinesOf found text →
      lines text = found := by
    intro found text h
    induction h with
    | none => rfl
    | last hsome hfree =>
        rw [lines, splitInclusive_free hsome hfree, List.map_singleton, trimLineFeed_free hfree]
    | lineFeed hfree hreturn _ ih =>
        rw [lines, splitInclusive_append hfree, List.map_cons, trimLineFeed_concat,
          if_neg hreturn]
        exact congrArg _ ih
    | @carriageReturn line more text hfree _ ih =>
        have hfree' : 10 ∉ line ++ [13] := by
          rw [List.mem_append, not_or]
          exact ⟨hfree, by decide⟩
        rw [List.append_cons line 13 (10 :: text), lines, splitInclusive_append hfree',
          List.map_cons, trimLineFeed_concat, List.getLast?_concat, if_pos rfl,
          List.dropLast_concat]
        exact congrArg _ ih
  have hconsists : ∀ text : Bytes, LinesOf (lines text) text := by
    intro text
    induction hn : text.length using Nat.strong_induction_on generalizing text with
    | _ n ih =>
        by_cases hfeed : 10 ∈ text
        · obtain ⟨line, rest, rfl, hfree⟩ := List.eq_append_cons_of_mem hfeed
          rw [List.length_append, List.length_cons] at hn
          have hrest := ih rest.length (by omega) rest rfl
          rw [lines, splitInclusive_append hfree, List.map_cons, trimLineFeed_concat]
          split
          · rename_i hreturn
            obtain ⟨front, rfl⟩ : ∃ front, line = front ++ [13] :=
              ⟨line.dropLast, (List.dropLast_append_getLast? 13 hreturn).symm⟩
            rw [List.dropLast_concat, List.append_assoc]
            exact .carriageReturn (fun hmem => hfree (List.mem_append_left _ hmem)) hrest
          · rename_i hreturn
            exact .lineFeed hfree hreturn hrest
        · cases text with
          | nil => exact .none
          | cons b text =>
              rw [lines, splitInclusive_free (List.cons_ne_nil b text) hfeed, List.map_singleton,
                trimLineFeed_free hfeed]
              exact .last (List.cons_ne_nil b text) hfeed
  intro found
  constructor
  · rintro rfl
    exact hconsists text
  · exact hlines

end Prep.Text
