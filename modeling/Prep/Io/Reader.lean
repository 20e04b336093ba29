/-
  Io/Reader.lean --- `std::io::Read`: a source of bytes that hands them out in
  pieces of its own choice and may report errors in between.
-/
import Prep.Text.Bytes

set_option autoImplicit false

namespace Prep.Io

open Prep.Text

/-- `std::io::Error`: the kinds the crates tell apart, and any other error of the
operating system. -/
inductive IoError where
  | alreadyExists
  | notFound
  | interrupted
  | unexpectedEof
  | invalidData
  | other (code : Nat)
  deriving DecidableEq, Repr

instance : ToString IoError where
  toString
    | .alreadyExists => "entity already exists"
    | .notFound => "entity not found"
    | .interrupted => "operation interrupted"
    | .unexpectedEof => "failed to fill whole buffer"
    | .invalidData => "invalid data"
    | .other code => s!"os error {code}"

/-- What a reader does next: hand out bytes, at least one, or report an error. -/
inductive ReadEvent where
  | chunk (head : UInt8) (tail : Bytes)
  | error (e : IoError)
  deriving DecidableEq, Repr

/-- A reader is what it does until the end of its input. -/
abbrev Reader : Type := List ReadEvent

namespace Reader

/-- `Cursor::new`: all the bytes in one piece. -/
def ofBytes : Bytes → Reader
  | [] => []
  | head :: tail => [.chunk head tail]

/-- `Read::read` into a buffer of `capacity` bytes: a chunk the buffer cannot hold
is handed out in part.  No bytes mean the end of the input. -/
def read (capacity : Nat) : Reader → Except IoError Bytes × Reader
  | [] => (.ok [], [])
  | .error e :: reader => (.error e, reader)
  | .chunk head tail :: reader =>
      (.ok ((head :: tail).take capacity), ofBytes ((head :: tail).drop capacity) ++ reader)

/-- `Read::read_exact` into a buffer of `missing` bytes: it reads on after
`Interrupted`, and input that ends early is an error. -/
def readExact : Nat → Reader → Except IoError (Bytes × Reader)
  | 0, reader => .ok ([], reader)
  | _ + 1, [] => .error .unexpectedEof
  | missing + 1, .error e :: reader =>
      if e = .interrupted then readExact (missing + 1) reader else .error e
  | missing + 1, .chunk head tail :: reader =>
      if missing < tail.length then
        .ok ((head :: tail).take (missing + 1),
          ofBytes ((head :: tail).drop (missing + 1)) ++ reader)
      else do
        let (rest, reader) ← readExact (missing - tail.length) reader
        return (head :: tail ++ rest, reader)

/-- `take(limit).read_to_end`. -/
def takeToEnd : Nat → Reader → Except IoError Bytes
  | 0, _ => .ok []
  | _ + 1, [] => .ok []
  | limit + 1, .error e :: reader =>
      if e = .interrupted then takeToEnd (limit + 1) reader else .error e
  | limit + 1, .chunk head tail :: reader =>
      if limit < tail.length then .ok ((head :: tail).take (limit + 1))
      else do
        let rest ← takeToEnd (limit - tail.length) reader
        return head :: tail ++ rest

/-! ## What a reader delivers -/

/-- The bytes of a reader that reports no error but `Interrupted`. -/
def contents : Reader → Option Bytes
  | [] => some []
  | .error e :: reader => if e = .interrupted then contents reader else none
  | .chunk head tail :: reader => (contents reader).map (head :: tail ++ ·)

@[simp] theorem contents_nil : contents [] = some [] := rfl

@[simp] theorem contents_interrupted (reader : Reader) :
    contents (.error .interrupted :: reader) = contents reader := rfl

theorem contents_error_cons {e : IoError} {reader : Reader} {bytes : Bytes}
    (h : contents (.error e :: reader) = some bytes) :
    e = .interrupted ∧ contents reader = some bytes := by
  unfold contents at h
  split at h
  · rename_i he
    exact ⟨he, h⟩
  · cases h

theorem contents_chunk_cons {head : UInt8} {tail bytes : Bytes} {reader : Reader} :
    contents (.chunk head tail :: reader) = some bytes ↔
      ∃ rest, contents reader = some rest ∧ bytes = head :: tail ++ rest := by
  rw [contents, Option.map_eq_some_iff]
  exact exists_congr fun rest => and_congr_right fun _ => eq_comm

theorem contents_ofBytes_append {bytes rest : Bytes} {reader : Reader}
    (h : contents reader = some rest) :
    contents (ofBytes bytes ++ reader) = some (bytes ++ rest) := by
  cases bytes with
  | nil => exact h
  | cons head tail =>
      rw [ofBytes, List.singleton_append, contents, h]
      rfl

@[simp] theorem contents_ofBytes (bytes : Bytes) : contents (ofBytes bytes) = some bytes := by
  have h : contents (ofBytes bytes ++ []) = some (bytes ++ []) :=
    contents_ofBytes_append contents_nil
  rwa [List.append_nil, List.append_nil] at h

theorem contents_ofBytes_append_eq (bytes : Bytes) (reader : Reader) :
    contents (ofBytes bytes ++ reader) = (contents reader).map (bytes ++ ·) := by
  cases bytes with
  | nil => exact Option.map_id'.symm
  | cons head tail => rfl

/-- What a read hands out stands in front of what is left. -/
theorem contents_of_read {capacity : Nat} {reader rest : Reader} {piece : Bytes}
    (h : read capacity reader = (.ok piece, rest)) :
    contents reader = (contents rest).map (piece ++ ·) := by
  cases reader with
  | nil =>
      cases h
      rfl
  | cons event reader =>
      cases event with
      | error e => cases h
      | chunk head tail =>
          cases h
          rw [contents_ofBytes_append_eq, Option.map_map, contents]
          congr 1
          funext bytes
          rw [Function.comp_apply, ← List.append_assoc, List.take_append_drop]

theorem contents_of_interrupted {capacity : Nat} {reader rest : Reader}
    (h : read capacity reader = (.error .interrupted, rest)) : contents reader = contents rest := by
  cases reader with
  | nil => cases h
  | cons event reader =>
      cases event with
      | error e =>
          cases h
          rfl
      | chunk head tail => cases h

/-- Only at the end of the input are no bytes handed out. -/
theorem eq_nil_of_read {capacity : Nat} (hcapacity : 0 < capacity) {reader rest : Reader}
    (h : read capacity reader = (.ok [], rest)) : reader = [] := by
  cases reader with
  | nil => rfl
  | cons event reader =>
      cases event with
      | error e => cases h
      | chunk head tail =>
          obtain ⟨n, rfl⟩ := Nat.exists_eq_succ_of_ne_zero (Nat.ne_of_gt hcapacity)
          cases h

/-- `read_exact` takes what it asks for off the front, however it arrives. -/
theorem readExact_of_contents {reader : Reader} {bytes : Bytes}
    (h : contents reader = some bytes) {n : Nat} (hn : n ≤ bytes.length) :
    ∃ reader', readExact n reader = .ok (bytes.take n, reader') ∧
      contents reader' = some (bytes.drop n) := by
  induction reader generalizing n bytes with
  | nil =>
      obtain rfl := Option.some.inj h
      obtain rfl : n = 0 := Nat.le_zero.mp hn
      exact ⟨[], rfl, rfl⟩
  | cons event reader ih =>
      cases n with
      | zero => exact ⟨event :: reader, rfl, h⟩
      | succ missing =>
          cases event with
          | error e =>
              obtain ⟨rfl, hreader⟩ := contents_error_cons h
              exact ih hreader hn
          | chunk head tail =>
              obtain ⟨rest, hreader, rfl⟩ := contents_chunk_cons.mp h
              rw [readExact]
              split
              · rename_i hlt
                have hle : missing + 1 ≤ (head :: tail).length := Nat.succ_le_succ hlt.le
                refine ⟨_, by rw [List.take_append_of_le_length hle], ?_⟩
                rw [contents_ofBytes_append hreader, List.drop_append_of_le_length hle]
              · rename_i hge
                rw [List.length_append, List.length_cons] at hn
                obtain ⟨reader', hread, hcontents⟩ :=
                  ih hreader (n := missing - tail.length) (by omega)
                have hsplit : missing + 1 = (head :: tail).length + (missing - tail.length) := by
                  rw [List.length_cons]
                  omega
                refine ⟨reader', ?_, ?_⟩
                · rw [hread, hsplit, List.take_length_add_append]
                  rfl
                · rw [hcontents, hsplit, List.drop_length_add_append]

/-- `read_exact` fails when the input is too short. -/
theorem readExact_of_short {reader : Reader} {bytes : Bytes}
    (h : contents reader = some bytes) {n : Nat} (hn : bytes.length < n) :
    readExact n reader = .error .unexpectedEof := by
  induction reader generalizing n bytes with
  | nil =>
      obtain rfl := Option.some.inj h
      cases n with
      | zero => exact absurd hn (Nat.lt_irrefl 0)
      | succ missing => rfl
  | cons event reader ih =>
      cases n with
      | zero => exact absurd hn (Nat.not_lt_zero _)
      | succ missing =>
          cases event with
          | error e =>
              obtain ⟨rfl, hreader⟩ := contents_error_cons h
              exact ih hreader hn
          | chunk head tail =>
              obtain ⟨rest, hreader, rfl⟩ := contents_chunk_cons.mp h
              rw [List.length_append, List.length_cons] at hn
              rw [readExact, if_neg (by omega), ih hreader (by omega)]
              rfl

/-- `take(limit).read_to_end` delivers the front of the input. -/
theorem takeToEnd_of_contents {reader : Reader} {bytes : Bytes}
    (h : contents reader = some bytes) (limit : Nat) :
    takeToEnd limit reader = .ok (bytes.take limit) := by
  induction reader generalizing limit bytes with
  | nil =>
      obtain rfl := Option.some.inj h
      cases limit <;> rfl
  | cons event reader ih =>
      cases limit with
      | zero => rfl
      | succ limit =>
          cases event with
          | error e =>
              obtain ⟨rfl, hreader⟩ := contents_error_cons h
              exact ih hreader (limit + 1)
          | chunk head tail =>
              obtain ⟨rest, hreader, rfl⟩ := contents_chunk_cons.mp h
              rw [takeToEnd]
              split
              · rename_i hlt
                rw [List.take_append_of_le_length (Nat.succ_le_succ hlt.le)]
              · have hsplit : limit + 1 = (head :: tail).length + (limit - tail.length) := by
                  rw [List.length_cons]
                  omega
                rw [ih hreader, hsplit, List.take_length_add_append]
                rfl

/-- The bytes that are handed out before the first error. -/
def leading : Reader → Bytes
  | .chunk head tail :: reader => head :: tail ++ leading reader
  | _ => []

theorem leading_ofBytes_append (bytes : Bytes) (reader : Reader) :
    leading (ofBytes bytes ++ reader) = bytes ++ leading reader := by
  cases bytes <;> rfl

theorem error_mem_ofBytes_append {e : IoError} {bytes : Bytes} {reader : Reader} :
    .error e ∈ ofBytes bytes ++ reader ↔ .error e ∈ reader := by
  cases bytes with
  | nil => exact Iff.rfl
  | cons head tail =>
      rw [ofBytes, List.singleton_append, List.mem_cons]
      exact or_iff_right fun h => (by cases h)

/-- A reader without errors hands out everything. -/
theorem leading_of_contents {reader : Reader} {bytes : Bytes} (h : contents reader = some bytes) :
    (leading reader).length ≤ bytes.length ∧
      (.error .interrupted ∉ reader → leading reader = bytes) := by
  induction reader generalizing bytes with
  | nil =>
      obtain rfl := Option.some.inj h
      exact ⟨Nat.le_refl _, fun _ => rfl⟩
  | cons event reader ih =>
      cases event with
      | error e =>
          obtain ⟨rfl, _⟩ := contents_error_cons h
          exact ⟨Nat.zero_le _, fun hnot => absurd List.mem_cons_self hnot⟩
      | chunk head tail =>
          obtain ⟨rest, hreader, rfl⟩ := contents_chunk_cons.mp h
          obtain ⟨hlength, hall⟩ := ih hreader
          rw [leading, List.length_append, List.length_append]
          refine ⟨Nat.add_le_add_left hlength _, fun hnot => ?_⟩
          rw [hall fun hmem => hnot (List.mem_cons_of_mem _ hmem)]

/-! ## Reading shortens the input -/

/-- A bound on the number of reads a reader answers. -/
def size (reader : Reader) : Nat :=
  (reader.map fun
    | .chunk _ tail => tail.length + 1
    | .error _ => 1).sum

theorem size_ofBytes (bytes : Bytes) : size (ofBytes bytes) = bytes.length := by
  cases bytes <;> rfl

theorem size_append (left right : Reader) : size (left ++ right) = size left + size right := by
  rw [size, List.map_append, List.sum_append]
  rfl

/-- A read that is not at the end of the input uses some of it up. -/
theorem size_read_lt {capacity : Nat} (hcapacity : 0 < capacity) {reader : Reader}
    (h : (read capacity reader).1 ≠ .ok []) : size (read capacity reader).2 < size reader := by
  cases reader with
  | nil => exact absurd rfl h
  | cons event reader =>
      cases event with
      | error e =>
          have hcons : size (.error e :: reader) = 1 + size reader := rfl
          rw [read, hcons]
          exact Nat.lt_add_of_pos_left Nat.one_pos
      | chunk head tail =>
          have hcons : size (.chunk head tail :: reader) = (tail.length + 1) + size reader := rfl
          rw [read, size_append, size_ofBytes, List.length_drop, List.length_cons, hcons]
          omega

/-- One read of a reader without hard errors: the end of the input, a nonempty
piece of it, or `Interrupted`. -/
theorem read_of_contents {capacity : Nat} (hcapacity : 0 < capacity) {reader : Reader}
    {bytes : Bytes} (h : contents reader = some bytes) :
    (read capacity reader).1 = .ok [] ∧ bytes = [] ∨
    (∃ piece rest, (read capacity reader).1 = .ok piece ∧ piece ≠ [] ∧
      contents (read capacity reader).2 = some rest ∧ bytes = piece ++ rest) ∨
    (read capacity reader).1 = .error .interrupted ∧
      contents (read capacity reader).2 = some bytes := by
  cases reader with
  | nil => exact Or.inl ⟨rfl, (Option.some.inj h).symm⟩
  | cons event reader =>
      cases event with
      | error e =>
          obtain ⟨rfl, hreader⟩ := contents_error_cons h
          exact Or.inr (Or.inr ⟨rfl, hreader⟩)
      | chunk head tail =>
          obtain ⟨rest, hreader, rfl⟩ := contents_chunk_cons.mp h
          refine Or.inr (Or.inl ⟨(head :: tail).take capacity,
            (head :: tail).drop capacity ++ rest, rfl, ?_, contents_ofBytes_append hreader, ?_⟩)
          · cases capacity with
            | zero => exact absurd hcapacity (Nat.lt_irrefl 0)
            | succ n => exact List.cons_ne_nil _ _
          · rw [← List.append_assoc, List.take_append_drop]

end Reader

end Prep.Io
