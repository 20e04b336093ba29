/-
  Io/Lines.lean --- `BufRead::read_until` on a reader with a limit.

  Bytes are taken up to and including a delimiter, up to the limit, or up to the end of
  the input, whichever comes first, however the reader hands them out.
-/
import Prep.Data.Except
import Prep.Io.Reader

set_option autoImplicit false

namespace Prep.Io

open Prep.Text

/-! ## The bytes up to a delimiter -/

/-- The bytes through the first `delim`, no more than `limit` of them. -/
def takeThrough (delim : UInt8) : Nat → Bytes → Bytes
  | 0, _ => []
  | _ + 1, [] => []
  | limit + 1, b :: rest => if b = delim then [b] else b :: takeThrough delim limit rest

section TakeThrough

variable {delim : UInt8} {limit : Nat} {bytes : Bytes}

theorem takeThrough_eq_take : ∃ n, takeThrough delim limit bytes = bytes.take n ∧
    n = (takeThrough delim limit bytes).length := by
  induction bytes generalizing limit with
  | nil => cases limit <;> exact ⟨0, rfl, rfl⟩
  | cons b bytes ih =>
      cases limit with
      | zero => exact ⟨0, rfl, rfl⟩
      | succ limit =>
          rw [takeThrough]
          split
          · exact ⟨1, rfl, rfl⟩
          · obtain ⟨n, htake, hn⟩ := @ih limit
            exact ⟨n + 1, congrArg (b :: ·) htake, congrArg (· + 1) hn⟩

/-- What is taken is the front of the bytes. -/
theorem takeThrough_append_drop :
    takeThrough delim limit bytes ++ bytes.drop (takeThrough delim limit bytes).length =
      bytes := by
  obtain ⟨n, htake, hn⟩ : ∃ n, takeThrough delim limit bytes = bytes.take n ∧
      n = (takeThrough delim limit bytes).length := takeThrough_eq_take
  rw [← hn, htake, List.take_append_drop]

theorem length_takeThrough_le : (takeThrough delim limit bytes).length ≤ bytes.length := by
  obtain ⟨n, htake, _⟩ : ∃ n, takeThrough delim limit bytes = bytes.take n ∧
      n = (takeThrough delim limit bytes).length := takeThrough_eq_take
  rw [htake, List.length_take]
  exact Nat.min_le_right _ _

/-- A text and the delimiter behind it are taken when the limit lets them. -/
theorem takeThrough_of_delim {text rest : Bytes} (htext : delim ∉ text)
    (hlimit : text.length < limit) :
    takeThrough delim limit (text ++ delim :: rest) = text ++ [delim] := by
  induction text generalizing limit with
  | nil =>
      obtain ⟨n, rfl⟩ : ∃ n, limit = n + 1 := ⟨limit - 1, by omega⟩
      exact if_pos rfl
  | cons b text ih =>
      obtain ⟨n, rfl⟩ : ∃ n, limit = n + 1 := ⟨limit - 1, by omega⟩
      rw [List.mem_cons, not_or] at htext
      rw [List.cons_append, takeThrough, if_neg (Ne.symm htext.1),
        ih htext.2 (Nat.lt_of_succ_lt_succ hlimit)]
      rfl

/-- What is taken ends in the delimiter, and nowhere else has it, or it has none. -/
theorem takeThrough_cases (delim : UInt8) (limit : Nat) (bytes : Bytes) :
    (∃ text, takeThrough delim limit bytes = text ++ [delim] ∧ delim ∉ text) ∨
    delim ∉ takeThrough delim limit bytes ∧
      ((takeThrough delim limit bytes).length = limit ∨ takeThrough delim limit bytes = bytes) := by
  induction bytes generalizing limit with
  | nil => cases limit <;> exact Or.inr ⟨List.not_mem_nil, Or.inr rfl⟩
  | cons b bytes ih =>
      cases limit with
      | zero => exact Or.inr ⟨List.not_mem_nil, Or.inl rfl⟩
      | succ limit =>
          rw [takeThrough]
          split
          · rename_i hb
            exact Or.inl ⟨[], by rw [hb]; rfl, List.not_mem_nil⟩
          · rename_i hb
            rcases ih limit with ⟨text, heq, htext⟩ | ⟨hnot, hend⟩
            · refine Or.inl ⟨b :: text, by rw [heq]; rfl, ?_⟩
              exact fun h => (List.mem_cons.mp h).elim (Ne.symm hb) htext
            · refine Or.inr ⟨fun h => (List.mem_cons.mp h).elim (Ne.symm hb) hnot, hend.imp ?_ ?_⟩
              · exact congrArg (· + 1)
              · exact congrArg (b :: ·)

theorem takeThrough_eq_nil_iff (delim : UInt8) (hlimit : 0 < limit) :
    takeThrough delim limit bytes = [] ↔ bytes = [] := by
  obtain ⟨n, rfl⟩ : ∃ n, limit = n + 1 := ⟨limit - 1, by omega⟩
  cases bytes with
  | nil => exact ⟨fun _ => rfl, fun _ => rfl⟩
  | cons b bytes =>
      refine ⟨fun h => ?_, fun h => (by cases h)⟩
      rw [takeThrough] at h
      split at h <;> cases h

/-- Taking from a front that the delimiter does not end and the limit does not stop goes
on behind it. -/
theorem takeThrough_append {front back : Bytes} (hfront : delim ∉ front)
    (hlimit : front.length ≤ limit) :
    takeThrough delim limit (front ++ back) =
      front ++ takeThrough delim (limit - front.length) back := by
  induction front generalizing limit with
  | nil => rfl
  | cons b front ih =>
      obtain ⟨n, rfl⟩ : ∃ n, limit = n + 1 := ⟨limit - 1, by rw [List.length_cons] at hlimit; omega⟩
      rw [List.mem_cons, not_or] at hfront
      rw [List.cons_append, takeThrough, if_neg (Ne.symm hfront.1),
        ih hfront.2 (Nat.le_of_succ_le_succ hlimit), List.length_cons, Nat.add_sub_add_right]
      rfl

/-- Taking from a front that the delimiter or the limit stops does not reach behind
it. -/
theorem takeThrough_append_of_stop {front back : Bytes}
    (h : delim ∈ front ∨ limit ≤ front.length) :
    takeThrough delim limit (front ++ back) = takeThrough delim limit front := by
  induction front generalizing limit with
  | nil =>
      rcases h with h | h
      · exact absurd h List.not_mem_nil
      · obtain rfl := Nat.le_zero.mp h
        rfl
  | cons b front ih =>
      cases limit with
      | zero => rfl
      | succ limit =>
          rw [List.cons_append, takeThrough, takeThrough]
          split
          · rfl
          · rename_i hb
            rw [ih]
            rcases h with h | h
            · exact Or.inl ((List.mem_cons.mp h).resolve_left (Ne.symm hb))
            · exact Or.inr (Nat.le_of_succ_le_succ h)

end TakeThrough

/-! ## Reading up to a delimiter -/

namespace Reader

/-- `take(limit).read_until(delim)`: it reads on after `Interrupted`, and takes no more
of a chunk than it needs. -/
def readUntil (delim : UInt8) : Nat → Reader → Except IoError (Bytes × Reader)
  | 0, reader => .ok ([], reader)
  | _ + 1, [] => .ok ([], [])
  | limit + 1, .error e :: reader =>
      if e = .interrupted then readUntil delim (limit + 1) reader else .error e
  | limit + 1, .chunk head tail :: reader =>
      let taken := takeThrough delim (limit + 1) (head :: tail)
      if delim ∈ head :: tail ∨ limit + 1 ≤ (head :: tail).length then
        .ok (taken, ofBytes ((head :: tail).drop taken.length) ++ reader)
      else do
        let (rest, reader) ← readUntil delim (limit - tail.length) reader
        return (head :: tail ++ rest, reader)

/-- What is read is the front of the input, however it arrives. -/
theorem readUntil_of_contents (delim : UInt8) {reader : Reader} {bytes : Bytes}
    (h : contents reader = some bytes) (limit : Nat) :
    ∃ reader', readUntil delim limit reader = .ok (takeThrough delim limit bytes, reader') ∧
      contents reader' = some (bytes.drop (takeThrough delim limit bytes).length) := by
  induction reader generalizing limit bytes with
  | nil =>
      obtain rfl := Option.some.inj h
      cases limit <;> exact ⟨[], rfl, rfl⟩
  | cons event reader ih =>
      cases limit with
      | zero => exact ⟨_, rfl, h⟩
      | succ limit =>
          cases event with
          | error e =>
              obtain ⟨rfl, hreader⟩ := contents_error_cons h
              exact ih hreader (limit + 1)
          | chunk head tail =>
              obtain ⟨rest, hreader, rfl⟩ := contents_chunk_cons.mp h
              rw [readUntil]
              split
              · rename_i hstop
                have heq : takeThrough delim (limit + 1) (head :: tail ++ rest) =
                    takeThrough delim (limit + 1) (head :: tail) := takeThrough_append_of_stop hstop
                refine ⟨_, by rw [heq], ?_⟩
                rw [contents_ofBytes_append hreader, heq,
                  List.drop_append_of_le_length length_takeThrough_le]
              · rename_i hstop
                rw [not_or, not_le] at hstop
                obtain ⟨reader', hread, hcontents⟩ := ih hreader (limit - tail.length)
                have hlength : limit + 1 - (head :: tail).length = limit - tail.length := by
                  rw [List.length_cons, Nat.add_sub_add_right]
                have heq : takeThrough delim (limit + 1) (head :: tail ++ rest) =
                    head :: tail ++ takeThrough delim (limit - tail.length) rest := by
                  rw [takeThrough_append hstop.1 hstop.2.le, hlength]
                refine ⟨reader', by rw [hread, heq]; rfl, ?_⟩
                rw [hcontents, heq, List.length_append, List.drop_length_add_append]

/-- What is read is used up. -/
theorem size_readUntil {delim : UInt8} {reader reader' : Reader} {limit : Nat} {taken : Bytes}
    (h : readUntil delim limit reader = .ok (taken, reader')) :
    size reader' + taken.length ≤ size reader := by
  induction reader generalizing limit taken reader' with
  | nil => cases limit <;> cases h <;> exact Nat.le_refl _
  | cons event reader ih =>
      cases limit with
      | zero =>
          cases h
          exact Nat.le_refl _
      | succ limit =>
          cases event with
          | error e =>
              rw [readUntil] at h
              split at h
              · exact (ih h).trans (Nat.le_add_left _ 1)
              · cases h
          | chunk head tail =>
              have hcons : size (.chunk head tail :: reader) = (tail.length + 1) + size reader := rfl
              rw [readUntil] at h
              split at h
              · cases h
                have hle : (takeThrough delim (limit + 1) (head :: tail)).length ≤ tail.length + 1 :=
                  length_takeThrough_le
                rw [size_append, size_ofBytes, List.length_drop, List.length_cons, hcons]
                omega
              · obtain ⟨⟨rest, middle⟩, hrest, hret⟩ := Data.bind_eq_ok_iff.mp h
                cases hret
                have hle := ih hrest
                rw [List.length_append, List.length_cons, hcons]
                omega

end Reader

end Prep.Io
