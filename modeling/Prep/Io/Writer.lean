/-
  Io/Writer.lean --- `std::io::Write`: a sink that takes bytes until it fails.
-/
import Prep.Data.Effect
import Prep.Io.Reader

set_option autoImplicit false

namespace Prep.Io

open Prep.Text

/-- A sink: the bytes it has taken, and how many more it takes before it fails, if it
does. -/
structure Writer where
  written : Bytes
  room : Option (Nat × IoError)

namespace Writer

/-- `Write::write_all`.  A sink that fails has taken a part of the bytes. -/
def writeAll (bytes : Bytes) : StateM Writer (Except IoError Unit) := fun writer =>
  match writer.room with
  | none => (.ok (), ⟨writer.written ++ bytes, none⟩)
  | some (room, e) =>
      if bytes.length ≤ room then
        (.ok (), ⟨writer.written ++ bytes, some (room - bytes.length, e)⟩)
      else (.error e, ⟨writer.written ++ bytes.take room, some (0, e)⟩)

/-- `Write::flush` of a pipe, which buffers nothing. -/
def flush : StateM Writer (Except IoError Unit) := pure (.ok ())

/-- Bytes that are written are behind the bytes written before. -/
theorem written_of_writeAll {bytes : Bytes} {writer : Writer}
    (h : (writeAll bytes writer).1 = .ok ()) :
    (writeAll bytes writer).2.written = writer.written ++ bytes := by
  unfold writeAll at h ⊢
  split
  · rfl
  · rename_i room e heq
    split
    · rfl
    · rename_i hroom
      rw [heq] at h
      change (if bytes.length ≤ room then _ else _ : Except IoError Unit × Writer).1 = _ at h
      rw [if_neg hroom] at h
      cases h

end Writer

end Prep.Io
