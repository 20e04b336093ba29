/-
  Core/Plugin/Diagnostics.lean --- what a plugin has written to its standard error,
  from `DiagnosticBuffer` and `DiagnosticCapture` of `prep-core/src/plugin.rs`.

  The buffer keeps a prefix of what has arrived and remembers whether there was more.  How
  the bytes were cut on the way does not show.

  The worker that reads the pipe is not modelled: what it appends is any list of chunks.  So
  nothing is said here of when a snapshot is taken, nor of a read that fails.
-/
import Prep.Core.Plugin.Types
import Prep.Text.Lossy

set_option autoImplicit false

namespace Prep.Core.Plugin

open Prep.Text

/-- `DiagnosticBuffer`. -/
structure DiagnosticBuffer where
  bytes : Bytes
  truncated : Bool
  deriving DecidableEq, Repr

namespace DiagnosticBuffer

/-- `DiagnosticBuffer::default`. -/
def default : DiagnosticBuffer := ⟨[], false⟩

/-- `DiagnosticBuffer::append`. -/
def append (buffer : DiagnosticBuffer) (bytes : Bytes) (limit : Nat) : DiagnosticBuffer :=
  let remaining := limit - buffer.bytes.length
  let accepted := min remaining bytes.length
  { bytes := buffer.bytes ++ bytes.take accepted
    truncated := if accepted < bytes.length then true else buffer.truncated }

/-- `DiagnosticBuffer::snapshot`. -/
def snapshot (buffer : DiagnosticBuffer) : PluginDiagnostics where
  text := Str.ofLossy buffer.bytes
  truncated := buffer.truncated

/-- A fresh buffer after one chunk and then the next. -/
def appendAll (limit : Nat) (chunks : List Bytes) : DiagnosticBuffer :=
  chunks.foldl (fun buffer chunk => buffer.append chunk limit) default

/-! ## What is kept -/

/-- The buffer after so many bytes have been received. -/
def received (limit : Nat) (bytes : Bytes) : DiagnosticBuffer where
  bytes := bytes.take limit
  truncated := decide (limit < bytes.length)

variable {limit : Nat}

theorem received_nil (limit : Nat) : received limit [] = default := by
  rw [received, List.take_nil]
  rfl

/-- The next chunk finds what the ones before it have left. -/
theorem append_received (bytes chunk : Bytes) :
    (received limit bytes).append chunk limit = received limit (bytes ++ chunk) := by
  have hkept : (bytes.take limit).length = min limit bytes.length := List.length_take
  have hroom : chunk.take (min (limit - (bytes.take limit).length) chunk.length) =
      chunk.take (limit - bytes.length) := by
    rw [List.take_eq_take_iff, hkept]
    omega
  unfold append received
  simp only [DiagnosticBuffer.mk.injEq]
  refine ⟨?_, ?_⟩
  · rw [hroom, List.take_append]
  · rw [hkept, List.length_append]
    split
    · rename_i hmore
      exact (decide_eq_true (by omega)).symm
    · rename_i hall
      exact decide_eq_decide.mpr (by omega)

/-- Only what has arrived counts. -/
theorem foldl_append (bytes : Bytes) (chunks : List Bytes) :
    chunks.foldl (fun buffer chunk => buffer.append chunk limit) (received limit bytes) =
      received limit (bytes ++ chunks.flatten) := by
  induction chunks generalizing bytes with
  | nil => rw [List.foldl_nil, List.flatten_nil, List.append_nil]
  | cons chunk chunks ih =>
      rw [List.foldl_cons, append_received, ih, List.flatten_cons, List.append_assoc]

theorem appendAll_eq (limit : Nat) (chunks : List Bytes) :
    appendAll limit chunks = received limit chunks.flatten := by
  rw [appendAll, ← received_nil limit, foldl_append, List.nil_append]

/-! ## What is shown -/

/-- Replacing what is not text makes it three times as long at most. -/
theorem length_text_received_le (limit : Nat) (bytes : Bytes) :
    (received limit bytes).snapshot.text.bytes.length ≤ 3 * limit :=
  (Utf8.length_lossy_le _).trans
    (Nat.mul_le_mul_left 3 ((List.length_take ..).trans_le (min_le_left ..)))

/-- Text is shown as it was received. -/
theorem text_received {bytes : Bytes} (h : Utf8.valid (bytes.take limit) = true) :
    (received limit bytes).snapshot.text.bytes = bytes.take limit := Utf8.lossy_of_valid h

/-- Diagnostics depend on the bytes alone and not on how they arrive.  What is kept is within
the limit, and what is shown of it is within the limit if it is text. -/
theorem snapshot_appendAll (limit : Nat) (chunks : List Bytes) :
    (∀ chunks', chunks'.flatten = chunks.flatten →
      (appendAll limit chunks').snapshot = (appendAll limit chunks).snapshot) ∧
    ((appendAll limit chunks).snapshot.truncated = true ↔ limit < chunks.flatten.length) ∧
    (appendAll limit chunks).bytes = chunks.flatten.take limit ∧
    (appendAll limit chunks).snapshot.text.bytes.length ≤ 3 * limit ∧
    (Utf8.valid (chunks.flatten.take limit) = true →
      (appendAll limit chunks).snapshot.text.bytes = chunks.flatten.take limit ∧
      (appendAll limit chunks).snapshot.text.bytes.length ≤ limit) := by
  rw [appendAll_eq]
  refine ⟨fun chunks' hsame => ?_, decide_eq_true_iff, rfl, length_text_received_le limit _,
    fun htext => ?_⟩
  · rw [appendAll_eq, hsame]
  · have hshown := text_received htext
    refine ⟨hshown, ?_⟩
    rw [hshown]
    exact (List.length_take ..).trans_le (min_le_left ..)

/-- One byte that is no text is shown as three. -/
theorem snapshot_exceeds_limit : ¬ (appendAll 1 [[0xFF]]).snapshot.text.bytes.length ≤ 1 := by
  decide

end DiagnosticBuffer

end Prep.Core.Plugin
