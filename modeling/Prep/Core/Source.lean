/-
  Core/Source.lean --- the verification primitives of `prep-core/src/source.rs`.
-/
import Prep.Core.Sha256
import Prep.Data.Except
import Prep.Io.Reader
import Prep.Manifest.Types

set_option autoImplicit false

namespace Prep.Core

open Prep.Io
open Prep.Manifest
open Prep.Text

/-- `SourceVerificationError`. -/
inductive SourceVerificationError where
  | nonImmutable
  | wrongKind
  | identityMismatch
  | tooLarge
  | unsafeEntryPath
  | io (e : IoError)
  deriving DecidableEq, Repr

/-- `checked_add` on sixty-four bits, with the error every caller gives it. -/
def checkedAdd (left right : Nat) : Except SourceVerificationError Nat :=
  if left < 2 ^ 64 - right then .ok (left + right) else .error .tooLarge

/-- `checked_mul` on sixty-four bits. -/
def checkedMul (left right : Nat) : Except SourceVerificationError Nat :=
  if left * right < 2 ^ 64 then .ok (left * right) else .error .tooLarge

theorem checkedAdd_eq_ok_iff {left right sum : Nat} :
    checkedAdd left right = .ok sum ↔ left + right = sum ∧ left + right < 2 ^ 64 := by
  unfold checkedAdd
  split
  · rename_i h
    rw [Except.ok.injEq, and_iff_left (by omega)]
  · rename_i h
    exact ⟨fun hok => (by cases hok), fun hsum => absurd hsum.2 (by omega)⟩

theorem checkedMul_eq_ok_iff {left right product : Nat} :
    checkedMul left right = .ok product ↔ left * right = product ∧ left * right < 2 ^ 64 := by
  unfold checkedMul
  split
  · rename_i h
    rw [Except.ok.injEq, and_iff_left h]
  · rename_i h
    exact ⟨fun hok => (by cases hok), fun hproduct => absurd hproduct.2 h⟩

/-! ## Digests of archives -/

/-- The loop of `verify_archive_bytes`: `total` bytes, `hashed`, so far. -/
def hashArchive (maximum : Nat) (input : Reader) (total : Nat) (hashed : Bytes) :
    Except SourceVerificationError (Nat × Bytes) :=
  match _h : input.read 8192 with
  | (.error e, _) => .error (.io e)
  | (.ok [], _) => .ok (total, hashed)
  | (.ok (head :: tail), rest) =>
      match checkedAdd total (tail.length + 1) with
      | .error e => .error e
      | .ok total =>
          if total > maximum then .error .tooLarge
          else hashArchive maximum rest total (hashed ++ head :: tail)
termination_by input.size
decreasing_by
  have hlt : (input.read 8192).1 ≠ .ok [] → (input.read 8192).2.size < input.size :=
    Reader.size_read_lt (Nat.succ_pos 8191)
  rw [_h] at hlt
  exact hlt fun hnil => by cases hnil

/-- `verify_archive_bytes`. -/
def verifyArchiveBytes (sha256 : Bytes → Sha256Output) (source : LockedSource) (input : Reader)
    (maximum : Nat) : Except SourceVerificationError Nat :=
  match source with
  | .path _ => .error .nonImmutable
  | .git _ _ _ _ => .error .wrongKind
  | .archive _ expected _ => do
      let (total, hashed) ← hashArchive maximum input 0 []
      if finishHex (sha256 hashed) ≠ expected.asStr then .error .identityMismatch
      else .ok total

/-- Bytes in one piece that are within the maximum are all hashed. -/
theorem hashArchive_ofBytes {maximum total : Nat} (hmaximum : maximum < 2 ^ 64)
    (bytes hashed : Bytes) (htotal : total + bytes.length ≤ maximum) :
    hashArchive maximum (Reader.ofBytes bytes) total hashed =
      .ok (total + bytes.length, hashed ++ bytes) := by
  induction hn : bytes.length using Nat.strong_induction_on generalizing bytes hashed total with
  | _ n ih =>
      cases bytes with
      | nil =>
          rw [Reader.ofBytes, hashArchive, ← hn, List.append_nil]
          rfl
      | cons head tail =>
          have hread : Reader.read 8192 (Reader.ofBytes (head :: tail)) =
              (.ok (head :: tail.take 8191), Reader.ofBytes (tail.drop 8191)) := by
            rw [Reader.ofBytes, Reader.read, List.append_nil]
            rfl
          rw [List.length_cons] at htotal hn
          have htake : (tail.take 8191).length ≤ tail.length := by
            rw [List.length_take]
            omega
          have hsplit : (tail.take 8191).length + (tail.drop 8191).length = tail.length := by
            rw [List.length_take, List.length_drop]
            omega
          have hadd : checkedAdd total ((tail.take 8191).length + 1) =
              .ok (total + ((tail.take 8191).length + 1)) :=
            checkedAdd_eq_ok_iff.mpr ⟨rfl, by omega⟩
          rw [hashArchive]
          split
          · rename_i heq
            rw [hread] at heq
            cases heq
          · rename_i heq
            rw [hread] at heq
            cases heq
          · rename_i heq
            rw [hread] at heq
            cases heq
            rw [hadd]
            simp only
            rw [if_neg (by omega), ih _ (by omega) _ _ (by omega) rfl]
            rw [List.append_assoc, List.cons_append, List.take_append_drop, ← hn]
            congr 2
            omega

/-! ## Member names -/

/-- `name.split('/')`. -/
def components (name : Bytes) : List Bytes := name.splitOn 47

/-- `validate_archive_entry_path`. -/
def validateArchiveEntryPath (name : Bytes) (maximumLength : Nat) :
    Except SourceVerificationError Unit :=
  if name.isEmpty || decide (name.length > maximumLength) || name.head? == some 47 ||
      name.contains 92 || name.contains 58 ||
      name.any (fun b => b == 0 || b < 32 || b == 127) ||
      (components name).any fun component =>
        component.isEmpty || component == ascii "." || component == ascii ".." then
    .error .unsafeEntryPath
  else .ok ()

end Prep.Core
