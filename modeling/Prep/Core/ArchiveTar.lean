/-
  Core/ArchiveTar.lean --- `inspect_ustar` of `prep-core/src/archive_tar.rs`.

  The loop reads one member in every pass: its header block, then its data blocks.
  Two zero blocks and zeros up to the end of the input end the archive.

  Blocks are read exactly, and the counter of the bytes that have been read is checked as a
  `u64`.  Not here: the digest of an archive, which `Core/VerifiedUstar.lean` checks first.
-/
import Prep.Core.ArchivePolicy

set_option autoImplicit false

namespace Prep.Core

open Prep.Data
open Prep.Io
open Prep.Text

/-- `bytes[start..stop]`. -/
def slice (start stop : Nat) (bytes : Bytes) : Bytes := (bytes.take stop).drop start

/-! ## Fields of a header -/

/-- `read_name`. -/
def readName (raw : Bytes) : Except SourceVerificationError Bytes :=
  let name := raw.takeWhile (· != 0)
  if (raw.dropWhile (· != 0)).any (· != 0) then .error .unsafeEntryPath
  else if !Utf8.valid name then .error .unsafeEntryPath
  else .ok name

/-- `text.trim_matches(' ')`. -/
def trimSpaces (text : Bytes) : Bytes := (text.dropWhile (· == 32)).rdropWhile (· == 32)

/-- `parse_octal`. -/
def parseOctal (raw : Bytes) : Except SourceVerificationError Nat :=
  let text := raw.takeWhile (· != 0)
  if (raw.dropWhile (· != 0)).any (fun b => b != 0 && b != 32) then .error .unsafeEntryPath
  else if !Utf8.valid text then .error .unsafeEntryPath
  else
    let digits := trimSpaces text
    if digits.isEmpty || !digits.all (fun b => 48 ≤ b && b ≤ 55) then .error .unsafeEntryPath
    else if ofDigits 8 digits < 2 ^ 64 then .ok (ofDigits 8 digits)
    else .error .tooLarge

/-- The checksum of a header: the sum of its bytes, those of the checksum field
counted as spaces. -/
def checksum (header : Bytes) : Nat :=
  (header.zipIdx.map fun (byte, index) =>
    if 148 ≤ index ∧ index < 156 then 32 else byte.toNat).sum

/-- The kind a type flag stands for. -/
def memberKind (flag : Option UInt8) : Except SourceVerificationError ArchiveEntryKind :=
  if flag = some 0 ∨ flag = some 48 then .ok .regularFile
  else if flag = some 53 then .ok .directory
  else .error .unsafeEntryPath

/-- `raw_name`: the name behind the text of the field `prefix`. -/
def rawName (label name : Bytes) : Bytes :=
  if label.isEmpty then name else label ++ 47 :: name

/-- `normalized`: a directory's name loses one trailing `/`. -/
def normalizedName (kind : ArchiveEntryKind) (raw : Bytes) : Bytes :=
  if kind = .directory ∧ raw.getLast? = some 47 then raw.dropLast else raw

/-- The part of the loop of `inspect_ustar` that decodes a header. -/
def decodeHeader (limits : ArchiveLimits) (header : Bytes) :
    Except SourceVerificationError ArchiveEntry := do
  if slice 257 263 header ≠ ascii "ustar" ++ [0] ∨ slice 263 265 header ≠ ascii "00" then
    .error .unsafeEntryPath
  else
    let expected ← parseOctal (slice 148 156 header)
    if checksum header ≠ expected then .error .unsafeEntryPath
    else
      let size ← parseOctal (slice 124 136 header)
      if size > limits.maxEntryBytes.toNat then .error .tooLarge
      else
        let kind ← memberKind header[156]?
        if kind = .directory ∧ size ≠ 0 then .error .unsafeEntryPath
        else
          let name ← readName (slice 0 100 header)
          let label ← readName (slice 345 500 header)
          let normalized := normalizedName kind (rawName label name)
          if !normalized.all isAscii then .error .unsafeEntryPath
          else
            validateArchiveEntryPath normalized limits.maxPathBytes.toNat
            return ⟨normalized, kind, size⟩

/-! ## Blocks -/

/-- `read_block`: the block, the input behind it, and the bytes consumed. -/
def readBlock (input : Reader) (consumed maximum : Nat) :
    Except SourceVerificationError (Bytes × Reader × Nat) := do
  let consumed ← checkedAdd consumed 512
  if consumed > maximum then .error .tooLarge
  else
    match input.readExact 512 with
    | .error e => .error (.io e)
    | .ok (block, input) => .ok (block, input, consumed)

/-- The loop over the data blocks of a member of `size` bytes, with so many blocks
left to read.  In the last one, bytes beyond the data are zero. -/
def readData (size maximum : Nat) :
    Nat → Reader → Nat → Except SourceVerificationError (Reader × Nat)
  | 0, input, consumed => .ok (input, consumed)
  | left + 1, input, consumed => do
      let (block, input, consumed) ← readBlock input consumed maximum
      if left = 0 ∧ size % 512 ≠ 0 ∧ (block.drop (size % 512)).any (· != 0) then
        .error .unsafeEntryPath
      else readData size maximum left input consumed

/-- The loop behind the two zero blocks, up to the end of the input. -/
def readTrailer (limits : ArchiveLimits) (maximum : Nat) (entries : List ArchiveEntry)
    (consumed : Nat) (input : Reader) : Except SourceVerificationError (List ArchiveEntry) :=
  match _h : input.read 512 with
  | (.ok [], _) => do
      let _ ← validateArchiveInventory entries limits
      return entries
  | (.ok (head :: tail), rest) =>
      match checkedAdd consumed (tail.length + 1) with
      | .error e => .error e
      | .ok consumed =>
          if consumed > maximum ∨ (head :: tail).any (· != 0) then .error .unsafeEntryPath
          else readTrailer limits maximum entries consumed rest
  | (.error e, rest) =>
      if e = .interrupted then readTrailer limits maximum entries consumed rest
      else .error (.io e)
termination_by input.size
decreasing_by
  all_goals
    have hlt : (input.read 512).1 ≠ .ok [] → (input.read 512).2.size < input.size :=
      Reader.size_read_lt (Nat.succ_pos 511)
    rw [_h] at hlt
    exact hlt fun hnil => by cases hnil

/-! ## Members -/

/-- The variables of the loop of `inspect_ustar`. -/
structure TarWalk where
  input : Reader
  rawBytes : Nat
  expandedTotal : Nat
  entries : List ArchiveEntry

/-- How a pass of the loop ends. -/
inductive Pass where
  | next (walk : TarWalk)
  | done (entries : List ArchiveEntry)

/-- One pass of the loop of `inspect_ustar`. -/
def inspectMember (limits : ArchiveLimits) (maximum : Nat) (walk : TarWalk) :
    Except SourceVerificationError Pass := do
  let (header, input, rawBytes) ← readBlock walk.input walk.rawBytes maximum
  if header.all (· == 0) then
    let (second, input, rawBytes) ← readBlock input rawBytes maximum
    if second.any (· != 0) then .error .unsafeEntryPath
    else
      let entries ← readTrailer limits maximum walk.entries rawBytes input
      return .done entries
  else if walk.entries.length ≥ limits.maxEntries.toNat then .error .tooLarge
  else
    let entry ← decodeHeader limits header
    let expandedTotal ← checkedAdd walk.expandedTotal entry.expandedBytes
    if expandedTotal > limits.maxTotalBytes.toNat then .error .tooLarge
    else
      let padded ← checkedAdd entry.expandedBytes 511
      let (input, rawBytes) ← readData entry.expandedBytes maximum (padded / 512) input rawBytes
      return .next ⟨input, rawBytes, expandedTotal, walk.entries ++ [entry]⟩

/-- A pass that goes on has found room for its entry and added it. -/
theorem inspectMember_entries {limits : ArchiveLimits} {maximum : Nat} {walk next : TarWalk}
    (h : inspectMember limits maximum walk = .ok (.next next)) :
    walk.entries.length < limits.maxEntries.toNat ∧
      next.entries.length = walk.entries.length + 1 := by
  unfold inspectMember at h
  obtain ⟨⟨header, input, rawBytes⟩, _, h⟩ := bind_eq_ok_iff.mp h
  dsimp only at h
  split at h
  · obtain ⟨⟨second, input, rawBytes⟩, _, h⟩ := bind_eq_ok_iff.mp h
    dsimp only at h
    split at h
    · cases h
    · obtain ⟨entries, _, h⟩ := bind_eq_ok_iff.mp h
      cases h
  · split at h
    · cases h
    · rename_i hroom
      obtain ⟨entry, _, h⟩ := bind_eq_ok_iff.mp h
      obtain ⟨expandedTotal, _, h⟩ := bind_eq_ok_iff.mp h
      split at h
      · cases h
      · obtain ⟨padded, _, h⟩ := bind_eq_ok_iff.mp h
        obtain ⟨⟨input, rawBytes⟩, _, h⟩ := bind_eq_ok_iff.mp h
        cases h
        exact ⟨Nat.lt_of_not_le hroom, List.length_append⟩

/-- The loop of `inspect_ustar`. -/
def inspectMembers (limits : ArchiveLimits) (maximum : Nat) (walk : TarWalk) :
    Except SourceVerificationError (List ArchiveEntry) :=
  match _h : inspectMember limits maximum walk with
  | .error e => .error e
  | .ok (.done entries) => .ok entries
  | .ok (.next next) => inspectMembers limits maximum next
termination_by limits.maxEntries.toNat - walk.entries.length
decreasing_by
  obtain ⟨hroom, hnext⟩ := inspectMember_entries _h
  omega

/-- `inspect_ustar`. -/
def inspectUstar (input : Reader) (limits : ArchiveLimits) (maxArchiveBytes : UInt64) :
    Except SourceVerificationError (List ArchiveEntry) :=
  inspectMembers limits maxArchiveBytes.toNat ⟨input, 0, 0, []⟩

end Prep.Core
