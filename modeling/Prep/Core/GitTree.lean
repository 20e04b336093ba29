/-
  Core/GitTree.lean --- `validate_git_tree_listing` of `prep-core/src/git_tree.rs` and the
  grammar it accepts.

  A listing is any string of bytes, and both bounds are any numbers.  Identifiers are texts:
  that there is such an object, and that it is a blob, is not asked.
-/
import Prep.Core.Source
import Prep.Data.Split

set_option autoImplicit false

namespace Prep.Core

open Prep.Data
open Prep.Text

/-! ## The check -/

/-- `split_once_byte`. -/
def splitOnceByte (value : UInt8) (bytes : Bytes) : Option (Bytes × Bytes) :=
  (bytes.findIdx? (· == value)).map fun index => (bytes.take index, bytes.drop (index + 1))

/-- The variables of the loop of `validate_git_tree_listing`. -/
structure ListingState where
  entries : List Bytes
  expectedObjectIdLength : Option Nat
  count : Nat

/-- The checks of the loop on the text in front of the path: the object's identifier. -/
def readObjectId (header : Bytes) : Except SourceVerificationError Bytes :=
  match header.splitOn 32 with
  | mode :: kind :: objectId :: more =>
      if more ≠ [] ∨ (mode ≠ ascii "100644" ∧ mode ≠ ascii "100755") ∨ kind ≠ ascii "blob" then
        .error .unsafeEntryPath
      else if (objectId.length ≠ 40 ∧ objectId.length ≠ 64) ∨
          objectId.all isAsciiHexdigit = false then
        .error .unsafeEntryPath
      else .ok objectId
  | _ => .error .unsafeEntryPath

/-- One pass of the loop of `validate_git_tree_listing`. -/
def validateRecord (maxEntries maxPathBytes : Nat) (state : ListingState) (record : Bytes) :
    Except SourceVerificationError ListingState :=
  if state.count + 1 > maxEntries then .error .tooLarge
  else
    match splitOnceByte 9 record with
    | none => .error .unsafeEntryPath
    | some (header, path) =>
        if Utf8.valid path = false then .error .unsafeEntryPath
        else do
          validateArchiveEntryPath path maxPathBytes
          if path ∈ state.entries then .error .unsafeEntryPath
          else
            let objectId ← readObjectId header
            if state.expectedObjectIdLength.any (· != objectId.length) then
              .error .unsafeEntryPath
            else .ok ⟨path :: state.entries, some objectId.length, state.count + 1⟩

/-- `validate_git_tree_listing`. -/
def validateGitTreeListing (bytes : Bytes) (maxEntries maxPathBytes : Nat) :
    Except SourceVerificationError Nat :=
  if bytes.isEmpty then .ok 0
  else if bytes.getLast? ≠ some 0 then .error .unsafeEntryPath
  else do
    let state ← (bytes.dropLast.splitOn 0).foldlM (validateRecord maxEntries maxPathBytes)
      ⟨[], none, 0⟩
    return state.count

/-! ## The grammar -/

/-- A blob of a listing. -/
structure BlobRecord where
  mode : Bytes
  objectId : Bytes
  path : Bytes
  mode_known : mode = ascii "100644" ∨ mode = ascii "100755"
  objectId_length : objectId.length = 40 ∨ objectId.length = 64
  objectId_hex : objectId.all isAsciiHexdigit = true
  path_text : Utf8.valid path = true

namespace BlobRecord

/-- What stands in front of the path. -/
def header (record : BlobRecord) : Bytes :=
  record.mode ++ 32 :: (ascii "blob" ++ 32 :: record.objectId)

/-- The record without its end. -/
def line (record : BlobRecord) : Bytes := record.header ++ 9 :: record.path

/-- The record as it is listed. -/
def bytes (record : BlobRecord) : Bytes := record.line ++ [0]

/-- What separates records and their fields is no part of the fields before the path. -/
theorem notMem_field {record : BlobRecord} {field : Bytes}
    (h : field = record.mode ∨ field = ascii "blob" ∨ field = record.objectId) :
    0 ∉ field ∧ 9 ∉ field ∧ 32 ∉ field := by
  have hhex : ∀ b : UInt8, isAsciiHexdigit b = true → b ≠ 0 ∧ b ≠ 9 ∧ b ≠ 32 := by
    decide +kernel
  rcases h with rfl | rfl | rfl
  · rcases record.mode_known with hmode | hmode <;> rw [hmode] <;> decide
  · decide
  · have hall := List.all_eq_true.mp record.objectId_hex
    exact ⟨fun h => (hhex 0 (hall 0 h)).1 rfl, fun h => (hhex 9 (hall 9 h)).2.1 rfl,
      fun h => (hhex 32 (hall 32 h)).2.2 rfl⟩

theorem notMem_header (record : BlobRecord) : 0 ∉ record.header ∧ 9 ∉ record.header := by
  obtain ⟨hmode, hmode', _⟩ := @notMem_field record _ (.inl rfl)
  obtain ⟨hblob, hblob', _⟩ := @notMem_field record _ (.inr (.inl rfl))
  obtain ⟨hid, hid', _⟩ := @notMem_field record _ (.inr (.inr rfl))
  simp only [header, List.mem_append, List.mem_cons]
  constructor
  · rintro (h | h | h | h | h)
    · exact hmode h
    · cases h
    · exact hblob h
    · cases h
    · exact hid h
  · rintro (h | h | h | h | h)
    · exact hmode' h
    · cases h
    · exact hblob' h
    · cases h
    · exact hid' h

end BlobRecord

theorem splitOnceByte_eq_some_iff {value : UInt8} {bytes front back : Bytes} :
    splitOnceByte value bytes = some (front, back) ↔
      bytes = front ++ value :: back ∧ value ∉ front := by
  rw [splitOnceByte, Option.map_eq_some_iff]
  constructor
  · rintro ⟨index, hindex, hcut⟩
    obtain ⟨rfl, rfl⟩ := Prod.mk.inj hcut
    obtain ⟨hlt, hfound, hbefore⟩ := List.findIdx?_eq_some_iff_getElem.mp hindex
    refine ⟨?_, fun hmem => ?_⟩
    · rw [← eq_of_beq hfound, List.cons_getElem_drop_succ, List.take_append_drop]
    · obtain ⟨i, hi, heq⟩ := List.mem_iff_getElem.mp hmem
      rw [List.length_take] at hi
      rw [List.getElem_take] at heq
      exact hbefore i (by omega) (beq_iff_eq.mpr heq)
  · rintro ⟨rfl, hfree⟩
    refine ⟨front.length, ?_, ?_⟩
    · refine List.findIdx?_eq_some_iff_getElem.mpr ⟨by simp, by simp, fun i hi heq => hfree ?_⟩
      rw [List.getElem_append_left hi] at heq
      exact eq_of_beq heq ▸ List.getElem_mem hi
    · rw [List.take_left, ← List.drop_drop, List.drop_left]
      rfl

/-! ## One record -/

theorem readObjectId_eq_ok_iff {header objectId : Bytes} : readObjectId header = .ok objectId ↔
    ∃ mode, (mode = ascii "100644" ∨ mode = ascii "100755") ∧
      (objectId.length = 40 ∨ objectId.length = 64) ∧ objectId.all isAsciiHexdigit = true ∧
      header = mode ++ 32 :: (ascii "blob" ++ 32 :: objectId) := by
  constructor
  · intro h
    unfold readObjectId at h
    split at h
    · rename_i mode kind found more hsplit
      split at h
      · cases h
      · rename_i hfields
        rw [not_or, not_or, not_not, not_and_or, not_not, not_not, not_not] at hfields
        obtain ⟨rfl, hmode, rfl⟩ := hfields
        split at h
        · cases h
        · rename_i hid
          cases h
          rw [not_or, not_and_or, not_not, not_not, Bool.not_eq_false] at hid
          refine ⟨mode, hmode, hid.1, hid.2, ?_⟩
          rw [← @List.intercalate_splitOn _ header _ _ (32 : UInt8), hsplit,
            List.intercalate_cons_cons, List.intercalate_cons_cons, List.intercalate_singleton]
          simp only [List.append_assoc, List.singleton_append]
    · cases h
  · rintro ⟨mode, hmode, hlength, hhex, rfl⟩
    obtain ⟨_, _, hfree⟩ := @BlobRecord.notMem_field
      ⟨mode, objectId, [], hmode, hlength, hhex, rfl⟩ _ (.inl rfl)
    obtain ⟨_, _, hfree'⟩ := @BlobRecord.notMem_field
      ⟨mode, objectId, [], hmode, hlength, hhex, rfl⟩ _ (.inr (.inr rfl))
    have hsplit : (mode ++ 32 :: (ascii "blob" ++ 32 :: objectId)).splitOn 32 =
        [mode, ascii "blob", objectId] := by
      have hpieces : ∀ piece ∈ [mode, ascii "blob", objectId], (32 : UInt8) ∉ piece := by
        simp only [List.mem_cons, List.not_mem_nil, or_false]
        rintro piece (rfl | rfl | rfl)
        · exact hfree
        · decide
        · exact hfree'
      rw [← List.splitOn_intercalate 32 hpieces (List.cons_ne_nil _ _),
        List.intercalate_cons_cons, List.intercalate_cons_cons, List.intercalate_singleton]
      simp only [List.append_assoc, List.singleton_append]
    unfold readObjectId
    rw [hsplit]
    show (if _ then _ else if _ then _ else _) = _
    rw [if_neg, if_neg]
    · rw [not_or, not_and_or, not_not, not_not, Bool.not_eq_false]
      exact ⟨hlength, hhex⟩
    · rw [not_or, not_or, not_not, not_and_or, not_not, not_not, not_not]
      exact ⟨rfl, hmode, rfl⟩

/-- The variables of the loop behind a record. -/
def ListingState.add (state : ListingState) (record : BlobRecord) : ListingState :=
  ⟨record.path :: state.entries, some record.objectId.length, state.count + 1⟩

/-- What the loop asks of the next record. -/
structure Takes (maxEntries maxPathBytes : Nat) (state : ListingState) (record : BlobRecord) :
    Prop where
  count : state.count + 1 ≤ maxEntries
  path : validateArchiveEntryPath record.path maxPathBytes = .ok ()
  fresh : record.path ∉ state.entries
  length : ∀ length, state.expectedObjectIdLength = some length → record.objectId.length = length

variable {maxEntries maxPathBytes : Nat}

/-- A pass takes a record and nothing else. -/
theorem validateRecord_eq_ok_iff {state state' : ListingState} {line : Bytes} :
    validateRecord maxEntries maxPathBytes state line = .ok state' ↔
      ∃ record : BlobRecord, line = record.line ∧ Takes maxEntries maxPathBytes state record ∧
        state' = state.add record := by
  unfold validateRecord
  constructor
  · intro h
    split at h
    · cases h
    · rename_i hcount
      split at h
      · cases h
      · rename_i header path hcut
        obtain ⟨rfl, _⟩ := splitOnceByte_eq_some_iff.mp hcut
        split at h
        · cases h
        · rename_i htext
          obtain ⟨hpath, hafter⟩ := check_bind_eq_ok_iff.mp h
          split at hafter
          · cases hafter
          · rename_i hfresh
            obtain ⟨objectId, hid, hlast⟩ := bind_eq_ok_iff.mp hafter
            obtain ⟨mode, hmode, hlength, hhex, rfl⟩ := readObjectId_eq_ok_iff.mp hid
            split at hlast
            · cases hlast
            · rename_i hexpected
              cases hlast
              refine ⟨⟨mode, objectId, path, hmode, hlength, hhex,
                Bool.eq_true_of_not_eq_false htext⟩, rfl, ⟨by omega, hpath, hfresh, ?_⟩, rfl⟩
              intro length hsome
              rw [hsome, Option.any_some, Bool.not_eq_true, bne_eq_false_iff_eq] at hexpected
              exact hexpected.symm
  · rintro ⟨record, rfl, htakes, rfl⟩
    have hcut : splitOnceByte 9 record.line = some (record.header, record.path) :=
      splitOnceByte_eq_some_iff.mpr ⟨rfl, record.notMem_header.2⟩
    have hid : readObjectId record.header = .ok record.objectId :=
      readObjectId_eq_ok_iff.mpr ⟨record.mode, record.mode_known, record.objectId_length,
        record.objectId_hex, rfl⟩
    have hcount := htakes.count
    rw [if_neg (by omega), hcut]
    show (if _ then _ else _) = _
    rw [if_neg (ne_false_of_eq_true record.path_text)]
    refine check_bind_eq_ok_iff.mpr ⟨htakes.path, ?_⟩
    rw [if_neg htakes.fresh]
    refine bind_eq_ok_iff.mpr ⟨_, hid, ?_⟩
    rw [if_neg]
    · rfl
    · cases hexpected : state.expectedObjectIdLength with
      | none => exact Bool.false_ne_true
      | some length =>
          rw [Option.any_some, htakes.length length hexpected, bne_self_eq_false]
          exact Bool.false_ne_true

/-! ## The whole listing -/

/-- What the loop asks of all the records to come. -/
structure Lists (maxEntries maxPathBytes : Nat) (state : ListingState)
    (records : List BlobRecord) : Prop where
  count : state.count + records.length ≤ maxEntries
  path : ∀ record ∈ records, validateArchiveEntryPath record.path maxPathBytes = .ok ()
  fresh : ∀ record ∈ records, record.path ∉ state.entries
  distinct : (records.map (·.path)).Nodup
  length : ∀ length, state.expectedObjectIdLength = some length →
    ∀ record ∈ records, record.objectId.length = length
  alike : ∀ record ∈ records, ∀ other ∈ records, record.objectId.length = other.objectId.length

theorem lists_cons_iff {state : ListingState} {record : BlobRecord} {records : List BlobRecord} :
    Lists maxEntries maxPathBytes state (record :: records) ↔
      Takes maxEntries maxPathBytes state record ∧
        Lists maxEntries maxPathBytes (state.add record) records := by
  constructor
  · intro h
    have hcount := h.count
    rw [List.length_cons] at hcount
    obtain ⟨hnew, hdistinct⟩ := List.nodup_cons.mp h.distinct
    refine ⟨⟨by omega, h.path _ List.mem_cons_self, h.fresh _ List.mem_cons_self,
      fun length hlength => h.length length hlength _ List.mem_cons_self⟩,
      ⟨?_, fun other hother => h.path other (List.mem_cons_of_mem _ hother), ?_, hdistinct, ?_,
        fun one hone other hother => h.alike one (List.mem_cons_of_mem _ hone) other
          (List.mem_cons_of_mem _ hother)⟩⟩
    · show state.count + 1 + records.length ≤ maxEntries
      omega
    · intro other hother hmem
      rcases List.mem_cons.mp hmem with heq | hmem
      · exact hnew (List.mem_map.mpr ⟨other, hother, heq⟩)
      · exact h.fresh other (List.mem_cons_of_mem _ hother) hmem
    · intro length hlength other hother
      obtain rfl := Option.some.inj hlength
      exact h.alike other (List.mem_cons_of_mem _ hother) record List.mem_cons_self
  · rintro ⟨htakes, h⟩
    have hcount : state.count + 1 + records.length ≤ maxEntries := h.count
    have hlength : ∀ other ∈ record :: records,
        other.objectId.length = record.objectId.length := by
      intro other hother
      rcases List.mem_cons.mp hother with rfl | hother
      · rfl
      · exact h.length _ rfl other hother
    refine ⟨by rw [List.length_cons]; omega, ?_, ?_, ?_, ?_, ?_⟩
    · intro other hother
      rcases List.mem_cons.mp hother with rfl | hother
      · exact htakes.path
      · exact h.path other hother
    · intro other hother
      rcases List.mem_cons.mp hother with rfl | hother
      · exact htakes.fresh
      · exact fun hmem => h.fresh other hother (List.mem_cons_of_mem _ hmem)
    · rw [List.map_cons, List.nodup_cons]
      refine ⟨fun hmem => ?_, h.distinct⟩
      obtain ⟨other, hother, heq⟩ := List.mem_map.mp hmem
      exact h.fresh other hother (heq ▸ List.mem_cons_self)
    · intro length hsome other hother
      rw [hlength other hother, htakes.length length hsome]
    · intro one hone other hother
      rw [hlength one hone, hlength other hother]

/-- The loop takes records and nothing else. -/
theorem foldlM_validateRecord_eq_ok_iff {lines : List Bytes} :
    ∀ {state state' : ListingState}, state.count ≤ maxEntries →
      (lines.foldlM (validateRecord maxEntries maxPathBytes) state = .ok state' ↔
        ∃ records : List BlobRecord, lines = records.map BlobRecord.line ∧
          Lists maxEntries maxPathBytes state records ∧
          state' = records.foldl ListingState.add state) := by
  induction lines with
  | nil =>
      intro state state' hcount
      constructor
      · intro h
        cases h
        refine ⟨[], rfl, ⟨hcount, ?_, ?_, List.nodup_nil, ?_, ?_⟩, rfl⟩
        · exact fun record h => absurd h List.not_mem_nil
        · exact fun record h => absurd h List.not_mem_nil
        · exact fun _ _ record h => absurd h List.not_mem_nil
        · exact fun record h => absurd h List.not_mem_nil
      · rintro ⟨records, hlines, _, rfl⟩
        obtain rfl := List.map_eq_nil_iff.mp hlines.symm
        rfl
  | cons line lines ih =>
      intro state state' hcount
      rw [List.foldlM_cons]
      constructor
      · intro h
        obtain ⟨next, hnext, h⟩ := bind_eq_ok_iff.mp h
        obtain ⟨record, rfl, htakes, rfl⟩ := validateRecord_eq_ok_iff.mp hnext
        obtain ⟨records, rfl, hlists, rfl⟩ := (ih htakes.count).mp h
        exact ⟨record :: records, rfl, lists_cons_iff.mpr ⟨htakes, hlists⟩, rfl⟩
      · rintro ⟨records, hlines, hlists, rfl⟩
        cases records with
        | nil => cases hlines
        | cons record records =>
            obtain ⟨rfl, rfl⟩ := List.cons.inj hlines
            obtain ⟨htakes, hlists⟩ := lists_cons_iff.mp hlists
            exact bind_eq_ok_iff.mpr ⟨_, validateRecord_eq_ok_iff.mpr ⟨record, rfl, htakes, rfl⟩,
              (ih htakes.count).mpr ⟨records, rfl, hlists, rfl⟩⟩

/-- A path that is safe has no separator of records or fields in it. -/
theorem notMem_path {path : Bytes} (h : validateArchiveEntryPath path maxPathBytes = .ok ()) :
    0 ∉ path ∧ 9 ∉ path := by
  have hcontrol : path.any (fun b => b == 0 || b < 32 || b == 127) = false := by
    unfold validateArchiveEntryPath at h
    split at h
    · cases h
    · rename_i hsafe
      simp only [Bool.or_eq_true, not_or, Bool.not_eq_true] at hsafe
      exact hsafe.1.2
  rw [List.any_eq_false] at hcontrol
  exact ⟨fun hmem => hcontrol 0 hmem (by decide), fun hmem => hcontrol 9 hmem (by decide)⟩

theorem zero_notMem_lines {state : ListingState} {records : List BlobRecord}
    (h : Lists maxEntries maxPathBytes state records) :
    ∀ line ∈ records.map BlobRecord.line, (0 : UInt8) ∉ line := by
  intro line hline
  obtain ⟨record, hrecord, rfl⟩ := List.mem_map.mp hline
  rw [BlobRecord.line, List.mem_append, List.mem_cons, not_or, not_or]
  exact ⟨record.notMem_header.1, by decide, (notMem_path (h.path record hrecord)).1⟩

theorem flatMap_bytes (records : List BlobRecord) : records.flatMap BlobRecord.bytes =
    (records.map BlobRecord.line).flatMap fun line => line ++ [0] := by
  rw [List.flatMap_map]
  rfl

theorem count_foldl_add (records : List BlobRecord) (state : ListingState) :
    (records.foldl ListingState.add state).count = state.count + records.length := by
  induction records generalizing state with
  | nil => rfl
  | cons record records ih =>
      rw [List.foldl_cons, ih, List.length_cons]
      show state.count + 1 + records.length = _
      omega

/-- A listing is accepted exactly when it lists records the loop takes. -/
theorem validateGitTreeListing_eq_ok_iff {bytes : Bytes} {n : Nat} :
    validateGitTreeListing bytes maxEntries maxPathBytes = .ok n ↔
      ∃ records : List BlobRecord, bytes = records.flatMap BlobRecord.bytes ∧
        records.length = n ∧ Lists maxEntries maxPathBytes ⟨[], none, 0⟩ records := by
  unfold validateGitTreeListing
  cases bytes with
  | nil =>
      rw [List.isEmpty_nil, if_pos rfl]
      constructor
      · intro h
        obtain rfl := Except.ok.inj h
        refine ⟨[], rfl, rfl, Nat.zero_le _, ?_, ?_, List.nodup_nil, ?_, ?_⟩
        · exact fun record h => absurd h List.not_mem_nil
        · exact fun record h => absurd h List.not_mem_nil
        · exact fun _ _ record h => absurd h List.not_mem_nil
        · exact fun record h => absurd h List.not_mem_nil
      · rintro ⟨records, hbytes, rfl, _⟩
        cases records with
        | nil => rfl
        | cons record records =>
            rw [List.flatMap_cons] at hbytes
            exact absurd hbytes.symm (List.append_ne_nil_of_left_ne_nil
              (List.append_ne_nil_of_right_ne_nil _ (List.cons_ne_nil _ _)) _)
  | cons b rest =>
      rw [List.isEmpty_cons, if_neg Bool.false_ne_true]
      have hsome : b :: rest ≠ [] := List.cons_ne_nil b rest
      generalize b :: rest = bytes at hsome
      constructor
      · intro h
        split at h
        · cases h
        · rename_i hlast
          rw [not_not] at hlast
          obtain ⟨state, hstate, h⟩ := bind_eq_ok_iff.mp h
          cases h
          obtain ⟨records, hlines, hlists, rfl⟩ :=
            (foldlM_validateRecord_eq_ok_iff (Nat.zero_le _)).mp hstate
          have hne : records.map BlobRecord.line ≠ [] :=
            hlines ▸ List.splitOn_ne_nil 0 bytes.dropLast
          refine ⟨records, ?_, ?_, hlists⟩
          · rw [flatMap_bytes, flatMap_terminated hne, ← hlines, List.intercalate_splitOn]
            exact (List.dropLast_append_getLast? 0 hlast).symm
          · rw [count_foldl_add, Nat.zero_add]
      · rintro ⟨records, rfl, rfl, hlists⟩
        have hne : records.map BlobRecord.line ≠ [] := by
          intro hnil
          rw [List.map_eq_nil_iff.mp hnil] at hsome
          exact hsome rfl
        rw [flatMap_bytes, flatMap_terminated hne, List.getLast?_concat, if_neg (not_not.mpr rfl),
          List.dropLast_concat, List.splitOn_intercalate 0 (zero_notMem_lines hlists) hne]
        refine bind_eq_ok_iff.mpr ⟨_, (foldlM_validateRecord_eq_ok_iff (Nat.zero_le _)).mpr
          ⟨records, rfl, hlists, rfl⟩, ?_⟩
        show Except.ok _ = Except.ok _
        rw [count_foldl_add, Nat.zero_add]

/-- A listing is accepted exactly when it is the concatenation of its records: blobs of a known
mode, identifiers of one length, safe paths that are all different.  Only the empty listing has
no record. -/
theorem validateGitTreeListing_grammar (bytes : Bytes) (maxEntries maxPathBytes n : Nat) :
    (validateGitTreeListing bytes maxEntries maxPathBytes = .ok n ↔
      ∃ records : List BlobRecord, bytes = records.flatMap (fun record => record.mode ++
          [32] ++ ascii "blob" ++ [32] ++ record.objectId ++ [9] ++ record.path ++ [0]) ∧
        records.length = n ∧ n ≤ maxEntries ∧
        (∀ record ∈ records, validateArchiveEntryPath record.path maxPathBytes = .ok ()) ∧
        (∃ length, ∀ record ∈ records, record.objectId.length = length) ∧
        (records.map (·.path)).Nodup) ∧
    (validateGitTreeListing bytes maxEntries maxPathBytes = .ok 0 ↔ bytes = []) := by
  have hbytes : BlobRecord.bytes = fun record => record.mode ++ [32] ++ ascii "blob" ++ [32] ++
      record.objectId ++ [9] ++ record.path ++ [0] := by
    funext record
    rw [BlobRecord.bytes, BlobRecord.line, BlobRecord.header]
    simp only [List.append_assoc, List.cons_append, List.nil_append]
  rw [← hbytes, validateGitTreeListing_eq_ok_iff, validateGitTreeListing_eq_ok_iff]
  refine ⟨exists_congr fun records => and_congr_right fun _ => ⟨?_, ?_⟩, ?_⟩
  · rintro ⟨rfl, h⟩
    have hcount := h.count
    rw [Nat.zero_add] at hcount
    refine ⟨rfl, hcount, h.path, ?_, h.distinct⟩
    cases records with
    | nil => exact ⟨0, fun record hrecord => absurd hrecord List.not_mem_nil⟩
    | cons first records =>
        exact ⟨_, fun record hrecord => h.alike record hrecord first List.mem_cons_self⟩
  · rintro ⟨rfl, hcount, hpath, ⟨length, hlength⟩, hdistinct⟩
    refine ⟨rfl, ⟨by rwa [Nat.zero_add], hpath, fun record _ => List.not_mem_nil, hdistinct,
      fun length hsome => (by cases hsome), ?_⟩⟩
    intro record hrecord other hother
    rw [hlength record hrecord, hlength other hother]
  · constructor
    · rintro ⟨records, rfl, hnone, _⟩
      rw [List.length_eq_zero_iff.mp hnone]
      rfl
    · rintro rfl
      exact validateGitTreeListing_eq_ok_iff.mp rfl

end Prep.Core
