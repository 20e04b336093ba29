/-
  Core/GitTreeAncestors.lean --- the paths of an accepted listing.

  They are all different, but the check looks at whole paths only: a path may be a file and
  a directory at once.

  The condition under which a listing does describe a tree of files is on its bytes alone, so it
  could be decided before anything is checked out.  The checkout itself is Git's and left out.
-/
import Prep.Core.GitTree

set_option autoImplicit false

namespace Prep.Core

open Prep.Data
open Prep.Text

/-- The paths of a listing: what stands behind the first tab of each record. -/
def listedPaths (bytes : Bytes) : List Bytes :=
  (bytes.dropLast.splitOn 0).filterMap fun record => (splitOnceByte 9 record).map (·.2)

/-- The listed paths can all be files of one tree. -/
def ChecksOut (paths : List Bytes) : Prop :=
  paths.Nodup ∧ ∀ path ∈ paths, ∀ other ∈ paths, ¬ path ++ [47] <+: other

/-- Some text stands behind a tab twice, once as a whole path and once as a directory. -/
def ListsTwice (bytes : Bytes) : Prop :=
  ∃ text, 9 :: (text ++ [0]) <:+: bytes ∧ 9 :: (text ++ [47]) <:+: bytes

variable {maxEntries maxPathBytes : Nat} {records : List BlobRecord}

theorem splitOn_flatMap_bytes (h : Lists maxEntries maxPathBytes ⟨[], none, 0⟩ records)
    (hne : records ≠ []) : (records.flatMap BlobRecord.bytes).dropLast.splitOn 0 =
      records.map BlobRecord.line := by
  have hlines : records.map BlobRecord.line ≠ [] := fun hnil => hne (List.map_eq_nil_iff.mp hnil)
  rw [flatMap_bytes, flatMap_terminated hlines, List.dropLast_concat,
    List.splitOn_intercalate 0 (zero_notMem_lines h) hlines]

theorem listedPaths_eq (h : Lists maxEntries maxPathBytes ⟨[], none, 0⟩ records) :
    listedPaths (records.flatMap BlobRecord.bytes) = records.map (·.path) := by
  cases records with
  | nil => rfl
  | cons record records =>
      rw [listedPaths, splitOn_flatMap_bytes h (List.cons_ne_nil _ _), List.filterMap_map,
        ← List.filterMap_eq_map]
      refine List.filterMap_congr fun other _ => ?_
      have hcut : splitOnceByte 9 other.line = some (other.header, other.path) :=
        splitOnceByte_eq_some_iff.mpr ⟨rfl, other.notMem_header.2⟩
      rw [Function.comp_apply, hcut]
      rfl

/-- A tab of a listing stands in front of a path. -/
theorem tab_of_lists (h : ∀ record ∈ records, 9 ∉ record.path) {front back : Bytes}
    (hbytes : records.flatMap BlobRecord.bytes = front ++ 9 :: back) :
    ∃ before record after, records = before ++ record :: after ∧
      back = record.path ++ 0 :: after.flatMap BlobRecord.bytes := by
  induction records generalizing front with
  | nil => exact absurd hbytes.symm (List.append_ne_nil_of_right_ne_nil _ (List.cons_ne_nil _ _))
  | cons record records ih =>
      have hhead : record.header ++ 9 :: (record.path ++ 0 ::
          records.flatMap BlobRecord.bytes) = front ++ 9 :: back := by
        rw [← hbytes, List.flatMap_cons, BlobRecord.bytes, BlobRecord.line]
        simp only [List.append_assoc, List.cons_append, List.nil_append]
      obtain ⟨more, _, hback⟩ := exists_behind hhead record.notMem_header.2
      cases more with
      | nil =>
          rw [List.nil_append] at hback
          exact ⟨[], record, records, rfl, ((List.cons.inj hback).2).symm⟩
      | cons b more =>
          -- the tab is not this record's, so it stands behind the end of the record
          obtain ⟨_, hpath⟩ := List.cons.inj hback
          obtain ⟨more', _, hend⟩ := exists_behind hpath (h record List.mem_cons_self)
          have hzero : [0] ++ records.flatMap BlobRecord.bytes = more' ++ 9 :: back := hend
          obtain ⟨front', _, hrest⟩ := exists_behind hzero (by decide)
          obtain ⟨before, other, after, rfl, hother⟩ :=
            ih (fun other hother => h other (List.mem_cons_of_mem _ hother)) hrest
          exact ⟨record :: before, other, after, rfl, hother⟩

/-- What stands behind a tab of an accepted listing. -/
theorem exists_record_of_infix (h : Lists maxEntries maxPathBytes ⟨[], none, 0⟩ records)
    {text : Bytes} {b : UInt8} (htext : 9 :: (text ++ [b]) <:+: records.flatMap BlobRecord.bytes) :
    ∃ before record after more, records = before ++ record :: after ∧
      text ++ b :: more = record.path ++ 0 :: after.flatMap BlobRecord.bytes := by
  obtain ⟨front, more, hbytes⟩ := htext
  rw [List.append_assoc, List.cons_append, List.append_assoc, List.singleton_append] at hbytes
  obtain ⟨before, record, after, hrecords, hback⟩ :=
    tab_of_lists (fun record hrecord => (notMem_path (h.path record hrecord)).2) hbytes.symm
  exact ⟨before, record, after, more, hrecords, hback⟩

/-- A path stands behind a tab, with the end of the record behind it. -/
theorem infix_of_mem {record : BlobRecord} (hrecord : record ∈ records) :
    9 :: (record.path ++ [0]) <:+: records.flatMap BlobRecord.bytes := by
  have hbytes : 9 :: (record.path ++ [0]) <:+: record.bytes := by
    refine ⟨record.header, [], ?_⟩
    rw [BlobRecord.bytes, BlobRecord.line]
    simp only [List.append_assoc, List.cons_append, List.append_nil]
  obtain ⟨before, after, rfl⟩ := List.append_of_mem hrecord
  rw [List.flatMap_append, List.flatMap_cons]
  exact hbytes.trans ⟨before.flatMap BlobRecord.bytes, after.flatMap BlobRecord.bytes, by
    rw [List.append_assoc]⟩

/-- Records of one path are one record, at one place. -/
theorem after_unique (h : (records.map (·.path)).Nodup)
    {before before' after after' : List BlobRecord} {record record' : BlobRecord}
    (hrecords : records = before ++ record :: after)
    (hrecords' : records = before' ++ record' :: after') (hpath : record.path = record'.path) :
    after = after' := by
  have hsame : record = record' := List.inj_on_of_nodup_map h
    (hrecords ▸ List.mem_append_right _ List.mem_cons_self)
    (hrecords' ▸ List.mem_append_right _ List.mem_cons_self) hpath
  subst hsame
  have hnodup := h.of_map
  have hnot : ∀ {before after : List BlobRecord}, records = before ++ record :: after →
      record ∉ before := by
    intro before after heq hmem
    rw [heq, List.nodup_append] at hnodup
    exact hnodup.2.2 record hmem record List.mem_cons_self rfl
  exact (cut_unique (hrecords.symm.trans hrecords') (hnot hrecords) (hnot hrecords')).2

/-- The listed paths can all be files of one tree exactly when no text is listed twice. -/
theorem materialises_iff (h : Lists maxEntries maxPathBytes ⟨[], none, 0⟩ records) :
    ChecksOut (records.map (·.path)) ↔ ¬ ListsTwice (records.flatMap BlobRecord.bytes) := by
  constructor
  · rintro ⟨hnodup, hclash⟩ ⟨text, hfile, hdir⟩
    obtain ⟨before, record, after, more, hrecords, htext⟩ := exists_record_of_infix h hfile
    obtain ⟨before', record', after', more', hrecords', htext'⟩ := exists_record_of_infix h hdir
    have hmem : record ∈ records := hrecords ▸ List.mem_append_right _ List.mem_cons_self
    have hmem' : record' ∈ records := hrecords' ▸ List.mem_append_right _ List.mem_cons_self
    have hfree := (notMem_path (h.path record hmem)).1
    have hfree' := (notMem_path (h.path record' hmem')).1
    by_cases hzero : 0 ∈ text
    · -- the text spans the end of a record: both times of the same one
      obtain ⟨front, back, rfl, hfront⟩ := List.eq_append_cons_of_mem hzero
      rw [List.append_assoc, List.cons_append] at htext htext'
      obtain ⟨hpath, hback⟩ := cut_unique htext hfront hfree
      obtain ⟨hpath', hback'⟩ := cut_unique htext' hfront hfree'
      rw [← after_unique hnodup hrecords hrecords' (hpath.symm.trans hpath'), ← hback] at hback'
      cases List.append_cancel_left hback'
    · obtain ⟨rfl, _⟩ := cut_unique htext hzero hfree
      have hslash : 0 ∉ record.path ++ [47] := by
        rw [List.mem_append, not_or]
        exact ⟨hzero, by decide⟩
      rw [← List.singleton_append, ← List.append_assoc] at htext'
      obtain ⟨below, hbelow, _⟩ := exists_behind htext' hslash
      exact hclash _ (List.mem_map_of_mem hmem) _ (List.mem_map_of_mem hmem') ⟨below, hbelow.symm⟩
  · intro htwice
    refine ⟨h.distinct, fun path hpath other hother hbelow => htwice ⟨path, ?_, ?_⟩⟩
    · obtain ⟨record, hrecord, rfl⟩ := List.mem_map.mp hpath
      exact infix_of_mem hrecord
    · obtain ⟨record, hrecord, rfl⟩ := List.mem_map.mp hother
      have hinfix : 9 :: (path ++ [47]) <:+: 9 :: (record.path ++ [0]) := by
        obtain ⟨below, hbelow⟩ := hbelow
        exact ⟨[], below ++ [0], by rw [← hbelow]; simp⟩
      exact hinfix.trans (infix_of_mem hrecord)

/-- An accepted listing describes a tree of files exactly when it does not list a text behind
a tab twice, once up to the end of a record and once up to a separator. -/
theorem validateGitTreeListing_materialises (bytes : Bytes) (maxEntries maxPathBytes n : Nat)
    (haccepted : validateGitTreeListing bytes maxEntries maxPathBytes = .ok n) :
    ChecksOut (listedPaths bytes) ↔ ¬ ListsTwice bytes := by
  obtain ⟨records, rfl, _, hlists⟩ := validateGitTreeListing_eq_ok_iff.mp haccepted
  rw [listedPaths_eq hlists]
  exact materialises_iff hlists

/-! ## A file with a file in it -/

/-- `100644 blob <digits>`, a path, and the end of the record. -/
def blobLine (digit : UInt8) (path : String) : Bytes :=
  ascii "100644 blob " ++ List.replicate 40 digit ++ 9 :: (ascii path ++ [0])

theorem validateGitTreeListing_materialises_nested :
    validateGitTreeListing (blobLine 97 "src" ++ blobLine 98 "src/main.c") 5 256 = .ok 2 ∧
    ¬ ChecksOut (listedPaths (blobLine 97 "src" ++ blobLine 98 "src/main.c")) := by
  refine ⟨by decide +kernel, fun h => ?_⟩
  have hpaths : listedPaths (blobLine 97 "src" ++ blobLine 98 "src/main.c") =
      [ascii "src", ascii "src/main.c"] := by decide +kernel
  rw [hpaths] at h
  exact h.2 _ List.mem_cons_self _ (List.mem_cons_of_mem _ List.mem_cons_self) (by decide)

theorem validateGitTreeListing_materialises_flat :
    ¬ ListsTwice (blobLine 97 "src" ++ blobLine 98 "main.c") := by
  have hpaths : listedPaths (blobLine 97 "src" ++ blobLine 98 "main.c") =
      [ascii "src", ascii "main.c"] := by decide +kernel
  refine (validateGitTreeListing_materialises (blobLine 97 "src" ++ blobLine 98 "main.c") 5 256 2
    (by decide +kernel)).mp ?_
  rw [hpaths]
  exact ⟨by decide, by decide⟩

end Prep.Core
