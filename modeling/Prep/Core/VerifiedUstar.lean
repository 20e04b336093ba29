/-
  Core/VerifiedUstar.lean --- `read_verified_ustar_snapshot` of
  `prep-core/src/verified_ustar.rs`.

  The snapshot finds its files by a second walk, over the sizes of the inventory
  alone.  That walk steps from record to record like the first one.

  The digest is compared before anything of the archive is interpreted.  `usize` is that of a
  host of sixty-four bits.
-/
import Prep.Core.UstarWalk

set_option autoImplicit false

namespace Prep.Core

open Prep.Data
open Prep.Io
open Prep.Manifest
open Prep.Text

/-- `MAX_ARCHIVE_SNAPSHOT_BYTES`. -/
def maxArchiveSnapshotBytes : Nat := 64 * 1024 * 1024

/-- `VerifiedUstarSnapshot`. -/
structure VerifiedUstarSnapshot where
  sha256 : Sha256Digest
  bytes : Bytes
  entries : List ArchiveEntry
  files : Std.TreeMap Bytes (Nat × Nat)

namespace VerifiedUstarSnapshot

/-- `VerifiedUstarSnapshot::inventory`. -/
def inventory (snapshot : VerifiedUstarSnapshot) : List ArchiveEntry := snapshot.entries

/-- `VerifiedUstarSnapshot::file_bytes`. -/
def fileBytes (snapshot : VerifiedUstarSnapshot) (name : Bytes) : Option Bytes := do
  let (start, stop) ← snapshot.files[name]?
  if start ≤ stop ∧ stop ≤ snapshot.bytes.length then slice start stop snapshot.bytes else none

end VerifiedUstarSnapshot

/-- `usize::try_from` of a `u64`, on a host of sixty-four bits. -/
def usizeTryFrom (n : Nat) : Except SourceVerificationError Nat :=
  if n < 2 ^ 64 then .ok n else .error .tooLarge

/-- The variables of the offset loop. -/
structure FileTable where
  offset : Nat
  files : Std.TreeMap Bytes (Nat × Nat)

/-- One pass of the offset loop of `read_verified_ustar_snapshot`, over an archive of
`length` bytes. -/
def locateEntry (length : Nat) (table : FileTable) (entry : ArchiveEntry) :
    Except SourceVerificationError FileTable := do
  let start ← checkedAdd table.offset 512
  let size ← usizeTryFrom entry.expandedBytes
  let stop ← checkedAdd start size
  let sum ← checkedAdd size 511
  let span ← checkedMul (sum / 512) 512
  let offset ← checkedAdd start span
  if offset > length ∨ stop > length then .error .unsafeEntryPath
  else if entry.kind = .regularFile then
    .ok ⟨offset, table.files.insert entry.name (start, stop)⟩
  else .ok ⟨offset, table.files⟩

/-- The offset loop. -/
def locateFiles (length : Nat) (entries : List ArchiveEntry) :
    Except SourceVerificationError FileTable :=
  entries.foldlM (locateEntry length) ⟨0, ∅⟩

/-- `read_verified_ustar_snapshot`. -/
def readVerifiedUstarSnapshot (sha256 : Bytes → Sha256Output) (source : LockedSource)
    (input : Reader) (limits : ArchiveLimits) (maxArchiveBytes : UInt64) :
    Except SourceVerificationError VerifiedUstarSnapshot :=
  match source with
  | .path _ => .error .nonImmutable
  | .git _ _ _ _ => .error .wrongKind
  | .archive _ digest _ =>
      if maxArchiveBytes.toNat > maxArchiveSnapshotBytes then .error .tooLarge
      else
        match input.takeToEnd (maxArchiveBytes.toNat + 1) with
        | .error e => .error (.io e)
        | .ok bytes =>
            if bytes.length > maxArchiveBytes.toNat then .error .tooLarge
            else do
              let _ ← verifyArchiveBytes sha256 source (.ofBytes bytes) maxArchiveBytes.toNat
              let entries ← inspectUstar (.ofBytes bytes) limits maxArchiveBytes
              let table ← locateFiles bytes.length entries
              return ⟨digest, bytes, entries, table.files⟩

/-- What a snapshot is read from. -/
structure ReadFrom (sha256 : Bytes → Sha256Output) (source : LockedSource) (input : Reader)
    (limits : ArchiveLimits) (maxArchiveBytes : UInt64) (snapshot : VerifiedUstarSnapshot) :
    Prop where
  archive : ∃ url provider, source = .archive url snapshot.sha256 provider
  cap : maxArchiveBytes.toNat ≤ maxArchiveSnapshotBytes
  read : input.takeToEnd (maxArchiveBytes.toNat + 1) = .ok snapshot.bytes
  length : snapshot.bytes.length ≤ maxArchiveBytes.toNat
  verified : ∃ total, verifyArchiveBytes sha256 source (.ofBytes snapshot.bytes)
    maxArchiveBytes.toNat = .ok total
  inspected : inspectUstar (.ofBytes snapshot.bytes) limits maxArchiveBytes =
    .ok snapshot.entries
  located : ∃ table, locateFiles snapshot.bytes.length snapshot.entries = .ok table ∧
    snapshot.files = table.files

theorem readVerifiedUstarSnapshot_eq_ok_iff {sha256 : Bytes → Sha256Output}
    {source : LockedSource} {input : Reader} {limits : ArchiveLimits} {maxArchiveBytes : UInt64}
    {snapshot : VerifiedUstarSnapshot} :
    readVerifiedUstarSnapshot sha256 source input limits maxArchiveBytes = .ok snapshot ↔
      ReadFrom sha256 source input limits maxArchiveBytes snapshot := by
  constructor
  · intro h
    cases source with
    | path localPath => cases h
    | git url commit requestedRef provider => cases h
    | archive url digest provider =>
        rw [readVerifiedUstarSnapshot] at h
        split at h
        · cases h
        · rename_i hcap
          split at h
          · cases h
          · rename_i bytes hread
            split at h
            · cases h
            · rename_i hlength
              obtain ⟨total, htotal, h⟩ := bind_eq_ok_iff.mp h
              obtain ⟨entries, hentries, h⟩ := bind_eq_ok_iff.mp h
              obtain ⟨table, htable, h⟩ := bind_eq_ok_iff.mp h
              cases h
              exact ⟨⟨url, provider, rfl⟩, Nat.le_of_not_lt hcap, hread,
                Nat.le_of_not_lt hlength, ⟨total, htotal⟩, hentries, table, htable, rfl⟩
  · rintro ⟨⟨url, provider, rfl⟩, hcap, hread, hlength, ⟨total, htotal⟩, hentries, table, htable,
      hfiles⟩
    rw [readVerifiedUstarSnapshot, if_neg (Nat.not_lt.mpr hcap), hread]
    dsimp only
    rw [if_neg (Nat.not_lt.mpr hlength)]
    refine bind_eq_ok_iff.mpr ⟨total, htotal, bind_eq_ok_iff.mpr ⟨_, hentries, ?_⟩⟩
    refine bind_eq_ok_iff.mpr ⟨table, htable, ?_⟩
    rw [← hfiles]
    rfl

/-! ## The second walk -/

/-- Where the data of a record stands. -/
def dataRange (members : List Member) (k : Nat) (m : Member) : Nat × Nat :=
  (offsetOf members k + 512, offsetOf members k + 512 + m.entry.expandedBytes)

/-- What the second walk has found after the first records of a list. -/
structure Locates (members : List Member) (count : Nat) (table : FileTable) : Prop where
  offset : table.offset = offsetOf members count
  files : ∀ name range, table.files[name]? = some range ↔
    ∃ k m, k < count ∧ members[k]? = some m ∧ m.entry.kind = .regularFile ∧
      m.entry.name = name ∧ range = dataRange members k m

theorem offsetOf_succ {members : List Member} {k : Nat} {m : Member}
    (h : members[k]? = some m) : offsetOf members (k + 1) = offsetOf members k + m.bytes.length := by
  rw [offsetOf, List.take_add_one, h, List.flatMap_append, List.length_append, Option.toList_some,
    List.flatMap_singleton, offsetOf]

theorem offsetOf_mono (members : List Member) {j k : Nat} (h : j ≤ k) :
    offsetOf members j ≤ offsetOf members k := by
  have htake : members.take j <+: members.take k := List.take_prefix_take_left h
  obtain ⟨more, hmore⟩ := htake
  rw [offsetOf, offsetOf, ← hmore, List.flatMap_append, List.length_append]
  exact Nat.le_add_right _ _

/-- A record and its zeros lie within the archive. -/
theorem offsetOf_le {bytes : Bytes} {members : List Member} (h : SplitsInto bytes members)
    (k : Nat) : offsetOf members k + 1024 ≤ bytes.length := by
  obtain ⟨zeros, hzeros, rfl⟩ := h
  have hle := offsetOf_mono members (Nat.le_max_left k members.length)
  rw [offsetOf, offsetOf, List.take_of_length_le (Nat.le_max_right k members.length)] at hle
  rw [offsetOf, List.length_append, List.length_replicate]
  omega

/-- A step of the second walk passes a record. -/
theorem locateEntry_of_locates {bytes : Bytes} {members : List Member}
    (hsplit : SplitsInto bytes members) (hbytes : bytes.length < 2 ^ 64)
    (hdistinct : (members.map (·.entry.name)).Nodup) {k : Nat} {m : Member}
    (hm : members[k]? = some m) {table : FileTable} (h : Locates members k table) :
    ∃ next, locateEntry bytes.length table m.entry = .ok next ∧ Locates members (k + 1) next := by
  have hnext := offsetOf_succ hm
  have hwithin := offsetOf_le hsplit (k + 1)
  rw [m.length_bytes] at hnext
  have hoffset := h.offset
  -- none of the checks of a pass can fail within the archive
  have hpass : locateEntry bytes.length table m.entry =
      if m.entry.kind = .regularFile then
        .ok ⟨offsetOf members (k + 1), table.files.insert m.entry.name (dataRange members k m)⟩
      else .ok ⟨offsetOf members (k + 1), table.files⟩ := by
    unfold locateEntry
    rw [hoffset, checkedAdd_eq_ok_iff.mpr ⟨rfl, by omega⟩]
    show (usizeTryFrom m.entry.expandedBytes >>= _) = _
    rw [usizeTryFrom, if_pos (by omega)]
    show (checkedAdd _ _ >>= _) = _
    rw [checkedAdd_eq_ok_iff.mpr ⟨rfl, by omega⟩]
    show (checkedAdd _ _ >>= _) = _
    rw [checkedAdd_eq_ok_iff.mpr ⟨rfl, by omega⟩]
    show (checkedMul _ _ >>= _) = _
    rw [checkedMul_eq_ok_iff.mpr ⟨rfl, by omega⟩]
    show (checkedAdd _ _ >>= _) = _
    rw [checkedAdd_eq_ok_iff.mpr ⟨rfl, by omega⟩]
    show (if _ then _ else _) = _
    rw [if_neg (by omega), hnext, Nat.add_assoc, dataRange]
  have hlast : ∀ (j : Nat) (m' : Member), j < k + 1 → members[j]? = some m' →
      j < k ∨ j = k ∧ m' = m := by
    intro j m' hj hm'
    rcases Nat.lt_succ_iff_lt_or_eq.mp hj with hlt | rfl
    · exact Or.inl hlt
    · exact Or.inr ⟨rfl, Option.some.inj (hm'.symm.trans hm)⟩
  rw [hpass]
  split
  · rename_i hkind
    refine ⟨_, rfl, rfl, fun name range => ?_⟩
    rw [Std.TreeMap.getElem?_insert]
    split
    · rename_i heq
      obtain rfl := Std.LawfulEqOrd.eq_of_compare heq
      constructor
      · intro hrange
        exact ⟨k, m, Nat.lt_succ_self k, hm, hkind, rfl, (Option.some.inj hrange).symm⟩
      · rintro ⟨j, m', hj, hm', _, hname, rfl⟩
        rcases hlast j m' hj hm' with hlt | ⟨rfl, rfl⟩
        · have hsame : (members.map (·.entry.name))[j]? = (members.map (·.entry.name))[k]? := by
            rw [List.getElem?_map, List.getElem?_map, hm, hm', Option.map_some, Option.map_some,
              hname]
          have hlength : j < (members.map (·.entry.name)).length := by
            rw [List.length_map]
            exact (List.getElem?_eq_some_iff.mp hm').1
          exact absurd ((List.getElem?_inj hlength hdistinct).mp hsame) hlt.ne
        · rfl
    · rename_i hne
      rw [h.files]
      constructor
      · rintro ⟨j, m', hj, hrest⟩
        exact ⟨j, m', Nat.lt_succ_of_lt hj, hrest⟩
      · rintro ⟨j, m', hj, hm', hkind', rfl, hrange⟩
        rcases hlast j m' hj hm' with hlt | ⟨rfl, rfl⟩
        · exact ⟨j, m', hlt, hm', hkind', rfl, hrange⟩
        · exact absurd Std.ReflOrd.compare_self hne
  · rename_i hkind
    refine ⟨_, rfl, rfl, fun name range => ?_⟩
    rw [h.files]
    constructor
    · rintro ⟨j, m', hj, hrest⟩
      exact ⟨j, m', Nat.lt_succ_of_lt hj, hrest⟩
    · rintro ⟨j, m', hj, hm', hkind', hrest⟩
      rcases hlast j m' hj hm' with hlt | ⟨rfl, rfl⟩
      · exact ⟨j, m', hlt, hm', hkind', hrest⟩
      · exact absurd hkind' hkind

/-- The second walk finds every regular file of an archive of the grammar, and none
of its checks fails. -/
theorem locateFiles_of_splitsInto {bytes : Bytes} {members : List Member}
    (hsplit : SplitsInto bytes members) (hbytes : bytes.length < 2 ^ 64)
    (hdistinct : (members.map (·.entry.name)).Nodup) :
    ∃ table, locateFiles bytes.length (members.map (·.entry)) = .ok table ∧
      Locates members members.length table := by
  have hrun : ∀ (done left : List Member) (table : FileTable), members = done ++ left →
      Locates members done.length table →
      ∃ result, (left.map (·.entry)).foldlM (locateEntry bytes.length) table = .ok result ∧
        Locates members members.length result := by
    intro done left
    induction left generalizing done with
    | nil =>
        intro table hmembers hlocates
        rw [List.append_nil] at hmembers
        exact ⟨table, rfl, hmembers ▸ hlocates⟩
    | cons m left ih =>
        intro table hmembers hlocates
        have hm : members[done.length]? = some m := by
          rw [hmembers, List.getElem?_append_right (le_refl _), Nat.sub_self]
          rfl
        obtain ⟨next, hnext, hlocates'⟩ :=
          locateEntry_of_locates hsplit hbytes hdistinct hm hlocates
        have hlength : (done ++ [m]).length = done.length + 1 := List.length_append
        obtain ⟨result, hresult, hall⟩ := ih (done ++ [m]) next
          (by rw [hmembers, List.append_cons]) (hlength ▸ hlocates')
        refine ⟨result, ?_, hall⟩
        rw [List.map_cons, List.foldlM_cons, hnext]
        exact hresult
  refine hrun [] members ⟨0, ∅⟩ rfl ⟨rfl, fun name range => ?_⟩
  rw [Std.TreeMap.getElem?_emptyc]
  refine ⟨fun h => (by cases h), ?_⟩
  rintro ⟨_, _, hlt, _⟩
  exact absurd hlt (Nat.not_lt_zero _)

end Prep.Core
