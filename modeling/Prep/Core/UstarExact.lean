/-
  Core/UstarExact.lean --- a verified snapshot holds an archive of the grammar and
  nothing else, and its two walks agree.

  So what a snapshot names as the contents of a file is the data of the one record of that name,
  wherever the two walks are compared.
-/
import Prep.Core.VerifiedUstar

set_option autoImplicit false

namespace Prep.Core

open Prep.Data
open Prep.Io
open Prep.Manifest
open Prep.Text

/-! ## Places in an archive -/

/-- A place in the data of the k-th record. -/
def InDataOf (members : List Member) (k i : Nat) : Prop :=
  ∃ m, members[k]? = some m ∧ (dataRange members k m).1 ≤ i ∧ i < (dataRange members k m).2

/-- A place in the header block of the k-th record. -/
def InHeaderOf (members : List Member) (k i : Nat) : Prop :=
  k < members.length ∧ offsetOf members k ≤ i ∧ i < offsetOf members k + 512

/-- From the k-th record on, the archive is that record and what follows it. -/
theorem drop_offsetOf {bytes : Bytes} {members : List Member} (h : SplitsInto bytes members)
    {k : Nat} {m : Member} (hm : members[k]? = some m) :
    bytes.drop (offsetOf members k) = m.bytes ++ bytes.drop (offsetOf members (k + 1)) := by
  obtain ⟨zeros, _, rfl⟩ := h
  obtain ⟨hk, rfl⟩ := List.getElem?_eq_some_iff.mp hm
  have hsplit : ∀ j, members.flatMap Member.bytes ++ List.replicate zeros 0 =
      (members.take j).flatMap Member.bytes ++
        ((members.drop j).flatMap Member.bytes ++ List.replicate zeros 0) := by
    intro j
    rw [← List.append_assoc, ← List.flatMap_append, List.take_append_drop]
  have hdrop : ∀ j, (members.flatMap Member.bytes ++ List.replicate zeros 0).drop
      (offsetOf members j) = (members.drop j).flatMap Member.bytes ++ List.replicate zeros 0 := by
    intro j
    rw [hsplit j, offsetOf, List.drop_left]
  rw [hdrop, hdrop, List.drop_eq_getElem_cons hk, List.flatMap_cons, List.append_assoc]

/-- Behind the last record there are zeros. -/
theorem getElem?_of_offsetOf_le {bytes : Bytes} {members : List Member}
    (h : SplitsInto bytes members) {i : Nat} (hi : offsetOf members members.length ≤ i)
    (hlt : i < bytes.length) : bytes[i]? = some 0 := by
  obtain ⟨zeros, _, rfl⟩ := h
  rw [offsetOf, List.take_length] at hi
  rw [List.length_append, List.length_replicate] at hlt
  rw [List.getElem?_append_right hi, List.getElem?_replicate, if_pos (by omega)]

/-- A place in front of the zeros lies in one of the records. -/
theorem exists_record {members : List Member} {i : Nat} :
    i < offsetOf members members.length →
      ∃ k m, members[k]? = some m ∧ offsetOf members k ≤ i ∧
        i < offsetOf members k + m.bytes.length := by
  induction members generalizing i with
  | nil => exact fun h => absurd h (Nat.not_lt_zero i)
  | cons m members ih =>
      intro h
      rw [List.length_cons, offsetOf_cons_succ] at h
      rcases Nat.lt_or_ge i m.bytes.length with hlt | hge
      · exact ⟨0, m, rfl, Nat.zero_le i, by rwa [offsetOf_zero, Nat.zero_add]⟩
      · obtain ⟨k, m', hm', hle, hlt⟩ := ih (show i - m.bytes.length < _ by omega)
        refine ⟨k + 1, m', hm', ?_, ?_⟩
        · rw [offsetOf_cons_succ]
          omega
        · rw [offsetOf_cons_succ]
          omega

/-- Places of two records do not mix. -/
theorem record_unique {members : List Member} {j k i : Nat} {m m' : Member}
    (hm : members[j]? = some m) (hm' : members[k]? = some m')
    (hj : offsetOf members j ≤ i) (hj' : i < offsetOf members j + m.bytes.length)
    (hk : offsetOf members k ≤ i) (hk' : i < offsetOf members k + m'.bytes.length) : j = k := by
  rw [← offsetOf_succ hm] at hj'
  rw [← offsetOf_succ hm'] at hk'
  rcases Nat.lt_trichotomy j k with hlt | rfl | hgt
  · have hmono := offsetOf_mono members (Nat.succ_le_of_lt hlt)
    rw [Nat.succ_eq_add_one] at hmono
    omega
  · rfl
  · have hmono := offsetOf_mono members (Nat.succ_le_of_lt hgt)
    rw [Nat.succ_eq_add_one] at hmono
    omega

theorem InDataOf.record {members : List Member} {k i : Nat} (h : InDataOf members k i) :
    ∃ m, members[k]? = some m ∧ offsetOf members k ≤ i ∧
      i < offsetOf members k + m.bytes.length := by
  obtain ⟨m, hm, hstart, hstop⟩ := h
  refine ⟨m, hm, ?_, ?_⟩
  · rw [dataRange] at hstart
    omega
  · rw [dataRange] at hstop
    rw [m.length_bytes]
    omega

/-- Every byte of an archive is in a header block, is data of one record, or is
zero. -/
theorem place_of_splitsInto {bytes : Bytes} {members : List Member}
    (h : SplitsInto bytes members) {i : Nat} (hi : i < bytes.length) :
    (∃ k, InHeaderOf members k i) ∨ (∃! k, InDataOf members k i) ∨ bytes[i]? = some 0 := by
  rcases Nat.lt_or_ge i (offsetOf members members.length) with hlt | hge
  · obtain ⟨k, m, hm, hle, hlt⟩ := exists_record hlt
    have hk : k < members.length := (List.getElem?_eq_some_iff.mp hm).1
    rcases Nat.lt_or_ge i (offsetOf members k + 512) with hheader | hdata
    · exact Or.inl ⟨k, hk, hle, hheader⟩
    · rcases Nat.lt_or_ge i (dataRange members k m).2 with hin | hout
      · refine Or.inr (Or.inl ⟨k, ⟨m, hm, hdata, hin⟩, fun j hj => ?_⟩)
        obtain ⟨m', hm', hle', hlt'⟩ := hj.record
        exact record_unique hm' hm hle' hlt' hle hlt
      · -- behind the data of the record there is only padding
        refine Or.inr (Or.inr ?_)
        rw [dataRange] at hout
        have hpad : (m.header ++ m.data).length ≤ i - offsetOf members k := by
          rw [List.length_append, m.header_length, m.data_length]
          omega
        have hplace : bytes[i]? = m.bytes[i - offsetOf members k]? := by
          have hfront : (bytes.drop (offsetOf members k))[i - offsetOf members k]? =
              m.bytes[i - offsetOf members k]? := by
            rw [drop_offsetOf h hm, List.getElem?_append_left (by omega)]
          rwa [List.getElem?_drop, Nat.add_sub_cancel' hle] at hfront
        have hlength := m.length_bytes
        rw [hplace, Member.bytes, ← List.append_assoc, List.getElem?_append_right hpad, padding,
          List.getElem?_replicate, if_pos]
        rw [List.length_append, m.header_length, m.data_length]
        omega
  · exact Or.inr (Or.inr (getElem?_of_offsetOf_le h hge hi))

/-- The stored range of a record holds its data. -/
theorem slice_dataRange {bytes : Bytes} {members : List Member} (h : SplitsInto bytes members)
    {k : Nat} {m : Member} (hm : members[k]? = some m) :
    slice (dataRange members k m).1 (dataRange members k m).2 bytes = m.data := by
  have hrecord := drop_offsetOf h hm
  rw [Member.bytes, List.append_assoc, List.append_assoc] at hrecord
  have hdata : bytes.drop (offsetOf members k + 512) =
      m.data ++ (padding m.entry.expandedBytes ++ bytes.drop (offsetOf members (k + 1))) := by
    rw [← List.drop_drop, hrecord, ← m.header_length, List.drop_left]
  rw [slice, List.drop_take, dataRange, hdata, Nat.add_sub_cancel_left, ← m.data_length,
    List.take_left]

/-- The data of two records do not overlap. -/
theorem dataRange_disjoint {members : List Member} {j k : Nat} {m m' : Member}
    (hm : members[j]? = some m) (hm' : members[k]? = some m') (hne : j ≠ k) :
    (dataRange members j m).2 ≤ (dataRange members k m').1 ∨
      (dataRange members k m').2 ≤ (dataRange members j m).1 := by
  have hafter : ∀ {j k : Nat} {m m' : Member}, members[j]? = some m → j < k →
      (dataRange members j m).2 ≤ (dataRange members k m').1 := by
    intro j k m m' hm hlt
    have hnext := offsetOf_succ hm
    have hmono := offsetOf_mono members (show j + 1 ≤ k from hlt)
    rw [m.length_bytes] at hnext
    rw [dataRange, dataRange]
    omega
  rcases Nat.lt_or_gt_of_ne hne with hlt | hgt
  · exact Or.inl (hafter hm hlt)
  · exact Or.inr (hafter hm' hgt)

/-! ## The snapshot -/

/-- What a verified snapshot is: an archive of the grammar, the inventory of its
records, and the range of the data of every regular file, which is where the first
walk read that data. -/
structure ExactSnapshot (limits : ArchiveLimits) (maxArchiveBytes : UInt64)
    (snapshot : VerifiedUstarSnapshot) (members : List Member) : Prop where
  splits : SplitsInto snapshot.bytes members
  unique : ∀ others, SplitsInto snapshot.bytes others → others = members
  places : ∀ i, i < snapshot.bytes.length → (∃ k, InHeaderOf members k i) ∨
    (∃! k, InDataOf members k i) ∨ snapshot.bytes[i]? = some 0
  inventory : snapshot.inventory = members.map (·.entry)
  inspected : inspectUstar (.ofBytes snapshot.bytes) limits maxArchiveBytes =
    .ok snapshot.inventory
  walked : ∀ k m, members[k]? = some m → ∃ reached,
    passes limits maxArchiveBytes.toNat k ⟨.ofBytes snapshot.bytes, 0, 0, []⟩ = some reached ∧
      reached.input.contents =
        some (m.bytes ++ snapshot.bytes.drop (offsetOf members (k + 1))) ∧
      (m.entry.kind = .regularFile → snapshot.files[m.entry.name]? =
        some (reached.rawBytes + 512, reached.rawBytes + 512 + m.entry.expandedBytes))
  stored : ∀ name range, snapshot.files[name]? = some range ↔ ∃ k m, members[k]? = some m ∧
    m.entry.kind = .regularFile ∧ m.entry.name = name ∧ range = dataRange members k m
  data : ∀ k m, members[k]? = some m → m.entry.kind = .regularFile →
    slice (dataRange members k m).1 (dataRange members k m).2 snapshot.bytes = m.data ∧
      snapshot.fileBytes m.entry.name = some m.data
  disjoint : ∀ (name name' : Bytes) (range range' : Nat × Nat), snapshot.files[name]? = some range →
    snapshot.files[name']? = some range' → name ≠ name' →
      range.2 ≤ range'.1 ∨ range'.2 ≤ range.1

theorem nodup_names {limits : ArchiveLimits} {members : List Member}
    (h : Admissible limits (members.map (·.entry))) :
    (members.map (·.entry.name)).Nodup := by
  have hlowered : (members.map (·.entry)).map (fun entry => toAsciiLowercase entry.name) =
      (members.map (·.entry.name)).map toAsciiLowercase := by
    rw [List.map_map, List.map_map]
    rfl
  have hdistinct := h.distinct
  rw [hlowered] at hdistinct
  exact hdistinct.of_map

/-- An archive that is inspected without error is one of the grammar, its inventory
is admitted, and the second walk succeeds. -/
theorem inspectUstar_ok {limits : ArchiveLimits} {maxArchiveBytes : UInt64} {input : Reader}
    {bytes : Bytes} {entries : List ArchiveEntry} (hinput : input.contents = some bytes)
    (h : inspectUstar input limits maxArchiveBytes = .ok entries) :
    ∃ members, SplitsInto bytes members ∧ entries = members.map (·.entry) ∧
      Admissible limits entries ∧
      (∀ k, k ≤ members.length → ∃ reached,
        passes limits maxArchiveBytes.toNat k ⟨input, 0, 0, []⟩ = some reached ∧
          WalksTo ⟨input, 0, 0, []⟩ bytes members k reached) ∧
      ∃ table, locateFiles bytes.length entries = .ok table ∧
        Locates members members.length table := by
  obtain ⟨members, hsplit, rfl, ⟨total, htotal⟩, hbound, hpasses⟩ := inspectMembers_ok hinput h
  obtain ⟨hadmissible, _⟩ := validateArchiveInventory_eq_ok_iff.mp htotal
  have hbytes : bytes.length < 2 ^ 64 := by
    have hmax := maxArchiveBytes.toNat_lt
    rw [Nat.zero_add] at hbound
    omega
  exact ⟨members, hsplit, rfl, hadmissible, hpasses,
    locateFiles_of_splitsInto hsplit hbytes (nodup_names hadmissible)⟩

/-- The files of a snapshot are the regular files of its records. -/
theorem ReadFrom.stored {sha256 : Bytes → Sha256Output} {source : LockedSource} {input : Reader}
    {limits : ArchiveLimits} {maxArchiveBytes : UInt64} {snapshot : VerifiedUstarSnapshot}
    (h : ReadFrom sha256 source input limits maxArchiveBytes snapshot) :
    ∃ members, SplitsInto snapshot.bytes members ∧
      snapshot.entries = members.map (·.entry) ∧ Admissible limits snapshot.entries ∧
      (∀ k, k ≤ members.length → ∃ reached,
        passes limits maxArchiveBytes.toNat k ⟨.ofBytes snapshot.bytes, 0, 0, []⟩ =
          some reached ∧
        WalksTo ⟨.ofBytes snapshot.bytes, 0, 0, []⟩ snapshot.bytes members k reached) ∧
      ∀ name range, snapshot.files[name]? = some range ↔ ∃ k m, members[k]? = some m ∧
        m.entry.kind = .regularFile ∧ m.entry.name = name ∧ range = dataRange members k m := by
  obtain ⟨members, hsplit, hentries, hadmissible, hpasses, table, htable, hlocates⟩ :=
    inspectUstar_ok (Reader.contents_ofBytes snapshot.bytes) h.inspected
  obtain ⟨table', htable', hfiles⟩ := h.located
  obtain rfl := Except.ok.inj (htable.symm.trans htable')
  refine ⟨members, hsplit, hentries, hadmissible, hpasses, fun name range => ?_⟩
  rw [hfiles, hlocates.files]
  constructor
  · rintro ⟨k, m, _, hrest⟩
    exact ⟨k, m, hrest⟩
  · rintro ⟨k, m, hm, hrest⟩
    exact ⟨k, m, (List.getElem?_eq_some_iff.mp hm).1, hm, hrest⟩

/-- The bytes of a file are the data of its record. -/
theorem fileBytes_of_stored {snapshot : VerifiedUstarSnapshot} {members : List Member}
    (hsplit : SplitsInto snapshot.bytes members) {k : Nat} {m : Member}
    (hm : members[k]? = some m)
    (hstored : snapshot.files[m.entry.name]? = some (dataRange members k m)) :
    snapshot.fileBytes m.entry.name = some m.data := by
  have hstop := offsetOf_le hsplit (k + 1)
  rw [offsetOf_succ hm, m.length_bytes] at hstop
  have hwithin : (dataRange members k m).1 ≤ (dataRange members k m).2 ∧
      (dataRange members k m).2 ≤ snapshot.bytes.length := by
    rw [dataRange]
    omega
  unfold VerifiedUstarSnapshot.fileBytes
  rw [hstored]
  exact (if_pos hwithin).trans (congrArg some (slice_dataRange hsplit hm))

/-- A snapshot that is read is exact. -/
theorem ReadFrom.exact {sha256 : Bytes → Sha256Output} {source : LockedSource} {input : Reader}
    {limits : ArchiveLimits} {maxArchiveBytes : UInt64} {snapshot : VerifiedUstarSnapshot}
    (h : ReadFrom sha256 source input limits maxArchiveBytes snapshot) :
    ∃ members, ExactSnapshot limits maxArchiveBytes snapshot members := by
  obtain ⟨members, hsplit, hentries, _, hpasses, hstored⟩ := h.stored
  refine ⟨members, hsplit, fun others hothers => hothers.unique hsplit,
    fun i hi => place_of_splitsInto hsplit hi, hentries, h.inspected, ?_, hstored, ?_, ?_⟩
  · intro k m hm
    obtain ⟨reached, hreached, hwalks⟩ := hpasses k (List.getElem?_eq_some_iff.mp hm).1.le
    refine ⟨reached, hreached, ?_, fun hkind => (hstored _ _).mpr ⟨k, m, hm, hkind, rfl, ?_⟩⟩
    · rw [hwalks.input, drop_offsetOf hsplit hm]
    · rw [hwalks.rawBytes, Nat.zero_add]
      rfl
  · intro k m hm hkind
    exact ⟨slice_dataRange hsplit hm,
      fileBytes_of_stored hsplit hm ((hstored _ _).mpr ⟨k, m, hm, hkind, rfl, rfl⟩)⟩
  · intro name name' range range' hrange hrange' hne
    obtain ⟨j, m, hm, _, rfl, rfl⟩ := (hstored _ _).mp hrange
    obtain ⟨k, m', hm', _, rfl, rfl⟩ := (hstored _ _).mp hrange'
    refine dataRange_disjoint hm hm' ?_
    rintro rfl
    exact hne (congrArg (fun m : Member => m.entry.name) (Option.some.inj (hm.symm.trans hm')))

/-- The bytes of a snapshot are those its reader delivers. -/
theorem ReadFrom.bytes_eq {sha256 : Bytes → Sha256Output} {source : LockedSource}
    {input : Reader} {limits : ArchiveLimits} {maxArchiveBytes : UInt64}
    {snapshot : VerifiedUstarSnapshot}
    (h : ReadFrom sha256 source input limits maxArchiveBytes snapshot) {bytes : Bytes}
    (hbytes : input.contents = some bytes) : snapshot.bytes = bytes := by
  have hread := h.read
  have hlength := h.length
  rw [Reader.takeToEnd_of_contents hbytes] at hread
  have htake := Except.ok.inj hread
  rw [← htake, List.length_take] at hlength
  rw [← htake]
  exact List.take_of_length_le (by omega)

end Prep.Core
