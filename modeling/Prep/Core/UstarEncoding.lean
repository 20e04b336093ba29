/-
  Core/UstarEncoding.lean --- the archives the tests of `prep-core` write, and that
  reading them gives back what was written.

  The writer is no part of the program: it is what a round trip is stated with.  It writes any
  list of members whose names, sizes and contents fit the fields of a header.
-/
import Prep.Core.UstarExact

set_option autoImplicit false

namespace Prep.Core

open Prep.Data
open Prep.Io
open Prep.Manifest
open Prep.Text

/-! ## The encoder -/

/-- What the encoder of the tests (`archive`, `make_archive`, `tar_entry`) takes: a
name that fits its field, a kind, and contents whose size fits eleven octal digits. -/
structure TarMember where
  name : Bytes
  kind : ArchiveEntryKind
  contents : Bytes
  name_length : name.length ≤ 100
  name_noNul : (0 : UInt8) ∉ name
  plain : kind = .regularFile ∨ kind = .directory
  contents_length : contents.length < 8 ^ 11

namespace TarMember

/-- The entry an inventory lists for the member. -/
def entry (m : TarMember) : ArchiveEntry :=
  ⟨normalizedName m.kind m.name, m.kind, m.contents.length⟩

/-- The name field, filled up with NUL. -/
def nameField (m : TarMember) : Bytes := m.name ++ List.replicate (100 - m.name.length) 0

/-- The size field, `{:011o}\\0`. -/
def sizeField (m : TarMember) : Bytes := padded 8 11 m.contents.length ++ [0]

/-- The type flag. -/
def typeFlag (m : TarMember) : UInt8 := if m.kind = .directory then 53 else 48

/-- The fields in front of the checksum. -/
def front (m : TarMember) : Bytes :=
  m.nameField ++ (List.replicate 24 0 ++ (m.sizeField ++ List.replicate 12 0))

/-- The fields behind the checksum. -/
def back (m : TarMember) : Bytes :=
  m.typeFlag :: (List.replicate 100 0 ++
    (ascii "ustar" ++ [0] ++ (ascii "00" ++ List.replicate 247 0)))

/-- The header with the given checksum field. -/
def headerWith (m : TarMember) (field : Bytes) : Bytes := m.front ++ (field ++ m.back)

/-- The checksum field, `{checksum:06o}\\0 `, computed while it is still zero. -/
def checksumField (m : TarMember) : Bytes :=
  padded 8 6 (checksum (m.headerWith (List.replicate 8 0))) ++ [0, 32]

/-- The header block. -/
def header (m : TarMember) : Bytes := m.headerWith m.checksumField

/-- The header block and the contents, padded with zeros to whole blocks. -/
def encode (m : TarMember) : Bytes := m.header ++ (m.contents ++ padding m.contents.length)

end TarMember

/-- The encoding of the members: their records and two blocks of zeros. -/
def encodeArchive (members : List TarMember) : Bytes :=
  members.flatMap TarMember.encode ++ List.replicate 1024 0

/-! ## Fields -/

theorem slice_append_right {xs ys : Bytes} {start stop : Nat} (h : xs.length ≤ start) :
    slice start stop (xs ++ ys) = slice (start - xs.length) (stop - xs.length) ys := by
  rw [slice, List.take_append, List.drop_append, List.drop_of_length_le, List.nil_append, slice,
    List.length_take]
  · rcases Nat.lt_or_ge stop xs.length with hlt | hge
    · rw [show stop - xs.length = 0 by omega, List.take_zero, List.drop_nil, List.drop_nil]
    · rw [Nat.min_eq_right hge]
  · rw [List.length_take]
    omega

theorem slice_append_left {xs ys : Bytes} {stop : Nat} (h : xs.length = stop) :
    slice 0 stop (xs ++ ys) = xs := by
  rw [slice, List.drop_zero, ← h, List.take_left]

/-- The digits of an octal field. -/
theorem octal_digits {width n : Nat} : ∀ b ∈ padded 8 width n, 48 ≤ b ∧ b ≤ 55 := by
  induction width generalizing n with
  | zero => exact fun b hb => absurd hb List.not_mem_nil
  | succ width ih =>
      intro b hb
      rcases List.mem_append.mp hb with hb | hb
      · exact ih b hb
      · obtain rfl := List.mem_singleton.mp hb
        have hdigit : ∀ d, d < 8 → 48 ≤ digitByte d ∧ digitByte d ≤ 55 := by decide
        exact hdigit _ (Nat.mod_lt n (by decide))

/-- A field of octal digits ended by NUL and spaces is read back. -/
theorem parseOctal_field {width n : Nat} {tail : Bytes} (hwidth : 0 < width) (hlimit : width ≤ 21)
    (hn : n < 8 ^ width) (htail : ∀ b ∈ tail, b = 0 ∨ b = 32) :
    parseOctal (padded 8 width n ++ 0 :: tail) = .ok n := by
  have hpow : 8 ^ width ≤ 8 ^ 21 := Nat.pow_le_pow_right (by decide) hlimit
  refine parseOctal_eq_ok_iff.mpr ⟨0, padded 8 width n, 0 :: tail, rfl, ?_, octal_digits, ?_,
    ofDigits_padded (by decide) (by decide) hn, by omega⟩
  · rw [← List.length_pos_iff, length_padded]
    exact hwidth
  · intro b hb
    rcases List.mem_cons.mp hb with rfl | hb
    · exact Or.inl rfl
    · exact htail b hb

/-- A name field is read back. -/
theorem readName_field {name : Bytes} (hascii : name.all isAscii = true)
    (hnul : (0 : UInt8) ∉ name) (fill : Nat) :
    readName (name ++ List.replicate fill 0) = .ok name :=
  readName_eq_ok_iff.mpr ⟨⟨fill, rfl⟩, hnul, Utf8.valid_of_isAscii hascii⟩

/-! ## The checksum -/

/-- What a byte adds to the checksum. -/
def checksumTerm (place : UInt8 × Nat) : Nat :=
  if 148 ≤ place.2 ∧ place.2 < 156 then 32 else place.1.toNat

theorem checksum_eq_sum (header : Bytes) :
    checksum header = (header.zipIdx.map checksumTerm).sum := rfl

/-- Within its own field the checksum counts spaces, whatever is there. -/
theorem sum_checksumTerm_field (field : Bytes) :
    ∀ start, 148 ≤ start → start + field.length ≤ 156 →
      ((field.zipIdx start).map checksumTerm).sum = 32 * field.length := by
  induction field with
  | nil => exact fun _ _ _ => rfl
  | cons b field ih =>
      intro start hstart hlength
      rw [List.length_cons] at hlength
      rw [List.zipIdx_cons, List.map_cons, List.sum_cons, ih (start + 1) (by omega) (by omega),
        checksumTerm, if_pos ⟨hstart, by omega⟩, List.length_cons]
      omega

/-- The checksum does not depend on its own field. -/
theorem checksum_headerWith {front back field field' : Bytes} (hfront : front.length = 148)
    (hfield : field.length = 8) (hfield' : field'.length = 8) :
    checksum (front ++ (field ++ back)) = checksum (front ++ (field' ++ back)) := by
  have hsum : ∀ field : Bytes, field.length = 8 → checksum (front ++ (field ++ back)) =
      ((front.zipIdx).map checksumTerm).sum +
        (32 * 8 + ((back.zipIdx 156).map checksumTerm).sum) := by
    intro field hfield
    rw [checksum_eq_sum, List.zipIdx_append, List.zipIdx_append, List.map_append, List.map_append,
      List.sum_append, List.sum_append, hfront, hfield,
      sum_checksumTerm_field field 148 (le_refl _) (by omega), hfield]
  rw [hsum field hfield, hsum field' hfield']

theorem checksum_lt {header : Bytes} (h : header.length = 512) : checksum header < 8 ^ 6 := by
  have hterm : ∀ n ∈ header.zipIdx.map checksumTerm, n ≤ 255 := by
    intro n hn
    obtain ⟨place, _, rfl⟩ := List.mem_map.mp hn
    have hbyte := place.1.toNat_lt
    rw [checksumTerm]
    split
    · decide
    · omega
  have hsum := List.sum_le_card_nsmul _ _ hterm
  rw [List.length_map, List.length_zipIdx, h, smul_eq_mul] at hsum
  rw [checksum_eq_sum]
  omega

/-! ## Headers -/

namespace TarMember

variable (m : TarMember)

theorem length_nameField : m.nameField.length = 100 := by
  have h := m.name_length
  rw [nameField, List.length_append, List.length_replicate]
  omega

theorem length_sizeField : m.sizeField.length = 12 := by
  rw [sizeField, List.length_append, length_padded]
  rfl

theorem length_front : m.front.length = 148 := by
  rw [front, List.length_append, List.length_append, List.length_append, length_nameField,
    length_sizeField, List.length_replicate, List.length_replicate]

theorem length_checksumField : m.checksumField.length = 8 := by
  rw [checksumField, List.length_append, length_padded]
  rfl

theorem length_back : m.back.length = 356 := by
  rw [back, List.length_cons, List.length_append, List.length_append, List.length_append,
    List.length_append, List.length_replicate, List.length_replicate]
  rfl

theorem length_headerWith {field : Bytes} (h : field.length = 8) :
    (m.headerWith field).length = 512 := by
  rw [headerWith, List.length_append, List.length_append, length_front, h, length_back]

theorem length_header : m.header.length = 512 := m.length_headerWith m.length_checksumField

/-- The field `prefix` is empty. -/
theorem slice_back_label : slice (345 - 156) (500 - 156) m.back = List.replicate 155 0 := by
  have hback : m.back = (m.typeFlag :: (List.replicate 100 0 ++
      (ascii "ustar" ++ [0] ++ ascii "00"))) ++ List.replicate 247 0 := by
    simp only [back, List.cons_append, List.append_assoc]
  have hlength : (m.typeFlag :: (List.replicate 100 0 ++
      (ascii "ustar" ++ [0] ++ ascii "00"))).length = 109 := by
    rw [List.length_cons, List.length_append, List.length_append, List.length_append,
      List.length_replicate]
    rfl
  rw [hback, slice_append_right (by rw [hlength]; decide), hlength, slice, List.take_replicate,
    List.drop_replicate]
  rfl

/-- The header block decodes to the entry of the member. -/
theorem headerDecodes (hascii : m.name.all isAscii = true)
    (hdirectory : m.kind = .directory → m.contents.length = 0) :
    HeaderDecodes m.header m.entry := by
  have hfront := m.length_front
  have hfield := m.length_checksumField
  -- what stands behind the checksum field
  have hback : ∀ start stop, 156 ≤ start →
      slice start stop m.header = slice (start - 156) (stop - 156) m.back := by
    intro start stop hstart
    rw [header, headerWith, slice_append_right (by omega), slice_append_right (by omega), hfront,
      hfield, Nat.sub_sub, Nat.sub_sub]
  refine ⟨?_, ?_, ?_, ?_, ?_, hdirectory, ?_⟩
  · rw [hback _ _ (by decide)]
    rfl
  · rw [hback _ _ (by decide)]
    rfl
  · rw [header, headerWith, slice_append_right (by omega), hfront, slice_append_left (by omega)]
    have hsum : checksum (m.front ++ (m.checksumField ++ m.back)) =
        checksum (m.headerWith (List.replicate 8 0)) :=
      checksum_headerWith hfront hfield List.length_replicate
    rw [hsum]
    exact parseOctal_field (by decide) (by decide)
      (checksum_lt (m.length_headerWith List.length_replicate))
      (fun b hb => Or.inr (List.mem_singleton.mp hb))
  · have hsize : slice 124 136 m.header = m.sizeField := by
      have hname := m.length_nameField
      rw [header, headerWith, front, List.append_assoc, List.append_assoc,
        slice_append_right (by omega), hname, slice_append_right (by decide),
        List.length_replicate, List.append_assoc, slice_append_left m.length_sizeField]
    rw [hsize]
    exact parseOctal_field (by decide) (by decide) m.contents_length
      (fun b hb => absurd hb List.not_mem_nil)
  · have hflag : m.header[156]? = some m.typeFlag := by
      rw [header, headerWith, ← List.append_assoc, List.getElem?_append_right (by
        rw [List.length_append]; omega), List.length_append, hfront, hfield]
      rfl
    rw [hflag]
    show memberKind (some m.typeFlag) = .ok m.kind
    rcases m.plain with hkind | hkind
    · rw [typeFlag, hkind]
      rfl
    · rw [typeFlag, hkind]
      rfl
  · refine ⟨m.name, [], ?_, ?_, ?_⟩
    · rw [header, headerWith, front, List.append_assoc, slice_append_left m.length_nameField]
      exact readName_field hascii m.name_noNul _
    · rw [hback _ _ (by decide), m.slice_back_label]
      exact @readName_field [] rfl List.not_mem_nil 155
    · rfl

/-- The record of the member. -/
def record (hascii : m.name.all isAscii = true)
    (hdirectory : m.kind = .directory → m.contents.length = 0) : Member :=
  ⟨m.header, m.entry, m.contents, m.length_header, m.headerDecodes hascii hdirectory, rfl⟩

end TarMember

/-! ## Archives -/

theorem PortableEntry.withinLimits {limits : ArchiveLimits} {entry : ArchiveEntry}
    (h : PortableEntry limits entry) : WithinLimits limits entry := by
  have hname := h.name
  unfold admitName at hname
  obtain ⟨_, hpath, hname⟩ := bind_eq_ok_iff.mp hname
  split at hname
  · cases hname
  · rename_i hascii
    rw [Bool.or_eq_true, not_or, Bool.not_eq_true', Bool.not_eq_false] at hascii
    exact ⟨h.size, hascii.1, hpath⟩

/-- A name is ASCII if it is without its trailing slash. -/
theorem ascii_of_normalizedName {kind : ArchiveEntryKind} {raw : Bytes}
    (h : (normalizedName kind raw).all isAscii = true) : raw.all isAscii = true := by
  unfold normalizedName at h
  split at h
  · rename_i hslash
    obtain ⟨front, rfl⟩ := List.getLast?_eq_some_iff.mp hslash.2
    rw [List.dropLast_concat] at h
    rw [List.all_append, h]
    rfl
  · exact h

/-- An encoding whose inventory is admitted is an archive of the grammar, with the
records of the members. -/
theorem splitsInto_encodeArchive {limits : ArchiveLimits} {members : List TarMember}
    (h : ∀ m ∈ members, PortableEntry limits m.entry) :
    ∃ records, SplitsInto (encodeArchive members) records ∧
      records.map (·.entry) = members.map (·.entry) ∧
      records.map (·.data) = members.map (·.contents) := by
  induction members with
  | nil => exact ⟨[], ⟨1024, le_refl _, rfl⟩, rfl, rfl⟩
  | cons m members ih =>
      obtain ⟨records, hsplit, hentries, hdata⟩ :=
        ih fun m' hm' => h m' (List.mem_cons_of_mem m hm')
      have hm := h m List.mem_cons_self
      have hascii := ascii_of_normalizedName hm.withinLimits.ascii
      refine ⟨m.record hascii hm.directory :: records, ?_, ?_, ?_⟩
      · have hbytes : encodeArchive (m :: members) =
            (m.record hascii hm.directory).bytes ++ encodeArchive members := by
          rw [encodeArchive, List.flatMap_cons, List.append_assoc]
          rfl
        rw [hbytes]
        exact hsplit.cons _
      · rw [List.map_cons, List.map_cons, hentries]
        rfl
      · rw [List.map_cons, List.map_cons, hdata]
        rfl

section RoundTrip

variable {members : List TarMember} {limits : ArchiveLimits} {total : Nat}
  {maxArchiveBytes : UInt64}

/-- Inspecting an encoding gives back the inventory, however many zeros follow. -/
theorem inspectUstar_encodeArchive_zeros
    (htotal : validateArchiveInventory (members.map (·.entry)) limits = .ok total) {count : Nat}
    (hmax : (encodeArchive members).length + count ≤ maxArchiveBytes.toNat) {input : Reader}
    (hinput : input.contents = some (encodeArchive members ++ List.replicate count 0)) :
    inspectUstar input limits maxArchiveBytes = .ok (members.map (·.entry)) := by
  obtain ⟨hadmissible, _⟩ := validateArchiveInventory_eq_ok_iff.mp htotal
  obtain ⟨records, hsplit, hentries, _⟩ := splitsInto_encodeArchive
    fun m hm => hadmissible.portable m.entry (List.mem_map_of_mem hm)
  have hlimits : ∀ record ∈ records, WithinLimits limits record.entry := by
    intro record hrecord
    have hentry : record.entry ∈ members.map (·.entry) :=
      hentries ▸ List.mem_map_of_mem hrecord
    exact (hadmissible.portable _ hentry).withinLimits
  rw [← hentries] at htotal ⊢
  refine @inspectMembers_of_splitsInto limits _ maxArchiveBytes.toNat_lt total records
    ⟨input, 0, 0, []⟩ _ hinput (hsplit.append_zeros count) htotal hlimits rfl ?_
  rw [Nat.zero_add, List.length_append, List.length_replicate]
  exact hmax

theorem inspectUstar_encodeArchive
    (htotal : validateArchiveInventory (members.map (·.entry)) limits = .ok total)
    (hmax : (encodeArchive members).length ≤ maxArchiveBytes.toNat) {input : Reader}
    (hinput : input.contents = some (encodeArchive members)) :
    inspectUstar input limits maxArchiveBytes = .ok (members.map (·.entry)) := by
  refine @inspectUstar_encodeArchive_zeros members limits _ maxArchiveBytes htotal 0 hmax _ ?_
  rw [hinput, List.replicate_zero, List.append_nil]

/-- A snapshot of an encoding can be read under its lock. -/
theorem exists_readFrom_encodeArchive (sha256 : Bytes → Sha256Output)
    (htotal : validateArchiveInventory (members.map (·.entry)) limits = .ok total)
    (hmax : (encodeArchive members).length ≤ maxArchiveBytes.toNat)
    (hcap : maxArchiveBytes.toNat ≤ maxArchiveSnapshotBytes) {input : Reader}
    (hinput : input.contents = some (encodeArchive members)) (url : SourceUrl)
    {digest : Sha256Digest} (hdigest : digest.asStr = finishHex (sha256 (encodeArchive members)))
    (provider : ProviderIdentity) :
    ∃ snapshot, ReadFrom sha256 (.archive url digest provider) input limits maxArchiveBytes
      snapshot ∧ snapshot.bytes = encodeArchive members ∧
      snapshot.entries = members.map (·.entry) := by
  have hinspected : inspectUstar (.ofBytes (encodeArchive members)) limits maxArchiveBytes =
      .ok (members.map (·.entry)) :=
    inspectUstar_encodeArchive htotal hmax (Reader.contents_ofBytes _)
  obtain ⟨_, _, _, _, _, table, htable, _⟩ :=
    inspectUstar_ok (Reader.contents_ofBytes (encodeArchive members)) hinspected
  have hhash := @hashArchive_ofBytes _ 0 maxArchiveBytes.toNat_lt (encodeArchive members) []
    (by rw [Nat.zero_add]; exact hmax)
  refine ⟨⟨digest, encodeArchive members, members.map (·.entry), table.files⟩,
    ⟨⟨url, provider, rfl⟩, hcap, ?_, hmax, ?_, hinspected, table, htable, rfl⟩, rfl, rfl⟩
  · rw [Reader.takeToEnd_of_contents hinput, List.take_of_length_le (by omega)]
  · refine ⟨0 + (encodeArchive members).length, ?_⟩
    rw [verifyArchiveBytes, hhash]
    show (if _ then _ else _) = _
    rw [List.nil_append, if_neg (not_not.mpr hdigest.symm)]

/-- The files of a snapshot of an encoding are the regular members. -/
theorem fileBytes_of_encodeArchive {sha256 : Bytes → Sha256Output} {source : LockedSource}
    {input : Reader} {snapshot : VerifiedUstarSnapshot}
    (h : ReadFrom sha256 source input limits maxArchiveBytes snapshot)
    (hportable : ∀ m ∈ members, PortableEntry limits m.entry)
    (hbytes : snapshot.bytes = encodeArchive members) (name contents : Bytes) :
    snapshot.fileBytes name = some contents ↔
      ∃ m ∈ members, m.kind = .regularFile ∧ m.name = name ∧ m.contents = contents := by
  obtain ⟨records, hsplit, hentries, hdata⟩ := splitsInto_encodeArchive hportable
  obtain ⟨records', hsplit', _, _, _, hstored⟩ := h.stored
  obtain rfl := (hbytes ▸ hsplit').unique hsplit
  have hplace : ∀ k : Nat, (records'[k]?).map (fun r => (r.entry, r.data)) =
      (members[k]?).map fun m => (m.entry, m.contents) := by
    intro k
    have hentry := congrArg (fun entries => entries[k]?) hentries
    have hcontents := congrArg (fun contents => contents[k]?) hdata
    simp only [List.getElem?_map] at hentry hcontents
    cases hr : records'[k]? <;> cases hm : members[k]? <;> simp_all
  have hregular : ∀ m : TarMember, m.kind = .regularFile → m.entry.name = m.name := by
    intro m hkind
    rw [TarMember.entry, hkind]
    rfl
  constructor
  · intro hfile
    unfold VerifiedUstarSnapshot.fileBytes at hfile
    cases hrange : snapshot.files[name]? with
    | none =>
        rw [hrange] at hfile
        cases hfile
    | some range =>
        obtain ⟨k, r, hr, hkind, rfl, rfl⟩ := (hstored name range).mp hrange
        have hdata := fileBytes_of_stored hsplit' hr hrange
        have hmember := hplace k
        rw [hr, Option.map_some, eq_comm, Option.map_eq_some_iff] at hmember
        obtain ⟨m, hm, heq⟩ := hmember
        obtain ⟨hentry, hcontents⟩ := Prod.mk.inj heq
        have hregularKind : m.kind = .regularFile := by
          rw [← hkind, ← hentry]
          rfl
        refine ⟨m, List.mem_of_getElem? hm, hregularKind, ?_, ?_⟩
        · rw [← hentry, hregular m hregularKind]
        · rw [hcontents]
          exact Option.some.inj (hdata.symm.trans hfile)
  · rintro ⟨m, hm, hkind, rfl, rfl⟩
    obtain ⟨k, hk⟩ := List.mem_iff_getElem?.mp hm
    have hrecord := hplace k
    rw [hk, Option.map_some, Option.map_eq_some_iff] at hrecord
    obtain ⟨r, hr, heq⟩ := hrecord
    obtain ⟨hentry, hcontents⟩ := Prod.mk.inj heq
    have hname : r.entry.name = m.name := by
      rw [hentry, hregular m hkind]
    have hrange := (hstored r.entry.name _).mpr
      ⟨k, r, hr, by rw [hentry]; exact hkind, rfl, rfl⟩
    rw [← hname, ← hcontents]
    exact fileBytes_of_stored hsplit' hr hrange

end RoundTrip

end Prep.Core
