/-
  Core/UstarGrammar.lean --- the archives `inspect_ustar` accepts: member records
  one behind the other, and zeros.

  The grammar knows nothing of limits, blocks read or bytes counted.  One pass of
  the loop reads one record of it, and an archive is split into records in one way.
-/
import Prep.Core.ArchiveTar

set_option autoImplicit false

namespace Prep.Core

open Prep.Data
open Prep.Io
open Prep.Text

/-! ## Fields

What a field of a header says, without the cutting and trimming of its parser. -/

/-- A name, then NULs to the end of the field. -/
def NameField (raw name : Bytes) : Prop :=
  (∃ fill, raw = name ++ List.replicate fill 0) ∧ (0 : UInt8) ∉ name ∧ Utf8.valid name = true

/-- Octal digits behind spaces, and behind them NULs and spaces in any order. -/
def OctalField (raw : Bytes) (value : Nat) : Prop :=
  ∃ spaces digits rest, raw = List.replicate spaces 32 ++ (digits ++ rest) ∧ digits ≠ [] ∧
    (∀ b ∈ digits, 48 ≤ b ∧ b ≤ 55) ∧ (∀ b ∈ rest, b = 0 ∨ b = 32) ∧
    ofDigits 8 digits = value ∧ value < 2 ^ 64

theorem readName_eq_ok_iff {raw name : Bytes} : readName raw = .ok name ↔ NameField raw name := by
  unfold readName
  dsimp only
  constructor
  · intro h
    split at h
    · cases h
    · rename_i hrest
      rw [Bool.not_eq_true, List.any_eq_false] at hrest
      split at h
      · cases h
      · rename_i hvalid
        cases h
        refine ⟨⟨(raw.dropWhile (· != 0)).length, ?_⟩, ?_, ?_⟩
        · rw [← List.eq_replicate_of_mem fun b hb => not_not.mp fun h => hrest b hb (bne_iff_ne.mpr h),
            List.takeWhile_append_dropWhile]
        · intro hmem
          have h := List.mem_takeWhile_imp hmem
          exact absurd h (by decide)
        · rwa [Bool.not_eq_true', Bool.not_eq_false] at hvalid
  · rintro ⟨⟨fill, rfl⟩, hnul, hvalid⟩
    have hname : ∀ b ∈ name, (b != 0) = true := fun b hb =>
      bne_iff_ne.mpr fun h => hnul (h ▸ hb)
    have hclean : (List.replicate fill (0 : UInt8)).any (· != 0) = false := by
      rw [List.any_replicate]
      split <;> rfl
    rw [List.takeWhile_append_of_pos hname, List.dropWhile_append_of_pos hname,
      List.takeWhile_replicate, List.dropWhile_replicate]
    show (if (List.replicate fill (0 : UInt8)).any (· != 0) = true then _
      else if (!Utf8.valid (name ++ [])) = true then _ else .ok (name ++ [])) = Except.ok name
    rw [hclean, List.append_nil, hvalid]
    rfl

/-- Trimming takes the spaces off both ends. -/
theorem trimSpaces_eq {text : Bytes} (h : (32 : UInt8) ∉ text) (before after : Nat) :
    trimSpaces (List.replicate before 32 ++ (text ++ List.replicate after 32)) = text := by
  have hspaces : ∀ n, ∀ b ∈ List.replicate n (32 : UInt8), (b == 32) = true := fun n b hb =>
    beq_iff_eq.mpr (List.eq_of_mem_replicate hb)
  rw [trimSpaces, List.dropWhile_append_of_pos (hspaces before)]
  cases text with
  | nil =>
      rw [List.nil_append, List.dropWhile_replicate]
      rfl
  | cons b text =>
      have hb : ¬ ((b == 32) = true) := fun hb => h (beq_iff_eq.mp hb ▸ List.mem_cons_self)
      rw [List.cons_append, List.dropWhile_cons, if_neg hb, ← List.cons_append, List.rdropWhile,
        List.reverse_append, List.reverse_replicate, List.dropWhile_append_of_pos (hspaces after)]
      show List.rdropWhile (· == 32) (b :: text) = b :: text
      rw [List.rdropWhile_eq_self_iff]
      intro hne hlast
      exact h (beq_iff_eq.mp hlast ▸ List.getLast_mem hne)

theorem exists_trimSpaces (text : Bytes) : ∃ before after,
    text = List.replicate before 32 ++ (trimSpaces text ++ List.replicate after 32) := by
  obtain ⟨before, hbefore⟩ : ∃ n, text.takeWhile (· == 32) = List.replicate n 32 := by
    refine ⟨_, List.eq_replicate_of_mem fun b hb => ?_⟩
    have h := List.mem_takeWhile_imp hb
    exact beq_iff_eq.mp h
  obtain ⟨after, hafter⟩ : ∃ n,
      (text.dropWhile (· == 32)).rtakeWhile (· == 32) = List.replicate n 32 := by
    refine ⟨_, List.eq_replicate_of_mem fun b hb => ?_⟩
    have h := List.mem_rtakeWhile_imp hb
    exact beq_iff_eq.mp h
  refine ⟨before, after, ?_⟩
  rw [← hbefore, ← hafter, trimSpaces, List.rdropWhile_append_rtakeWhile,
    List.takeWhile_append_dropWhile]

theorem parseOctal_eq_ok_iff {raw : Bytes} {value : Nat} :
    parseOctal raw = .ok value ↔ OctalField raw value := by
  unfold parseOctal
  dsimp only
  constructor
  · intro h
    split at h
    · cases h
    · rename_i hrest
      rw [Bool.not_eq_true, List.any_eq_false] at hrest
      split at h
      · cases h
      · split at h
        · cases h
        · rename_i hdigits
          rw [Bool.not_eq_true, Bool.or_eq_false_iff, Bool.not_eq_false', List.all_eq_true,
            List.isEmpty_eq_false_iff] at hdigits
          obtain ⟨before, after, htext⟩ := exists_trimSpaces (raw.takeWhile (· != 0))
          split at h
          · rename_i hlt
            cases h
            refine ⟨before, _, List.replicate after 32 ++ raw.dropWhile (· != 0), ?_, hdigits.1, ?_,
              ?_, rfl, hlt⟩
            · rw [← List.append_assoc (trimSpaces _), ← List.append_assoc, ← htext,
                List.takeWhile_append_dropWhile]
            · intro b hb
              have h := hdigits.2 b hb
              rwa [Bool.and_eq_true, decide_eq_true_iff, decide_eq_true_iff] at h
            · intro b hb
              rcases List.mem_append.mp hb with hb | hb
              · exact Or.inr (List.eq_of_mem_replicate hb)
              · have h := hrest b hb
                rw [Bool.and_eq_true, bne_iff_ne, bne_iff_ne, not_and_or, not_not, not_not] at h
                exact h
          · cases h
  · rintro ⟨spaces, digits, rest, rfl, hne, hdigits, hrest, rfl, hlt⟩
    -- The text ends at the first NUL, so nothing but spaces stands behind the digits.
    have hfront : ∀ b ∈ List.replicate spaces 32 ++ digits, (b != 0) = true := by
      intro b hb
      rw [bne_iff_ne]
      rintro rfl
      rcases List.mem_append.mp hb with hb | hb
      · exact absurd (List.eq_of_mem_replicate hb) (by decide)
      · exact absurd (hdigits 0 hb).1 (by decide)
    have hspaces : ∀ b ∈ rest.takeWhile (· != 0), b = 32 := by
      intro b hb
      have h := List.mem_takeWhile_imp hb
      exact (hrest b ((List.takeWhile_prefix _).subset hb)).resolve_left (bne_iff_ne.mp h)
    have hclean : (rest.dropWhile (· != 0)).any (fun b => b != 0 && b != 32) = false := by
      rw [List.any_eq_false]
      intro b hb
      rcases hrest b ((List.dropWhile_suffix _).subset hb) with rfl | rfl <;> decide
    have hascii : (List.replicate spaces 32 ++ (digits ++
        List.replicate (rest.takeWhile (· != 0)).length 32)).all isAscii = true := by
      rw [List.all_eq_true]
      intro b hb
      have hb : b = 32 ∨ 48 ≤ b ∧ b ≤ 55 := by
        rcases List.mem_append.mp hb with hb | hb
        · exact Or.inl (List.eq_of_mem_replicate hb)
        · rcases List.mem_append.mp hb with hb | hb
          · exact Or.inr (hdigits b hb)
          · exact Or.inl (List.eq_of_mem_replicate hb)
      rcases hb with rfl | ⟨_, hle⟩
      · decide
      · exact decide_eq_true (UInt8.lt_of_le_of_lt hle (by decide))
    have htrimmed := @trimSpaces_eq digits
      (fun h => absurd (hdigits 32 h).1 (by decide)) spaces (rest.takeWhile (· != 0)).length
    have hall : digits.all (fun b => 48 ≤ b && b ≤ 55) = true := by
      rw [List.all_eq_true]
      intro b hb
      rw [Bool.and_eq_true, decide_eq_true_iff, decide_eq_true_iff]
      exact hdigits b hb
    rw [← List.append_assoc, List.takeWhile_append_of_pos hfront,
      List.dropWhile_append_of_pos hfront, hclean, List.eq_replicate_of_mem hspaces,
      List.append_assoc, Utf8.valid_of_isAscii hascii, htrimmed, hall,
      List.isEmpty_eq_false_iff.mpr hne, if_pos hlt]
    rfl

theorem memberKind_eq_ok_iff {flag : Option UInt8} {kind : ArchiveEntryKind} :
    memberKind flag = .ok kind ↔
      kind = .regularFile ∧ (flag = some 0 ∨ flag = some 48) ∨
        kind = .directory ∧ flag = some 53 := by
  unfold memberKind
  split
  · rename_i hflag
    constructor
    · rintro ⟨⟩
      exact Or.inl ⟨rfl, hflag⟩
    · rintro (⟨rfl, _⟩ | ⟨_, rfl⟩)
      · rfl
      · exact absurd hflag (by decide)
  · rename_i hflag
    split
    · rename_i hdirectory
      constructor
      · rintro ⟨⟩
        exact Or.inr ⟨rfl, hdirectory⟩
      · rintro (⟨_, h⟩ | ⟨rfl, _⟩)
        · exact absurd h hflag
        · rfl
    · rename_i hdirectory
      constructor
      · rintro ⟨⟩
      · rintro (⟨_, h⟩ | ⟨_, h⟩)
        · exact absurd h hflag
        · exact absurd h hdirectory

/-! ## Records -/

/-- What a header block says about its member. -/
structure HeaderDecodes (header : Bytes) (entry : ArchiveEntry) : Prop where
  magic : slice 257 263 header = ascii "ustar" ++ [0]
  version : slice 263 265 header = ascii "00"
  checksum : parseOctal (slice 148 156 header) = .ok (checksum header)
  size : parseOctal (slice 124 136 header) = .ok entry.expandedBytes
  kind : memberKind header[156]? = .ok entry.kind
  directory : entry.kind = .directory → entry.expandedBytes = 0
  name : ∃ name label, readName (slice 0 100 header) = .ok name ∧
    readName (slice 345 500 header) = .ok label ∧
    entry.name = normalizedName entry.kind (rawName label name)

/-- A header block says one thing. -/
theorem HeaderDecodes.unique {header : Bytes} {left right : ArchiveEntry}
    (hleft : HeaderDecodes header left) (hright : HeaderDecodes header right) : left = right := by
  have hsize := Except.ok.inj (hleft.size.symm.trans hright.size)
  have hkind := Except.ok.inj (hleft.kind.symm.trans hright.kind)
  obtain ⟨name, label, hname, hlabel, hnormal⟩ := hleft.name
  obtain ⟨name', label', hname', hlabel', hnormal'⟩ := hright.name
  obtain rfl := Except.ok.inj (hname.symm.trans hname')
  obtain rfl := Except.ok.inj (hlabel.symm.trans hlabel')
  rw [hkind, ← hnormal'] at hnormal
  cases left
  cases right
  cases hsize
  cases hkind
  cases hnormal
  rfl

/-- The zeros behind `size` bytes of data, up to the next multiple of 512. -/
def padding (size : Nat) : Bytes := List.replicate ((size + 511) / 512 * 512 - size) 0

theorem length_padding (size : Nat) :
    size + (padding size).length = (size + 511) / 512 * 512 := by
  rw [padding, List.length_replicate]
  omega

/-- A member record: one header block and the data it announces. -/
structure Member where
  header : Bytes
  entry : ArchiveEntry
  data : Bytes
  header_length : header.length = 512
  decodes : HeaderDecodes header entry
  data_length : data.length = entry.expandedBytes

namespace Member

/-- The bytes of a record. -/
def bytes (m : Member) : Bytes := m.header ++ (m.data ++ padding m.entry.expandedBytes)

theorem length_bytes (m : Member) :
    m.bytes.length = 512 + (m.entry.expandedBytes + 511) / 512 * 512 := by
  rw [bytes, List.length_append, List.length_append, m.header_length, m.data_length,
    length_padding]

@[ext] theorem ext {left right : Member} (hheader : left.header = right.header)
    (hdata : left.data = right.data) : left = right := by
  obtain ⟨header, entry, data, hlength, hdecodes, hdata_length⟩ := left
  obtain ⟨header', entry', data', hlength', hdecodes', hdata_length'⟩ := right
  cases hheader
  cases hdata
  obtain rfl := hdecodes.unique hdecodes'
  rfl

/-- A header block has a byte that is not zero. -/
theorem header_not_zero (m : Member) : ¬ ∀ b ∈ m.header, b = 0 := by
  intro hzero
  have hmem : (117 : UInt8) ∈ slice 257 263 m.header := by
    rw [m.decodes.magic]
    decide
  have h := hzero 117 (List.mem_of_mem_take (List.mem_of_mem_drop hmem))
  exact absurd h (by decide)

end Member

/-! ## Archives -/

/-- The bytes are these records and then at least two blocks of zeros. -/
def SplitsInto (bytes : Bytes) (members : List Member) : Prop :=
  ∃ zeros, 1024 ≤ zeros ∧ bytes = members.flatMap Member.bytes ++ List.replicate zeros 0

theorem SplitsInto.cons {bytes : Bytes} {members : List Member} (h : SplitsInto bytes members)
    (m : Member) : SplitsInto (m.bytes ++ bytes) (m :: members) := by
  obtain ⟨zeros, hzeros, rfl⟩ := h
  exact ⟨zeros, hzeros, by rw [List.flatMap_cons, List.append_assoc]⟩

/-- Zeros behind an archive belong to its trailer. -/
theorem SplitsInto.append_zeros {bytes : Bytes} {members : List Member}
    (h : SplitsInto bytes members) (count : Nat) :
    SplitsInto (bytes ++ List.replicate count 0) members := by
  obtain ⟨zeros, hzeros, rfl⟩ := h
  refine ⟨zeros + count, Nat.le_add_right_of_le hzeros, ?_⟩
  rw [List.append_assoc, List.replicate_append_replicate]

/-- A record and what follows it are read off the front in one way. -/
theorem Member.append_inj {m m' : Member} {rest rest' : Bytes}
    (h : m.bytes ++ rest = m'.bytes ++ rest') : m = m' ∧ rest = rest' := by
  simp only [Member.bytes, List.append_assoc] at h
  obtain ⟨hheader, h⟩ := List.append_inj h (m.header_length.trans m'.header_length.symm)
  have hentry : m.entry = m'.entry := m.decodes.unique (hheader ▸ m'.decodes)
  obtain ⟨hdata, h⟩ := List.append_inj h (by rw [m.data_length, m'.data_length, hentry])
  rw [hentry] at h
  exact ⟨Member.ext hheader hdata, List.append_cancel_left h⟩

/-- An archive is split into records in one way. -/
theorem SplitsInto.unique {bytes : Bytes} {members others : List Member}
    (h : SplitsInto bytes members) (h' : SplitsInto bytes others) : members = others := by
  have hzeros : ∀ (m : Member) (rest : Bytes) (n : Nat),
      m.bytes ++ rest ≠ List.replicate n 0 := by
    intro m rest n heq
    refine m.header_not_zero fun b hb => List.eq_of_mem_replicate (n := n) ?_
    rw [← heq]
    exact List.mem_append_left _ (List.mem_append_left _ hb)
  induction members generalizing bytes others with
  | nil =>
      obtain ⟨n, _, rfl⟩ := h
      obtain ⟨n', _, heq⟩ := h'
      cases others with
      | nil => rfl
      | cons m others =>
          rw [List.flatMap_cons, List.append_assoc, List.flatMap_nil, List.nil_append] at heq
          exact absurd heq.symm (hzeros m _ n)
  | cons m members ih =>
      obtain ⟨n, hn, rfl⟩ := h
      obtain ⟨n', hn', heq⟩ := h'
      cases others with
      | nil =>
          rw [List.flatMap_cons, List.append_assoc, List.flatMap_nil, List.nil_append] at heq
          exact absurd heq (hzeros m _ n')
      | cons m' others =>
          rw [List.flatMap_cons, List.flatMap_cons, List.append_assoc, List.append_assoc] at heq
          obtain ⟨rfl, hrest⟩ := Member.append_inj heq
          rw [ih ⟨n, hn, rfl⟩ ⟨n', hn', hrest⟩]

/-! ## Reading a header -/

/-- The limits an entry has to keep to be listed. -/
structure WithinLimits (limits : ArchiveLimits) (entry : ArchiveEntry) : Prop where
  size : entry.expandedBytes ≤ limits.maxEntryBytes.toNat
  ascii : entry.name.all isAscii = true
  path : validateArchiveEntryPath entry.name limits.maxPathBytes.toNat = .ok ()

theorem decodeHeader_eq_ok_iff {limits : ArchiveLimits} {header : Bytes} {entry : ArchiveEntry} :
    decodeHeader limits header = .ok entry ↔
      HeaderDecodes header entry ∧ WithinLimits limits entry := by
  unfold decodeHeader
  constructor
  · intro h
    split at h
    · cases h
    · rename_i hmagic
      push Not at hmagic
      obtain ⟨expected, hexpected, h⟩ := bind_eq_ok_iff.mp h
      split at h
      · cases h
      · rename_i hchecksum
        rw [not_not] at hchecksum
        obtain ⟨size, hsize, h⟩ := bind_eq_ok_iff.mp h
        split at h
        · cases h
        · rename_i hlimit
          obtain ⟨kind, hkind, h⟩ := bind_eq_ok_iff.mp h
          split at h
          · cases h
          · rename_i hdirectory
            obtain ⟨name, hname, h⟩ := bind_eq_ok_iff.mp h
            obtain ⟨label, hlabel, h⟩ := bind_eq_ok_iff.mp h
            dsimp only at h
            split at h
            · cases h
            · rename_i hascii
              obtain ⟨_, hpath, h⟩ := bind_eq_ok_iff.mp h
              cases h
              refine ⟨⟨hmagic.1, hmagic.2, hchecksum ▸ hexpected, hsize, hkind, ?_,
                name, label, hname, hlabel, rfl⟩, ⟨Nat.le_of_not_lt hlimit, ?_, hpath⟩⟩
              · intro hdir
                by_contra hne
                exact hdirectory ⟨hdir, hne⟩
              · rw [Bool.not_eq_true', Bool.not_eq_false] at hascii
                exact hascii
  · rintro ⟨hdecodes, hlimits⟩
    obtain ⟨name, label, hname, hlabel, hnormal⟩ := hdecodes.name
    rw [if_neg (by rw [hdecodes.magic, hdecodes.version]; simp)]
    refine bind_eq_ok_iff.mpr ⟨_, hdecodes.checksum, ?_⟩
    rw [if_neg (not_not.mpr rfl)]
    refine bind_eq_ok_iff.mpr ⟨_, hdecodes.size, ?_⟩
    rw [if_neg (Nat.not_lt.mpr hlimits.size)]
    refine bind_eq_ok_iff.mpr ⟨_, hdecodes.kind, ?_⟩
    rw [if_neg fun h => h.2 (hdecodes.directory h.1)]
    refine bind_eq_ok_iff.mpr ⟨_, hname, bind_eq_ok_iff.mpr ⟨_, hlabel, ?_⟩⟩
    dsimp only
    rw [← hnormal, hlimits.ascii]
    exact bind_eq_ok_iff.mpr ⟨(), hlimits.path, rfl⟩

/-! ## Reading blocks -/

section Blocks

variable {input input' : Reader} {bytes : Bytes} {consumed consumed' maximum : Nat}

theorem readBlock_ok {block : Bytes} (hinput : input.contents = some bytes)
    (h : readBlock input consumed maximum = .ok (block, input', consumed')) :
    ∃ rest, bytes = block ++ rest ∧ block.length = 512 ∧ input'.contents = some rest ∧
      consumed' = consumed + 512 ∧ consumed' ≤ maximum := by
  unfold readBlock at h
  obtain ⟨sum, hsum, h⟩ := bind_eq_ok_iff.mp h
  obtain ⟨rfl, _⟩ := checkedAdd_eq_ok_iff.mp hsum
  split at h
  · cases h
  · rename_i hmaximum
    rcases Nat.lt_or_ge bytes.length 512 with hshort | hlong
    · rw [Reader.readExact_of_short hinput hshort] at h
      cases h
    · obtain ⟨rest, hread, hrest⟩ := Reader.readExact_of_contents hinput hlong
      rw [hread] at h
      cases h
      refine ⟨bytes.drop 512, (List.take_append_drop 512 bytes).symm, ?_, hrest, rfl, by omega⟩
      rw [List.length_take]
      omega

theorem readBlock_of_contents {block rest : Bytes}
    (hinput : input.contents = some (block ++ rest)) (hblock : block.length = 512)
    (hmaximum : consumed + 512 ≤ maximum) (hmax : maximum < 2 ^ 64) :
    ∃ input', readBlock input consumed maximum = .ok (block, input', consumed + 512) ∧
      input'.contents = some rest := by
  obtain ⟨input', hread, hrest⟩ := Reader.readExact_of_contents hinput (n := 512)
    (by rw [List.length_append]; omega)
  rw [← hblock, List.take_left] at hread
  rw [← hblock, List.drop_left] at hrest
  refine ⟨input', ?_, hrest⟩
  unfold readBlock
  refine bind_eq_ok_iff.mpr ⟨_, checkedAdd_eq_ok_iff.mpr ⟨rfl, by omega⟩, ?_⟩
  rw [if_neg (Nat.not_lt.mpr hmaximum), ← hblock, hread]

/-- The loop over the data blocks reads whole blocks, the last of which is zero
beyond the data. -/
theorem readData_ok {size : Nat} {left : Nat} :
    ∀ {input : Reader} {bytes : Bytes} {consumed : Nat}, input.contents = some bytes →
      readData size maximum left input consumed = .ok (input', consumed') →
      ∃ span rest, bytes = span ++ rest ∧ span.length = left * 512 ∧
        input'.contents = some rest ∧ consumed' = consumed + left * 512 ∧
        (left ≠ 0 → consumed' ≤ maximum) ∧
        (left ≠ 0 → size % 512 ≠ 0 →
          ∀ b ∈ span.drop ((left - 1) * 512 + size % 512), b = 0) := by
  induction left with
  | zero =>
      intro input bytes consumed hinput h
      cases h
      exact ⟨[], bytes, rfl, rfl, hinput, rfl, fun h => absurd rfl h, fun h => absurd rfl h⟩
  | succ left ih =>
      intro input bytes consumed hinput h
      rw [readData] at h
      obtain ⟨⟨block, next, sum⟩, hblock, h⟩ := bind_eq_ok_iff.mp h
      obtain ⟨rest, rfl, hlength, hnext, rfl, hmaximum⟩ := readBlock_ok hinput hblock
      dsimp only at h
      split at h
      · cases h
      · rename_i hzero
        obtain ⟨span, rest, rfl, hspan, hcontents, rfl, hbound, hpad⟩ := ih hnext h
        refine ⟨block ++ span, rest, (List.append_assoc _ _ _).symm, ?_, hcontents, by omega, ?_,
          ?_⟩
        · rw [List.length_append]
          omega
        · intro _
          rcases Nat.eq_zero_or_pos left with rfl | hpos
          · omega
          · exact hbound (by omega)
        · intro _ hsize b hb
          cases left with
          | zero =>
              obtain rfl := List.length_eq_zero_iff.mp (hspan.trans (Nat.zero_mul 512))
              rw [List.append_nil, Nat.add_sub_cancel, Nat.zero_mul, Nat.zero_add] at hb
              by_contra hne
              exact hzero ⟨rfl, hsize, List.any_eq_true.mpr ⟨b, hb, bne_iff_ne.mpr hne⟩⟩
          | succ left =>
              have hskip : (left + 1 + 1 - 1) * 512 + size % 512 =
                  block.length + ((left + 1 - 1) * 512 + size % 512) := by
                rw [hlength]
                omega
              rw [hskip, List.drop_length_add_append] at hb
              exact hpad (by omega) hsize b hb

theorem readData_of_contents {size : Nat} (hmax : maximum < 2 ^ 64) {left : Nat} :
    ∀ {input : Reader} {span rest : Bytes} {consumed : Nat},
      input.contents = some (span ++ rest) → span.length = left * 512 →
      (left ≠ 0 → size % 512 ≠ 0 → ∀ b ∈ span.drop ((left - 1) * 512 + size % 512), b = 0) →
      consumed + left * 512 ≤ maximum →
      ∃ input', readData size maximum left input consumed =
        .ok (input', consumed + left * 512) ∧ input'.contents = some rest := by
  induction left with
  | zero =>
      intro input span rest consumed hinput hspan _ _
      obtain rfl := List.length_eq_zero_iff.mp (hspan.trans (Nat.zero_mul 512))
      exact ⟨input, rfl, hinput⟩
  | succ left ih =>
      intro input span rest consumed hinput hspan hpad hmaximum
      obtain ⟨block, span, rfl, hblock⟩ : ∃ block more, span = block ++ more ∧
          block.length = 512 :=
        ⟨span.take 512, span.drop 512, (List.take_append_drop 512 span).symm, by
          rw [List.length_take]
          omega⟩
      rw [List.length_append] at hspan
      rw [List.append_assoc] at hinput
      obtain ⟨next, hread, hnext⟩ := readBlock_of_contents hinput hblock
        (show consumed + 512 ≤ maximum by omega) hmax
      have hskip : ∀ n, (block ++ span).drop (512 + n) = span.drop n := by
        intro n
        rw [← hblock, List.drop_length_add_append]
      obtain ⟨input', hrest, hcontents⟩ := ih hnext (by omega)
        (fun hne hsize b hb => hpad (by omega) hsize b (by
          rw [show (left + 1 - 1) * 512 + size % 512 =
            512 + ((left - 1) * 512 + size % 512) by omega, hskip]
          exact hb))
        (show consumed + 512 + left * 512 ≤ maximum by omega)
      refine ⟨input', ?_, hcontents⟩
      rw [readData, hread]
      show (if _ then _ else _) = _
      rw [if_neg, hrest]
      · congr 2
        omega
      · rintro ⟨rfl, hsize, hany⟩
        obtain ⟨b, hb, hne⟩ := List.any_eq_true.mp hany
        obtain rfl := List.length_eq_zero_iff.mp (show span.length = 0 by omega)
        rw [List.append_nil] at hpad
        refine bne_iff_ne.mp hne (hpad (by omega) hsize b ?_)
        rw [Nat.add_sub_cancel, Nat.zero_mul, Nat.zero_add]
        exact hb

end Blocks

end Prep.Core
