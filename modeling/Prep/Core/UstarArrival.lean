/-
  Core/UstarArrival.lean --- `inspect_ustar` on readers that hand the same bytes out in
  different pieces.

  Two runs over such readers are stepped together.  Blocks are read exactly, so they are
  the same in both; the trailer is read in pieces, but its verdict is that of all its bytes.

  Readers that fail are left out: here every reader hands all its bytes out, whatever
  interruptions stand between them.  The counter of bytes is a `u64`, and an archive that it
  cannot count may get different verdicts, as the last section shows.
-/
import Prep.Core.UstarSnapshot

set_option autoImplicit false

namespace Prep.Core

open Prep.Data
open Prep.Io
open Prep.Text

variable {limits : ArchiveLimits} {maximum : Nat}

/-! ## The trailer -/

/-- The verdict on the bytes behind the two zero blocks. -/
def trailerVerdict (limits : ArchiveLimits) (maximum : Nat) (entries : List ArchiveEntry)
    (consumed : Nat) (bytes : Bytes) : Except SourceVerificationError (List ArchiveEntry) :=
  if maximum < consumed + bytes.length ∨ bytes.any (· != 0) then .error .unsafeEntryPath
  else do
    let _ ← validateArchiveInventory entries limits
    return entries

/-- A trailer that can be counted gets the verdict on its bytes. -/
theorem readTrailer_eq {entries : List ArchiveEntry} {input : Reader} :
    ∀ {bytes : Bytes} {consumed : Nat}, input.contents = some bytes →
      consumed + bytes.length < 2 ^ 64 → consumed ≤ maximum →
      readTrailer limits maximum entries consumed input =
        trailerVerdict limits maximum entries consumed bytes := by
  induction hn : input.size using Nat.strong_induction_on generalizing input with
  | _ n ih =>
      intro bytes consumed hinput hfits hroom
      have hsmaller : (input.read 512).1 ≠ .ok [] → (input.read 512).2.size < n := by
        rw [← hn]
        exact Reader.size_read_lt (Nat.succ_pos 511)
      rw [readTrailer]
      rcases Reader.read_of_contents (Nat.succ_pos 511) hinput with
        ⟨hread, rfl⟩ | ⟨piece, rest, hread, hpiece, hrest, rfl⟩ | ⟨hread, hrest⟩
      · split
        · rw [trailerVerdict, if_neg]
          rintro (hlarge | hany)
          · exact absurd hroom (Nat.not_le.mpr hlarge)
          · cases hany
        · rename_i heq
          rw [heq] at hread
          cases hread
        · rename_i heq
          rw [heq] at hread
          cases hread
      · split
        · rename_i heq
          rw [heq] at hread
          cases hread
          exact absurd rfl hpiece
        · rename_i head tail next heq
          rw [heq] at hread hrest hsmaller
          cases hread
          rw [List.length_append, List.length_cons] at hfits
          have hsum : checkedAdd consumed (tail.length + 1) = .ok (consumed + (tail.length + 1)) :=
            checkedAdd_eq_ok_iff.mpr ⟨rfl, by omega⟩
          rw [hsum]
          dsimp only
          by_cases hstop : consumed + (tail.length + 1) > maximum ∨ (head :: tail).any (· != 0)
          · rw [if_pos hstop, trailerVerdict, if_pos]
            rw [List.length_append, List.length_cons, List.any_append, Bool.or_eq_true]
            rcases hstop with hlarge | hany
            · exact .inl (by omega)
            · exact .inr (.inl hany)
          · rw [if_neg hstop]
            rw [not_or, Nat.not_lt] at hstop
            rw [ih _ (hsmaller fun hnil => by cases hnil) rfl hrest (by omega) hstop.1,
              trailerVerdict, trailerVerdict, List.length_append, List.length_cons,
              List.any_append, Bool.eq_false_of_not_eq_true hstop.2, Bool.false_or,
              Nat.add_assoc consumed]
        · rename_i heq
          rw [heq] at hread
          cases hread
      · split
        · rename_i heq
          rw [heq] at hread
          cases hread
        · rename_i heq
          rw [heq] at hread
          cases hread
        · rename_i e next heq
          rw [heq] at hread hrest hsmaller
          cases hread
          rw [if_pos rfl]
          exact ih _ (hsmaller fun hnil => by cases hnil) rfl hrest hfits hroom

/-! ## Side by side -/

/-- Two readers with the same bytes left, of an input of `total` bytes. -/
structure Alike (total maximum : Nat) (left right : Reader × Nat) : Prop where
  bytes : ∃ rest, left.1.contents = some rest ∧ right.1.contents = some rest ∧
    left.2 + rest.length = total
  consumed : left.2 = right.2
  room : left.2 ≤ maximum

variable {total : Nat} {left right : Reader}

/-- A block is the same in both. -/
theorem readBlock_agree {consumed : Nat} (h : Alike total maximum (left, consumed)
    (right, consumed)) :
    Agree (fun found found' => found.1 = found'.1 ∧ Alike total maximum found.2 found'.2)
      (readBlock left consumed maximum) (readBlock right consumed maximum) := by
  obtain ⟨⟨rest, hleft, hright, hrest⟩, _, _⟩ := h
  unfold readBlock
  refine Agree.given fun sum hsum => ?_
  obtain ⟨rfl, _⟩ := checkedAdd_eq_ok_iff.mp hsum
  split
  · exact .error _
  · rename_i hroom
    rcases Nat.lt_or_ge rest.length 512 with hshort | hlong
    · rw [Reader.readExact_of_short hleft hshort, Reader.readExact_of_short hright hshort]
      exact .error _
    · obtain ⟨left', hread, hcontents⟩ := Reader.readExact_of_contents hleft hlong
      obtain ⟨right', hread', hcontents'⟩ := Reader.readExact_of_contents hright hlong
      rw [hread, hread']
      refine .ok ⟨rfl, ⟨rest.drop 512, hcontents, hcontents', ?_⟩, rfl, Nat.le_of_not_lt hroom⟩
      have hrest : consumed + rest.length = total := hrest
      show consumed + 512 + (rest.drop 512).length = total
      rw [List.length_drop]
      omega

/-- The data blocks are read alike. -/
theorem readData_agree {size blocks : Nat} : ∀ {left right : Reader} {consumed : Nat},
    Alike total maximum (left, consumed) (right, consumed) →
      Agree (Alike total maximum) (readData size maximum blocks left consumed)
        (readData size maximum blocks right consumed) := by
  induction blocks with
  | zero => exact fun h => .ok h
  | succ blocks ih =>
      intro left right consumed h
      rw [readData, readData]
      refine Agree.bind (readBlock_agree h) ?_
      rintro ⟨block, next, sum⟩ ⟨_, next', sum'⟩ ⟨rfl, hnext⟩
      obtain rfl : sum = sum' := hnext.consumed
      dsimp only
      split
      · exact .error _
      · exact ih hnext

/-- Two walks that differ in how their bytes are cut. -/
def AlikeWalks (total maximum : Nat) (walk walk' : TarWalk) : Prop :=
  Alike total maximum (walk.input, walk.rawBytes) (walk'.input, walk'.rawBytes) ∧
    walk.expandedTotal = walk'.expandedTotal ∧ walk.entries = walk'.entries

/-- Two passes that end alike. -/
def AlikePasses (total maximum : Nat) : Pass → Pass → Prop
  | .next walk, .next walk' => AlikeWalks total maximum walk walk'
  | .done entries, .done entries' => entries = entries'
  | _, _ => False

/-- A pass does the same on both. -/
theorem inspectMember_agree (htotal : total < 2 ^ 64) {walk walk' : TarWalk}
    (h : AlikeWalks total maximum walk walk') :
    Agree (AlikePasses total maximum) (inspectMember limits maximum walk)
      (inspectMember limits maximum walk') := by
  obtain ⟨input, rawBytes, expandedTotal, entries⟩ := walk
  obtain ⟨input', rawBytes', expandedTotal', entries'⟩ := walk'
  obtain ⟨hinput, rfl, rfl⟩ := h
  obtain rfl : rawBytes = rawBytes' := hinput.consumed
  unfold inspectMember
  refine Agree.bind (readBlock_agree hinput) ?_
  rintro ⟨header, next, sum⟩ ⟨_, next', sum'⟩ ⟨rfl, hnext⟩
  obtain rfl : sum = sum' := hnext.consumed
  dsimp only
  split
  · refine Agree.bind (readBlock_agree hnext) ?_
    rintro ⟨second, last, sum⟩ ⟨_, last', sum'⟩ ⟨rfl, hlast⟩
    obtain rfl : sum = sum' := hlast.consumed
    dsimp only
    split
    · exact .error _
    · -- the verdict on the trailer depends on its bytes only
      obtain ⟨⟨rest, hleft, hright, hrest⟩, _, hroom⟩ := hlast
      have hfits : sum + rest.length < 2 ^ 64 := by
        rw [show sum + rest.length = total from hrest]
        exact htotal
      rw [readTrailer_eq hleft hfits hroom, readTrailer_eq hright hfits hroom]
      exact Agree.given fun _ _ => .ok rfl
  · split
    · exact .error _
    · refine Agree.given fun entry _ => Agree.given fun expandedTotal _ => ?_
      split
      · exact .error _
      · refine Agree.given fun padded _ => Agree.bind (readData_agree hnext) ?_
        rintro ⟨last, sum⟩ ⟨last', sum'⟩ hlast
        exact .ok ⟨hlast, rfl, rfl⟩

/-- The loop does the same on both. -/
theorem inspectMembers_agree (htotal : total < 2 ^ 64) {walk : TarWalk} :
    ∀ {walk' : TarWalk}, AlikeWalks total maximum walk walk' →
      inspectMembers limits maximum walk = inspectMembers limits maximum walk' := by
  induction hn : limits.maxEntries.toNat - walk.entries.length using Nat.strong_induction_on
    generalizing walk with
  | _ n ih =>
      intro walk' h
      have hpass := @inspectMember_agree limits _ _ htotal _ _ h
      rw [inspectMembers, inspectMembers]
      generalize hleft : inspectMember limits maximum walk = pass at hpass
      generalize inspectMember limits maximum walk' = pass' at hpass
      cases hpass with
      | error e => rfl
      | @ok left right hpasses =>
          cases left with
          | next next =>
              cases right with
              | next next' =>
                  obtain ⟨hroom, hnext⟩ := inspectMember_entries hleft
                  exact ih _ (by omega) rfl hpasses
              | done entries' => exact hpasses.elim
          | done entries =>
              cases right with
              | next next' => exact hpasses.elim
              | done entries' => exact congrArg Except.ok hpasses

/-- However the bytes of an archive arrive, `inspect_ustar` returns what it returns on one
contiguous read if a 64-bit counter can count them, and it accepts no more bytes than it may.
It is a total function of the reader, so it returns.  The reader may be interrupted but hands all
its bytes out. -/
theorem inspectUstar_arrival (limits : ArchiveLimits) (maxArchiveBytes : UInt64) (bytes : Bytes)
    (reader : Reader) (hdelivers : reader.contents = some bytes) :
    (bytes.length < 2 ^ 64 → inspectUstar reader limits maxArchiveBytes =
      inspectUstar (.ofBytes bytes) limits maxArchiveBytes) ∧
    ∀ entries, inspectUstar reader limits maxArchiveBytes = .ok entries →
      bytes.length ≤ maxArchiveBytes.toNat := by
  constructor
  · intro hlength
    exact inspectMembers_agree hlength
      ⟨⟨⟨bytes, hdelivers, Reader.contents_ofBytes bytes, Nat.zero_add _⟩, rfl, Nat.zero_le _⟩,
        rfl, rfl⟩
  · intro entries h
    obtain ⟨_, _, _, _, hbound, _⟩ := inspectMembers_ok hdelivers h
    rwa [Nat.zero_add] at hbound

/-- The sample archive and one more block of zeros, cut inside the first header, where the
read is interrupted, and behind the two zero blocks, inside the trailer. -/
theorem inspectUstar_arrival_pieces : ∃ bytes,
    bytes = encodeArchive sampleMembers ++ List.replicate 512 0 ∧ bytes.length = 3072 ∧
    inspectUstar (Reader.ofBytes (bytes.take 100) ++ .error .interrupted ::
        (Reader.ofBytes ((bytes.drop 100).take 2600) ++ .ofBytes ((bytes.drop 100).drop 2600)))
      sampleLimits 4096 = .ok (sampleMembers.map (·.entry)) := by
  refine ⟨_, rfl, ?_, ?_⟩
  · rw [List.length_append, length_sample, List.length_replicate]
  · generalize hbytes : encodeArchive sampleMembers ++ List.replicate 512 0 = bytes
    have hlength : bytes.length = 3072 := by
      rw [← hbytes, List.length_append, length_sample, List.length_replicate]
    have hcontents : Reader.contents (Reader.ofBytes (bytes.take 100) ++ .error .interrupted ::
        (Reader.ofBytes ((bytes.drop 100).take 2600) ++ .ofBytes ((bytes.drop 100).drop 2600))) =
        some bytes := by
      have hend := @Reader.contents_ofBytes_append ((bytes.drop 100).take 2600) _ _
        (Reader.contents_ofBytes ((bytes.drop 100).drop 2600))
      rw [List.take_append_drop] at hend
      rw [Reader.contents_ofBytes_append (by rwa [Reader.contents_interrupted]),
        List.take_append_drop]
    obtain ⟨harrival, _⟩ := inspectUstar_arrival sampleLimits 4096 bytes _ hcontents
    rw [harrival (by omega)]
    refine @inspectUstar_encodeArchive_zeros _ _ _ _ sampleMembers_admitted 512 ?_ _ ?_
    · rw [length_sample]
      decide
    · rw [Reader.contents_ofBytes, hbytes]

/-! ## Zeros without end

A trailer of `2 ^ 64` bytes is counted up to the maximum or past the end of the counter,
depending on where its pieces end. -/

section Zeros

/-- A piece of so many zeros. -/
abbrev zeros (count : Nat) : Reader := .ofBytes (List.replicate count 0)

variable {count consumed : Nat} {rest : Reader}

theorem read_zeros (capacity : Nat) (hcount : 0 < count) :
    Reader.read capacity (zeros count ++ rest) =
      (.ok (List.replicate (min capacity count) 0), zeros (count - capacity) ++ rest) := by
  obtain ⟨more, rfl⟩ := Nat.exists_eq_succ_of_ne_zero hcount.ne'
  show (Except.ok ((List.replicate (more + 1) (0 : UInt8)).take capacity),
    Reader.ofBytes ((List.replicate (more + 1) (0 : UInt8)).drop capacity) ++ rest) = _
  rw [List.take_replicate, List.drop_replicate]

theorem readBlock_zeros (hcount : 512 < count) (hroom : consumed + 512 ≤ maximum)
    (hmax : maximum < 2 ^ 64) :
    readBlock (zeros count ++ rest) consumed maximum =
      .ok (List.replicate 512 0, zeros (count - 512) ++ rest, consumed + 512) := by
  have hread : Reader.readExact 512 (zeros count ++ rest) =
      .ok (List.replicate 512 0, zeros (count - 512) ++ rest) := by
    obtain ⟨more, rfl⟩ := Nat.exists_eq_succ_of_ne_zero (Nat.ne_zero_of_lt hcount)
    show (if 511 < (List.replicate more (0 : UInt8)).length then
      Except.ok ((List.replicate (more + 1) (0 : UInt8)).take 512,
        Reader.ofBytes ((List.replicate (more + 1) (0 : UInt8)).drop 512) ++ rest) else _) = _
    rw [if_pos (by rw [List.length_replicate]; omega), List.take_replicate, List.drop_replicate,
      Nat.min_eq_left (by omega)]
  unfold readBlock
  rw [checkedAdd_eq_ok_iff.mpr ⟨rfl, by omega⟩]
  show (if consumed + 512 > maximum then _ else _) = _
  rw [if_neg (Nat.not_lt.mpr hroom), hread]

/-- One read of the trailer. -/
theorem readTrailer_zeros {entries : List ArchiveEntry} (hcount : 0 < count) :
    readTrailer limits maximum entries consumed (zeros count ++ rest) =
      match checkedAdd consumed (min 512 count) with
      | .error e => .error e
      | .ok sum =>
          if sum > maximum then .error .unsafeEntryPath
          else readTrailer limits maximum entries sum (zeros (count - 512) ++ rest) := by
  have hread := @read_zeros count rest 512 hcount
  obtain ⟨fewer, hfewer⟩ := Nat.exists_eq_succ_of_ne_zero
    (Nat.ne_of_gt (Nat.lt_min.mpr ⟨Nat.succ_pos 511, hcount⟩))
  rw [hfewer, List.replicate_succ] at hread
  have hzero : (0 :: List.replicate fewer (0 : UInt8)).any (· != 0) = false := by
    rw [← List.replicate_succ, List.any_replicate]
    split <;> rfl
  rw [readTrailer]
  split
  · rename_i heq
    rw [hread] at heq
    cases heq
  · rename_i heq
    rw [hread] at heq
    cases heq
    rw [hfewer, List.length_replicate, hzero]
    cases checkedAdd consumed (fewer + 1) with
    | error e => rfl
    | ok sum => exact if_congr (or_iff_left Bool.false_ne_true) rfl rfl
  · rename_i heq
    rw [hread] at heq
    cases heq

/-- Whole blocks of zeros are passed as long as there is room. -/
theorem readTrailer_zeros_blocks (hmax : maximum < 2 ^ 64) {entries : List ArchiveEntry}
    {blocks : Nat} : ∀ {consumed : Nat}, consumed + blocks * 512 ≤ maximum →
      readTrailer limits maximum entries consumed (zeros (blocks * 512 + count) ++ rest) =
        readTrailer limits maximum entries (consumed + blocks * 512) (zeros count ++ rest) := by
  induction blocks with
  | zero =>
      intro consumed _
      rw [Nat.zero_mul, Nat.zero_add, Nat.add_zero]
  | succ blocks ih =>
      intro consumed hroom
      have hsum : checkedAdd consumed (min 512 ((blocks + 1) * 512 + count)) =
          .ok (consumed + 512) := by
        rw [Nat.min_eq_left (by omega)]
        exact checkedAdd_eq_ok_iff.mpr ⟨rfl, by omega⟩
      rw [readTrailer_zeros (by omega), hsum]
      show (if consumed + 512 > maximum then _ else _) = _
      rw [if_neg (by omega), show (blocks + 1) * 512 + count - 512 = blocks * 512 + count by omega,
        ih (by omega), show consumed + 512 + blocks * 512 = consumed + (blocks + 1) * 512 by omega]

/-- Behind two blocks of zeros stands the trailer. -/
theorem inspectMember_zeros {walk : TarWalk} {input input' : Reader} {sum sum' : Nat}
    (hfirst : readBlock walk.input walk.rawBytes maximum = .ok (List.replicate 512 0, input, sum))
    (hsecond : readBlock input sum maximum = .ok (List.replicate 512 0, input', sum')) :
    inspectMember limits maximum walk =
      (readTrailer limits maximum walk.entries sum' input').map .done := by
  have hall : (List.replicate 512 (0 : UInt8)).all (· == 0) = true := by
    rw [List.all_replicate]
    rfl
  have hany : (List.replicate 512 (0 : UInt8)).any (· != 0) = false := by
    rw [List.any_replicate]
    rfl
  unfold inspectMember
  rw [hfirst]
  generalize List.replicate 512 (0 : UInt8) = block at *
  show (if block.all (· == 0) = true then _ else _) = _
  rw [if_pos hall, hsecond]
  show (if block.any (· != 0) = true then _ else _) = _
  rw [if_neg (ne_true_of_eq_false hany)]
  cases readTrailer limits maximum walk.entries sum' input' <;> rfl

/-- Zeros to the last block before the end of the counter. -/
theorem inspectUstar_zeros {maxArchiveBytes : UInt64} (hmax : 2 ^ 64 - 512 ≤ maxArchiveBytes.toNat)
    (hcount : 0 < count) :
    inspectUstar (zeros (2 ^ 64 - 512 + count) ++ rest) limits maxArchiveBytes =
      readTrailer limits maxArchiveBytes.toNat [] (2 ^ 64 - 512) (zeros count ++ rest) := by
  have hlt := maxArchiveBytes.toNat_lt
  have hfirst := @readBlock_zeros _ (2 ^ 64 - 512 + count) 0 rest (by omega) (by omega) hlt
  have hsecond := @readBlock_zeros _ (2 ^ 64 - 512 + count - 512) (0 + 512) rest (by omega)
    (by omega) hlt
  have hblocks : 2 ^ 64 - 512 + count - 512 - 512 = (2 ^ 55 - 3) * 512 + count := by omega
  have hsum : 0 + 512 + 512 + (2 ^ 55 - 3) * 512 = 2 ^ 64 - 512 := by omega
  have hmember := @inspectMember_zeros limits _ ⟨zeros (2 ^ 64 - 512 + count) ++ rest, 0, 0, []⟩
    _ _ _ _ hfirst hsecond
  rw [hblocks, readTrailer_zeros_blocks hlt (by omega), hsum] at hmember
  rw [inspectUstar, inspectMembers, hmember]
  cases readTrailer limits maxArchiveBytes.toNat [] (2 ^ 64 - 512) (zeros count ++ rest) <;> rfl

end Zeros

/-- Up to two bytes less than the counter may count: in one piece the counter overflows, in
two pieces the count is found to be too large first. -/
theorem inspectUstar_arrival_overflow :
    Reader.contents (zeros (2 ^ 64 - 1) ++ zeros 1) = some (List.replicate (2 ^ 64) 0) ∧
    inspectUstar (.ofBytes (List.replicate (2 ^ 64) 0)) ⟨0, 0, 0, 0⟩ 18446744073709551614 =
      .error .tooLarge ∧
    inspectUstar (zeros (2 ^ 64 - 1) ++ zeros 1) ⟨0, 0, 0, 0⟩ 18446744073709551614 =
      .error .unsafeEntryPath := by
  have hmax : (18446744073709551614 : UInt64).toNat = 2 ^ 64 - 2 := rfl
  have hzero : ∀ n, zeros n = zeros n ++ [] := fun n => (List.append_nil _).symm
  have hone : zeros (2 ^ 64) = zeros (2 ^ 64 - 512 + 512) ++ [] := by
    rw [Nat.sub_add_cancel (by decide), ← hzero]
  have htwo : zeros (2 ^ 64 - 1) = zeros (2 ^ 64 - 512 + 511) := by
    rw [show 2 ^ 64 - 512 + 511 = 2 ^ 64 - 1 by omega]
  have hover : checkedAdd (2 ^ 64 - 512) (min 512 512) = .error .tooLarge := by decide
  have hcounted : checkedAdd (2 ^ 64 - 512) (min 512 511) = .ok (2 ^ 64 - 1) := by decide
  refine ⟨?_, ?_, ?_⟩
  · rw [Reader.contents_ofBytes_append (Reader.contents_ofBytes _),
      List.replicate_append_replicate, show 2 ^ 64 - 1 + 1 = 2 ^ 64 by omega]
  · show inspectUstar (zeros (2 ^ 64)) _ _ = _
    rw [hone, inspectUstar_zeros (by rw [hmax]; omega) (by omega), readTrailer_zeros (by omega),
      hover]
  · rw [htwo, inspectUstar_zeros (by rw [hmax]; omega) (by omega), readTrailer_zeros (by omega),
      hcounted]
    show (if 2 ^ 64 - 1 > _ then _ else _) = _
    rw [if_pos (by rw [hmax]; omega)]

end Prep.Core
