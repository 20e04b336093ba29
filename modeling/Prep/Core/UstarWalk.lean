/-
  Core/UstarWalk.lean --- the loop of `inspect_ustar` walks the grammar: a pass
  reads one record, and the last one reads the zeros.

  Both directions are here: what a pass reads is a record, and a record is read if the limits
  leave room for it.
-/
import Prep.Core.ArchiveInventory
import Prep.Core.UstarGrammar

set_option autoImplicit false

namespace Prep.Core

open Prep.Data
open Prep.Io
open Prep.Text

variable {limits : ArchiveLimits} {maximum : Nat}

/-! ## The trailer -/

/-- The trailer is read to the end of the input and is zero. -/
theorem readTrailer_ok {entries result : List ArchiveEntry} {input : Reader} :
    ∀ {bytes : Bytes} {consumed : Nat}, input.contents = some bytes →
      readTrailer limits maximum entries consumed input = .ok result →
      result = entries ∧ (∃ total, validateArchiveInventory entries limits = .ok total) ∧
        (∀ b ∈ bytes, b = 0) ∧ (consumed ≤ maximum → consumed + bytes.length ≤ maximum) := by
  induction hn : input.size using Nat.strong_induction_on generalizing input with
  | _ n ih =>
      intro bytes consumed hinput h
      have hsmaller : (input.read 512).1 ≠ .ok [] → (input.read 512).2.size < n := by
        rw [← hn]
        exact Reader.size_read_lt (Nat.succ_pos 511)
      rw [readTrailer] at h
      rcases Reader.read_of_contents (Nat.succ_pos 511) hinput with
        ⟨hread, rfl⟩ | ⟨piece, rest, hread, hpiece, hrest, rfl⟩ | ⟨hread, hrest⟩
      · split at h
        · obtain ⟨total, htotal, h⟩ := bind_eq_ok_iff.mp h
          cases h
          exact ⟨rfl, ⟨total, htotal⟩, fun b hb => absurd hb List.not_mem_nil, id⟩
        · rename_i heq
          rw [heq] at hread
          cases hread
        · rename_i heq
          rw [heq] at hread
          cases hread
      · split at h
        · rename_i heq
          rw [heq] at hread
          cases hread
          exact absurd rfl hpiece
        · rename_i head tail next heq
          rw [heq] at hread hrest hsmaller
          cases hread
          split at h
          · cases h
          · rename_i sum hsum
            obtain ⟨rfl, _⟩ := checkedAdd_eq_ok_iff.mp hsum
            split at h
            · cases h
            · rename_i hzero
              push Not at hzero
              obtain ⟨rfl, htotal, hzeros, hbound⟩ :=
                ih _ (hsmaller fun hnil => by cases hnil) rfl hrest h
              refine ⟨rfl, htotal, fun b hb => ?_, fun _ => ?_⟩
              · rcases List.mem_append.mp hb with hb | hb
                · by_contra hne
                  exact hzero.2 (List.any_eq_true.mpr ⟨b, hb, bne_iff_ne.mpr hne⟩)
                · exact hzeros b hb
              · have hlength := hbound hzero.1
                rw [List.length_append, List.length_cons]
                omega
        · rename_i heq
          rw [heq] at hread
          cases hread
      · split at h
        · rename_i heq
          rw [heq] at hread
          cases hread
        · rename_i heq
          rw [heq] at hread
          cases hread
        · rename_i e next heq
          rw [heq] at hread hrest hsmaller
          cases hread
          rw [if_pos rfl] at h
          exact ih _ (hsmaller fun hnil => by cases hnil) rfl hrest h

/-- Zeros within the maximum are read to the end. -/
theorem readTrailer_of_zeros (hmax : maximum < 2 ^ 64) {entries : List ArchiveEntry} {total : Nat}
    (htotal : validateArchiveInventory entries limits = .ok total) {input : Reader} :
    ∀ {bytes : Bytes} {consumed : Nat}, input.contents = some bytes → (∀ b ∈ bytes, b = 0) →
      consumed + bytes.length ≤ maximum →
      readTrailer limits maximum entries consumed input = .ok entries := by
  induction hn : input.size using Nat.strong_induction_on generalizing input with
  | _ n ih =>
      intro bytes consumed hinput hzero hbound
      have hsmaller : (input.read 512).1 ≠ .ok [] → (input.read 512).2.size < n := by
        rw [← hn]
        exact Reader.size_read_lt (Nat.succ_pos 511)
      rw [readTrailer]
      rcases Reader.read_of_contents (Nat.succ_pos 511) hinput with
        ⟨hread, rfl⟩ | ⟨piece, rest, hread, hpiece, hrest, rfl⟩ | ⟨hread, hrest⟩
      · split
        · exact bind_eq_ok_iff.mpr ⟨total, htotal, rfl⟩
        · rename_i heq
          rw [heq] at hread
          cases hread
        · rename_i heq
          rw [heq] at hread
          cases hread
      · split
        · rename_i heq
          rw [heq] at hread
          cases hread
          exact absurd rfl hpiece
        · rename_i head tail next heq
          rw [heq] at hread hrest hsmaller
          cases hread
          rw [List.length_append, List.length_cons] at hbound
          have hsum : checkedAdd consumed (tail.length + 1) = .ok (consumed + (tail.length + 1)) :=
            checkedAdd_eq_ok_iff.mpr ⟨rfl, by omega⟩
          rw [hsum]
          dsimp only
          rw [if_neg]
          · exact ih _ (hsmaller fun hnil => by cases hnil) rfl hrest
              (fun b hb => hzero b (List.mem_append_right _ hb)) (by omega)
          · rintro (hlarge | hany)
            · omega
            · obtain ⟨b, hb, hne⟩ := List.any_eq_true.mp hany
              exact bne_iff_ne.mp hne (hzero b (List.mem_append_left _ hb))
        · rename_i heq
          rw [heq] at hread
          cases hread
      · split
        · rename_i heq
          rw [heq] at hread
          cases hread
        · rename_i heq
          rw [heq] at hread
          cases hread
        · rename_i e next heq
          rw [heq] at hread hrest hsmaller
          cases hread
          rw [if_pos rfl]
          exact ih _ (hsmaller fun hnil => by cases hnil) rfl hrest hzero hbound

/-! ## One pass -/

/-- What a walk becomes by reading a record. -/
structure ReadsMember (walk : TarWalk) (m : Member) (next : TarWalk) : Prop where
  rawBytes : next.rawBytes = walk.rawBytes + m.bytes.length
  entries : next.entries = walk.entries ++ [m.entry]
  expandedTotal : next.expandedTotal = walk.expandedTotal + m.entry.expandedBytes

/-- The data of a record stands in front of its padding. -/
theorem span_eq_data_append {size : Nat} {span : Bytes}
    (hlength : span.length = (size + 511) / 512 * 512)
    (hzero : (size + 511) / 512 ≠ 0 → size % 512 ≠ 0 →
      ∀ b ∈ span.drop (((size + 511) / 512 - 1) * 512 + size % 512), b = 0) :
    span = span.take size ++ padding size := by
  have htail : span.drop size = padding size := by
    refine List.eq_replicate_iff.mpr ⟨by rw [List.length_drop]; omega, fun b hb => ?_⟩
    rcases Nat.eq_zero_or_pos (size % 512) with hfull | hpartial
    · rw [List.drop_of_length_le (by omega)] at hb
      cases hb
    · refine hzero (by omega) (by omega) b ?_
      rw [show ((size + 511) / 512 - 1) * 512 + size % 512 = size by omega]
      exact hb
  rw [← htail, List.take_append_drop]

/-- A pass that goes on has read one record. -/
theorem inspectMember_next {walk next : TarWalk} {bytes : Bytes}
    (hinput : walk.input.contents = some bytes)
    (h : inspectMember limits maximum walk = .ok (.next next)) :
    ∃ (m : Member) (rest : Bytes), bytes = m.bytes ++ rest ∧
      next.input.contents = some rest ∧ ReadsMember walk m next ∧ next.rawBytes ≤ maximum := by
  unfold inspectMember at h
  obtain ⟨⟨header, input, rawBytes⟩, hheader, h⟩ := bind_eq_ok_iff.mp h
  obtain ⟨rest, rfl, hlength, hrest, rfl, hmaximum⟩ := readBlock_ok hinput hheader
  dsimp only at h
  split at h
  · obtain ⟨⟨second, input, rawBytes⟩, _, h⟩ := bind_eq_ok_iff.mp h
    dsimp only at h
    split at h
    · cases h
    · obtain ⟨entries, _, h⟩ := bind_eq_ok_iff.mp h
      cases h
  · split at h
    · cases h
    · obtain ⟨entry, hentry, h⟩ := bind_eq_ok_iff.mp h
      obtain ⟨hdecodes, _⟩ := decodeHeader_eq_ok_iff.mp hentry
      obtain ⟨expandedTotal, htotal, h⟩ := bind_eq_ok_iff.mp h
      obtain ⟨rfl, _⟩ := checkedAdd_eq_ok_iff.mp htotal
      split at h
      · cases h
      · obtain ⟨padded, hpadded, h⟩ := bind_eq_ok_iff.mp h
        obtain ⟨rfl, _⟩ := checkedAdd_eq_ok_iff.mp hpadded
        obtain ⟨⟨input, rawBytes⟩, hdata, h⟩ := bind_eq_ok_iff.mp h
        cases h
        obtain ⟨span, rest, rfl, hspan, hcontents, rfl, hbound, hzero⟩ := readData_ok hrest hdata
        have hsplit := span_eq_data_append hspan hzero
        have hdata_length : (span.take entry.expandedBytes).length = entry.expandedBytes := by
          rw [List.length_take]
          omega
        refine ⟨⟨header, entry, span.take entry.expandedBytes, hlength, hdecodes, hdata_length⟩,
          rest, ?_, hcontents, ⟨?_, rfl, rfl⟩, ?_⟩
        · rw [Member.bytes, ← hsplit, List.append_assoc]
        · rw [Member.length_bytes]
          dsimp only
          omega
        · dsimp only
          rcases Nat.eq_zero_or_pos ((entry.expandedBytes + 511) / 512) with hnone | hsome
          · omega
          · exact hbound (by omega)

/-- The last pass has read zeros to the end. -/
theorem inspectMember_done {walk : TarWalk} {bytes : Bytes} {entries : List ArchiveEntry}
    (hinput : walk.input.contents = some bytes)
    (h : inspectMember limits maximum walk = .ok (.done entries)) :
    (∃ zeros, 1024 ≤ zeros ∧ bytes = List.replicate zeros 0) ∧ entries = walk.entries ∧
      (∃ total, validateArchiveInventory entries limits = .ok total) ∧
      walk.rawBytes + bytes.length ≤ maximum := by
  unfold inspectMember at h
  obtain ⟨⟨header, input, rawBytes⟩, hheader, h⟩ := bind_eq_ok_iff.mp h
  obtain ⟨rest, rfl, hlength, hrest, rfl, _⟩ := readBlock_ok hinput hheader
  dsimp only at h
  split at h
  · rename_i hfirst
    obtain ⟨⟨second, input, rawBytes⟩, hsecond, h⟩ := bind_eq_ok_iff.mp h
    obtain ⟨rest, rfl, hlength', hrest', rfl, hmaximum⟩ := readBlock_ok hrest hsecond
    dsimp only at h
    split at h
    · cases h
    · rename_i hzero
      obtain ⟨result, htrailer, h⟩ := bind_eq_ok_iff.mp h
      cases h
      obtain ⟨rfl, htotal, hzeros, hbound⟩ := readTrailer_ok hrest' htrailer
      refine ⟨⟨(header ++ (second ++ rest)).length, ?_, ?_⟩, rfl, htotal, ?_⟩
      · rw [List.length_append, List.length_append]
        omega
      · refine List.eq_replicate_iff.mpr ⟨rfl, fun b hb => ?_⟩
        rcases List.mem_append.mp hb with hb | hb
        · exact eq_of_beq (List.all_eq_true.mp hfirst b hb)
        · rcases List.mem_append.mp hb with hb | hb
          · by_contra hne
            exact hzero (List.any_eq_true.mpr ⟨b, hb, bne_iff_ne.mpr hne⟩)
          · exact hzeros b hb
      · have hlength := hbound hmaximum
        rw [List.length_append, List.length_append]
        omega
  · split at h
    · cases h
    · obtain ⟨entry, _, h⟩ := bind_eq_ok_iff.mp h
      obtain ⟨expandedTotal, _, h⟩ := bind_eq_ok_iff.mp h
      split at h
      · cases h
      · obtain ⟨padded, _, h⟩ := bind_eq_ok_iff.mp h
        obtain ⟨⟨input, rawBytes⟩, _, h⟩ := bind_eq_ok_iff.mp h
        cases h

/-- A record within the limits is read by one pass. -/
theorem inspectMember_of_member (hmax : maximum < 2 ^ 64) {walk : TarWalk} {m : Member}
    {rest : Bytes} (hinput : walk.input.contents = some (m.bytes ++ rest))
    (hroom : walk.entries.length < limits.maxEntries.toNat)
    (hlimits : WithinLimits limits m.entry)
    (htotal : walk.expandedTotal + m.entry.expandedBytes ≤ limits.maxTotalBytes.toNat)
    (hbound : walk.rawBytes + m.bytes.length ≤ maximum) :
    ∃ next, inspectMember limits maximum walk = .ok (.next next) ∧
      next.input.contents = some rest ∧ ReadsMember walk m next := by
  rw [Member.length_bytes] at hbound
  have htotal_lt := limits.maxTotalBytes.toNat_lt
  rw [Member.bytes, List.append_assoc] at hinput
  obtain ⟨input, hheader, hrest⟩ := readBlock_of_contents hinput m.header_length
    (show walk.rawBytes + 512 ≤ maximum by omega) hmax
  have hspan := length_padding m.entry.expandedBytes
  obtain ⟨input', hdata, hcontents⟩ := readData_of_contents hmax hrest
    (show (m.data ++ padding m.entry.expandedBytes).length =
      (m.entry.expandedBytes + 511) / 512 * 512 by
        rw [List.length_append, m.data_length]
        exact hspan)
    (fun _ hsize b hb => by
      rw [show ((m.entry.expandedBytes + 511) / 512 - 1) * 512 + m.entry.expandedBytes % 512 =
        m.data.length by rw [m.data_length]; omega, List.drop_left] at hb
      exact List.eq_of_mem_replicate hb)
    (show walk.rawBytes + 512 + (m.entry.expandedBytes + 511) / 512 * 512 ≤ maximum by omega)
  refine ⟨⟨input', walk.rawBytes + 512 + (m.entry.expandedBytes + 511) / 512 * 512,
    walk.expandedTotal + m.entry.expandedBytes, walk.entries ++ [m.entry]⟩, ?_, hcontents,
    ⟨?_, rfl, rfl⟩⟩
  · unfold inspectMember
    refine bind_eq_ok_iff.mpr ⟨_, hheader, ?_⟩
    dsimp only
    rw [if_neg, if_neg (Nat.not_le.mpr hroom)]
    · refine bind_eq_ok_iff.mpr ⟨_, decodeHeader_eq_ok_iff.mpr ⟨m.decodes, hlimits⟩, ?_⟩
      refine bind_eq_ok_iff.mpr ⟨_, checkedAdd_eq_ok_iff.mpr ⟨rfl, by omega⟩, ?_⟩
      rw [if_neg (Nat.not_lt.mpr htotal)]
      refine bind_eq_ok_iff.mpr ⟨_, checkedAdd_eq_ok_iff.mpr ⟨rfl, by omega⟩, ?_⟩
      exact bind_eq_ok_iff.mpr ⟨_, hdata, rfl⟩
    · intro hall
      exact m.header_not_zero fun b hb => eq_of_beq (List.all_eq_true.mp hall b hb)
  · rw [Member.length_bytes]
    dsimp only
    omega

/-- Zeros end the walk. -/
theorem inspectMember_of_zeros (hmax : maximum < 2 ^ 64) {walk : TarWalk} {zeros total : Nat}
    (hinput : walk.input.contents = some (List.replicate zeros 0)) (hzeros : 1024 ≤ zeros)
    (htotal : validateArchiveInventory walk.entries limits = .ok total)
    (hbound : walk.rawBytes + zeros ≤ maximum) :
    inspectMember limits maximum walk = .ok (.done walk.entries) := by
  have hblock : ∀ n, 512 ≤ n → List.replicate n (0 : UInt8) =
      List.replicate 512 0 ++ List.replicate (n - 512) 0 := by
    intro n hn
    rw [List.replicate_append_replicate, Nat.add_sub_cancel' hn]
  rw [hblock zeros (by omega), hblock (zeros - 512) (by omega)] at hinput
  obtain ⟨input, hfirst, hrest⟩ := readBlock_of_contents hinput List.length_replicate
    (show walk.rawBytes + 512 ≤ maximum by omega) hmax
  obtain ⟨input', hsecond, hrest'⟩ := readBlock_of_contents hrest List.length_replicate
    (show walk.rawBytes + 512 + 512 ≤ maximum by omega) hmax
  have htrailer := readTrailer_of_zeros hmax htotal hrest'
    (fun b hb => List.eq_of_mem_replicate hb)
    (show walk.rawBytes + 512 + 512 + _ ≤ maximum by rw [List.length_replicate]; omega)
  unfold inspectMember
  refine bind_eq_ok_iff.mpr ⟨_, hfirst, ?_⟩
  dsimp only
  rw [if_pos (List.all_eq_true.mpr fun b hb => beq_iff_eq.mpr (List.eq_of_mem_replicate hb))]
  refine bind_eq_ok_iff.mpr ⟨_, hsecond, ?_⟩
  dsimp only
  rw [if_neg]
  · exact bind_eq_ok_iff.mpr ⟨_, htrailer, rfl⟩
  · intro hany
    obtain ⟨b, hb, hne⟩ := List.any_eq_true.mp hany
    exact bne_iff_ne.mp hne (List.eq_of_mem_replicate hb)

/-! ## The whole walk -/

/-- The walk after so many passes, if they all go on. -/
def passes (limits : ArchiveLimits) (maximum : Nat) : Nat → TarWalk → Option TarWalk
  | 0, walk => some walk
  | count + 1, walk =>
      match inspectMember limits maximum walk with
      | .ok (.next next) => passes limits maximum count next
      | _ => none

/-- Where the records of a list begin, one behind the other. -/
def offsetOf (members : List Member) (k : Nat) : Nat :=
  ((members.take k).flatMap Member.bytes).length

@[simp] theorem offsetOf_zero (members : List Member) : offsetOf members 0 = 0 := rfl

@[simp] theorem offsetOf_cons_succ (m : Member) (members : List Member) (k : Nat) :
    offsetOf (m :: members) (k + 1) = m.bytes.length + offsetOf members k := by
  rw [offsetOf, List.take_succ_cons, List.flatMap_cons, List.length_append]
  rfl

/-- The k-th pass begins where the k-th record does. -/
structure WalksTo (walk : TarWalk) (bytes : Bytes) (members : List Member) (k : Nat)
    (reached : TarWalk) : Prop where
  rawBytes : reached.rawBytes = walk.rawBytes + offsetOf members k
  entries : reached.entries = walk.entries ++ (members.take k).map (·.entry)
  input : reached.input.contents = some (bytes.drop (offsetOf members k))

/-- An archive that is inspected without error is one of the grammar, and the loop
has walked its records. -/
theorem inspectMembers_ok {walk : TarWalk} {entries : List ArchiveEntry} :
    ∀ {bytes : Bytes}, walk.input.contents = some bytes →
      inspectMembers limits maximum walk = .ok entries →
      ∃ members, SplitsInto bytes members ∧ entries = walk.entries ++ members.map (·.entry) ∧
        (∃ total, validateArchiveInventory entries limits = .ok total) ∧
        walk.rawBytes + bytes.length ≤ maximum ∧
        ∀ k, k ≤ members.length → ∃ reached, passes limits maximum k walk = some reached ∧
          WalksTo walk bytes members k reached := by
  induction walk using inspectMembers.induct limits maximum with
  | case1 walk e herror =>
      intro bytes hinput h
      rw [inspectMembers, herror] at h
      cases h
  | case2 walk result hdone =>
      intro bytes hinput h
      rw [inspectMembers, hdone] at h
      cases h
      obtain ⟨⟨zeros, hzeros, rfl⟩, rfl, htotal, hbound⟩ := inspectMember_done hinput hdone
      refine ⟨[], ⟨zeros, hzeros, rfl⟩, (List.append_nil _).symm, htotal, hbound, fun k hk => ?_⟩
      obtain rfl := Nat.le_zero.mp hk
      exact ⟨walk, rfl, ⟨rfl, (List.append_nil _).symm, hinput⟩⟩
  | case3 walk next hnext ih =>
      intro bytes hinput h
      rw [inspectMembers, hnext] at h
      obtain ⟨m, rest, rfl, hrest, hreads, _⟩ := inspectMember_next hinput hnext
      obtain ⟨members, hsplit, rfl, htotal, hbound, hpasses⟩ := ih hrest h
      refine ⟨m :: members, hsplit.cons m, ?_, htotal, ?_, fun k hk => ?_⟩
      · rw [hreads.entries, List.append_assoc]
        rfl
      · rw [hreads.rawBytes] at hbound
        rw [List.length_append]
        omega
      · cases k with
        | zero => exact ⟨walk, rfl, ⟨rfl, (List.append_nil _).symm, hinput⟩⟩
        | succ k =>
            obtain ⟨reached, hreached, hwalks⟩ := hpasses k (Nat.le_of_succ_le_succ hk)
            refine ⟨reached, ?_, ⟨?_, ?_, ?_⟩⟩
            · rw [passes, hnext]
              exact hreached
            · rw [hwalks.rawBytes, hreads.rawBytes, offsetOf_cons_succ, Nat.add_assoc]
            · rw [hwalks.entries, hreads.entries, List.append_assoc]
              rfl
            · rw [hwalks.input, offsetOf_cons_succ, List.drop_length_add_append]

/-- An archive of the grammar whose inventory is admitted is inspected without
error. -/
theorem inspectMembers_of_splitsInto (hmax : maximum < 2 ^ 64) {total : Nat}
    {members : List Member} :
    ∀ {walk : TarWalk} {bytes : Bytes}, walk.input.contents = some bytes →
      SplitsInto bytes members →
      validateArchiveInventory (walk.entries ++ members.map (·.entry)) limits = .ok total →
      (∀ m ∈ members, WithinLimits limits m.entry) →
      walk.expandedTotal = (walk.entries.map (·.expandedBytes)).sum →
      walk.rawBytes + bytes.length ≤ maximum →
      inspectMembers limits maximum walk = .ok (walk.entries ++ members.map (·.entry)) := by
  induction members with
  | nil =>
      intro walk bytes hinput hsplit htotal _ _ hbound
      obtain ⟨zeros, hzeros, rfl⟩ := hsplit
      rw [List.map_nil, List.append_nil] at htotal ⊢
      rw [List.flatMap_nil, List.nil_append] at hinput hbound
      rw [List.length_replicate] at hbound
      rw [inspectMembers, inspectMember_of_zeros hmax hinput hzeros htotal hbound]
  | cons m members ih =>
      intro walk bytes hinput hsplit htotal hlimits hsum hbound
      obtain ⟨zeros, hzeros, rfl⟩ := hsplit
      rw [List.flatMap_cons, List.append_assoc] at hinput hbound
      rw [List.length_append] at hbound
      obtain ⟨hadmissible, _⟩ := validateArchiveInventory_eq_ok_iff.mp htotal
      have hcount := hadmissible.count
      have hbytes := hadmissible.total
      rw [List.length_append, List.length_map, List.length_cons] at hcount
      rw [List.map_append, List.sum_append, List.map_cons, List.map_cons, List.sum_cons,
        ← hsum] at hbytes
      obtain ⟨next, hnext, hrest, hreads⟩ := inspectMember_of_member hmax hinput (by omega)
        (hlimits m List.mem_cons_self) (by omega) (by omega)
      have hentries : next.entries ++ members.map (·.entry) =
          walk.entries ++ (m :: members).map (·.entry) := by
        rw [hreads.entries, List.append_assoc]
        rfl
      rw [inspectMembers, hnext]
      rw [← hentries] at htotal ⊢
      refine ih hrest ⟨zeros, hzeros, rfl⟩ htotal
        (fun m' hm' => hlimits m' (List.mem_cons_of_mem m hm')) ?_ ?_
      · rw [hreads.expandedTotal, hreads.entries, hsum, List.map_append, List.sum_append]
        rfl
      · rw [hreads.rawBytes]
        omega

end Prep.Core
