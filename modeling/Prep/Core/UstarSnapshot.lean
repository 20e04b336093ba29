/-
  Core/UstarSnapshot.lean --- the two guarantees of a verified snapshot: it gives
  back what was archived, and it hides nothing of what it was given.

  The first is about the archives of `Core/UstarEncoding.lean`.  The second is about all
  archives of the grammar, whoever has written them.  SHA-256 is a parameter.
-/
import Prep.Core.UstarEncoding

set_option autoImplicit false

namespace Prep.Core

open Prep.Data
open Prep.Io
open Prep.Manifest
open Prep.Text

/-! ## A sample -/

/-- A directory and a file in it. -/
def sampleMembers : List TarMember :=
  [⟨ascii "src/", .directory, [], by decide, by decide, Or.inr rfl, by decide⟩,
    ⟨ascii "src/a", .regularFile, ascii "abc", by decide, by decide, Or.inl rfl, by decide⟩]

def sampleLimits : ArchiveLimits := ⟨100, 4096, 4096, 100⟩

def sampleUrl : SourceUrl := ⟨ascii "https://example.test/source.tar", by decide +kernel⟩

def sampleProvider : ProviderIdentity :=
  ⟨⟨ascii "archive", by decide⟩, ⟨ascii "1.0.0", by decide⟩⟩

/-- The digest of everything under a hash that returns zeros. -/
def sampleDigest : Sha256Digest :=
  ⟨finishHex zeroDigest, length_finishHex zeroDigest, all_isLowerHexdigit_finishHex zeroDigest⟩

theorem sampleMembers_admitted :
    validateArchiveInventory (sampleMembers.map (·.entry)) sampleLimits = .ok 3 := by
  decide +kernel

theorem length_encode (m : TarMember) :
    m.encode.length = 512 + (m.contents.length + 511) / 512 * 512 := by
  rw [TarMember.encode, List.length_append, List.length_append, m.length_header, length_padding]

theorem length_sample : (encodeArchive sampleMembers).length = 2560 := by
  rw [encodeArchive, List.length_append, List.length_replicate, sampleMembers, List.flatMap_cons,
    List.flatMap_cons, List.length_append, List.length_append, length_encode, length_encode]
  rfl

/-! ## Encoding and decoding -/

/-- Reading an encoding undoes it: for every list of members whose inventory is
admitted, inspection gives back the inventory, and the snapshot locked to the digest
gives back the contents of every regular file and no other.  The maximum leaves room for the
archive, and the bytes arrive in any pieces. -/
theorem ustar_decoding_undoes_encoding (sha256 : Bytes → Sha256Output)
    (members : List TarMember) (limits : ArchiveLimits) (total : Nat)
    (htotal : validateArchiveInventory (members.map (·.entry)) limits = .ok total)
    (maxArchiveBytes : UInt64)
    (hmax : (encodeArchive members).length ≤ maxArchiveBytes.toNat) (input : Reader)
    (hinput : input.contents = some (encodeArchive members)) :
    inspectUstar input limits maxArchiveBytes = .ok (members.map (·.entry)) ∧
    ∀ (url : SourceUrl) (digest : Sha256Digest) (provider : ProviderIdentity),
      digest.asStr = finishHex (sha256 (encodeArchive members)) →
      maxArchiveBytes.toNat ≤ maxArchiveSnapshotBytes →
      ∃ snapshot, readVerifiedUstarSnapshot sha256 (.archive url digest provider) input limits
          maxArchiveBytes = .ok snapshot ∧
        (∀ m ∈ members, m.kind = .regularFile → snapshot.fileBytes m.name = some m.contents) ∧
        ∀ name, (∀ m ∈ members, m.kind = .regularFile → m.name ≠ name) →
          snapshot.fileBytes name = none := by
  refine ⟨inspectUstar_encodeArchive htotal hmax hinput, ?_⟩
  intro url digest provider hdigest hcap
  obtain ⟨hadmissible, _⟩ := validateArchiveInventory_eq_ok_iff.mp htotal
  obtain ⟨snapshot, hread, hbytes, _⟩ :=
    exists_readFrom_encodeArchive sha256 htotal hmax hcap hinput url hdigest provider
  have hfiles := fileBytes_of_encodeArchive hread
    (fun m hm => hadmissible.portable m.entry (List.mem_map_of_mem hm)) hbytes
  refine ⟨snapshot, readVerifiedUstarSnapshot_eq_ok_iff.mpr hread, ?_, ?_⟩
  · intro m hm hkind
    exact (hfiles m.name m.contents).mpr ⟨m, hm, hkind, rfl, rfl⟩
  · intro name hother
    rw [Option.eq_none_iff_forall_ne_some]
    intro contents hfile
    obtain ⟨m, hm, hkind, hname, _⟩ := (hfiles name contents).mp hfile
    exact hother m hm hkind hname

theorem ustar_decoding_undoes_sample :
    inspectUstar (.ofBytes (encodeArchive sampleMembers)) sampleLimits 4096 =
      .ok (sampleMembers.map (·.entry)) ∧
    ∃ snapshot, readVerifiedUstarSnapshot (fun _ => zeroDigest)
        (.archive sampleUrl sampleDigest sampleProvider)
        (.ofBytes (encodeArchive sampleMembers)) sampleLimits 4096 = .ok snapshot ∧
      snapshot.fileBytes (ascii "src/a") = some (ascii "abc") ∧
      snapshot.fileBytes (ascii "src") = none := by
  obtain ⟨hinspect, hsnapshot⟩ := ustar_decoding_undoes_encoding (fun _ => zeroDigest)
    sampleMembers sampleLimits 3 sampleMembers_admitted 4096 (by rw [length_sample]; decide)
    (.ofBytes (encodeArchive sampleMembers)) (Reader.contents_ofBytes _)
  obtain ⟨snapshot, hread, hfiles, hother⟩ :=
    hsnapshot sampleUrl sampleDigest sampleProvider rfl (by decide)
  refine ⟨hinspect, snapshot, hread, ?_, ?_⟩
  · exact hfiles ⟨ascii "src/a", .regularFile, ascii "abc", by decide, by decide, Or.inl rfl,
      by decide⟩ (List.mem_cons_of_mem _ List.mem_cons_self) rfl
  · exact hother (ascii "src") (by decide)

/-! ## Nothing hidden -/

/-- An accepted archive hides nothing and its two walks agree; behind an inspected
archive the offset loop cannot fail. -/
theorem verifiedUstarSnapshot_exact (sha256 : Bytes → Sha256Output) :
    (∀ (source : LockedSource) (input : Reader) (limits : ArchiveLimits)
      (maxArchiveBytes : UInt64) (snapshot : VerifiedUstarSnapshot) (bytes : Bytes),
      input.contents = some bytes →
      readVerifiedUstarSnapshot sha256 source input limits maxArchiveBytes = .ok snapshot →
        snapshot.bytes = bytes ∧
          ∃ members, ExactSnapshot limits maxArchiveBytes snapshot members) ∧
    ∀ (input : Reader) (limits : ArchiveLimits) (maxArchiveBytes : UInt64) (bytes : Bytes)
      (entries : List ArchiveEntry), input.contents = some bytes →
      inspectUstar input limits maxArchiveBytes = .ok entries →
        ∃ table, locateFiles bytes.length entries = .ok table := by
  refine ⟨?_, ?_⟩
  · intro source input limits maxArchiveBytes snapshot bytes hbytes h
    have hread := readVerifiedUstarSnapshot_eq_ok_iff.mp h
    exact ⟨hread.bytes_eq hbytes, hread.exact⟩
  · intro input limits maxArchiveBytes bytes entries hbytes h
    obtain ⟨_, _, _, _, _, table, htable, _⟩ := inspectUstar_ok hbytes h
    exact ⟨table, htable⟩

theorem verifiedUstarSnapshot_exact_sample :
    ∃ snapshot, readVerifiedUstarSnapshot (fun _ => zeroDigest)
        (.archive sampleUrl sampleDigest sampleProvider)
        (.ofBytes (encodeArchive sampleMembers)) sampleLimits 4096 = .ok snapshot ∧
      snapshot.bytes = encodeArchive sampleMembers ∧
      (∃ members, ExactSnapshot sampleLimits 4096 snapshot members) ∧
      ∃ table, locateFiles (encodeArchive sampleMembers).length (sampleMembers.map (·.entry)) =
        .ok table := by
  have hlength : (encodeArchive sampleMembers).length ≤ (4096 : UInt64).toNat := by
    rw [length_sample]
    decide
  have hinput := Reader.contents_ofBytes (encodeArchive sampleMembers)
  obtain ⟨snapshot, hread, _, _⟩ := exists_readFrom_encodeArchive (fun _ => zeroDigest)
    sampleMembers_admitted hlength (by decide) hinput sampleUrl
    (show sampleDigest.asStr = finishHex zeroDigest from rfl) sampleProvider
  have hsnapshot := readVerifiedUstarSnapshot_eq_ok_iff.mpr hread
  obtain ⟨hexact, hlocate⟩ := verifiedUstarSnapshot_exact fun _ => zeroDigest
  obtain ⟨hbytes, members, hmembers⟩ := hexact _ _ _ _ _ _ hinput hsnapshot
  exact ⟨snapshot, hsnapshot, hbytes, ⟨members, hmembers⟩, hlocate _ _ _ _ _ hinput
    (inspectUstar_encodeArchive sampleMembers_admitted hlength hinput)⟩

end Prep.Core
