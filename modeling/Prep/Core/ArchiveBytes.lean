/-
  Core/ArchiveBytes.lean --- `verify_archive_bytes` on a reader that hands its bytes
  out in pieces.

  How the bytes are cut does not matter.  An `Interrupted` that comes before the
  verdict does: the loop gives up where the other readers read on.

  Scope: the reader hands all its bytes out in the end.  One that fails for good has no
  contiguous read to be compared with, and is left out.  SHA-256 is a parameter.
-/
import Prep.Core.Source

set_option autoImplicit false

namespace Prep.Core

open Prep.Io
open Prep.Manifest
open Prep.Text

/-! ## One read -/

section Loop

variable {maximum total : Nat} {hashed : Bytes} {reader : Reader}

theorem hashArchive_nil : hashArchive maximum [] total hashed = .ok (total, hashed) := by
  rw [hashArchive]
  rfl

theorem hashArchive_error (e : IoError) :
    hashArchive maximum (.error e :: reader) total hashed = .error (.io e) := by
  rw [hashArchive]
  rfl

/-- A piece is hashed when there is room for it. -/
theorem hashArchive_chunk (hmaximum : maximum < 2 ^ 64) (head : UInt8) (tail : Bytes) :
    hashArchive maximum (.chunk head tail :: reader) total hashed =
      if maximum < total + ((head :: tail).take 8192).length then .error .tooLarge
      else hashArchive maximum (Reader.ofBytes ((head :: tail).drop 8192) ++ reader)
        (total + ((head :: tail).take 8192).length) (hashed ++ (head :: tail).take 8192) := by
  have hread : Reader.read 8192 (.chunk head tail :: reader) =
      (.ok (head :: tail.take 8191), Reader.ofBytes ((head :: tail).drop 8192) ++ reader) := rfl
  rw [hashArchive]
  split
  · rename_i heq
    rw [hread] at heq
    cases heq
  · rename_i heq
    rw [hread] at heq
    cases heq
  · rename_i heq
    rw [hread] at heq
    cases heq
    have hlength : ((head :: tail).take 8192).length = (tail.take 8191).length + 1 := rfl
    rw [hlength]
    rcases Nat.lt_or_ge (total + ((tail.take 8191).length + 1)) (2 ^ 64) with hfits | hlarge
    · have hsum : checkedAdd total ((tail.take 8191).length + 1) =
          .ok (total + ((tail.take 8191).length + 1)) := checkedAdd_eq_ok_iff.mpr ⟨rfl, hfits⟩
      rw [hsum]
      rfl
    · have hsum : checkedAdd total ((tail.take 8191).length + 1) = .error .tooLarge := by
        rw [checkedAdd, if_neg (by omega)]
      rw [hsum, if_pos (by omega)]

/-- The loop hashes what comes before the first `Interrupted`, unless it is too much. -/
theorem hashArchive_eq (hmaximum : maximum < 2 ^ 64) {bytes : Bytes}
    (h : reader.contents = some bytes) (htotal : total ≤ maximum) :
    hashArchive maximum reader total hashed =
      if maximum < total + reader.leading.length then .error .tooLarge
      else if .error .interrupted ∈ reader then .error (.io .interrupted)
      else .ok (total + bytes.length, hashed ++ bytes) := by
  induction hn : reader.size using Nat.strong_induction_on generalizing reader bytes total hashed with
  | _ n ih =>
      cases reader with
      | nil =>
          obtain rfl := Option.some.inj h
          have hnone : ¬ maximum < total + (Reader.leading []).length := Nat.not_lt.mpr htotal
          rw [hashArchive_nil, if_neg hnone, if_neg List.not_mem_nil, List.append_nil]
          rfl
      | cons event reader =>
          cases event with
          | error e =>
              obtain ⟨rfl, _⟩ := Reader.contents_error_cons h
              have hnone : ¬ maximum < total +
                  (Reader.leading (.error .interrupted :: reader)).length := Nat.not_lt.mpr htotal
              rw [hashArchive_error, if_neg hnone, if_pos List.mem_cons_self]
          | chunk head tail =>
              obtain ⟨rest, hreader, rfl⟩ := Reader.contents_chunk_cons.mp h
              have hsize : (Reader.ofBytes ((head :: tail).drop 8192) ++ reader).size < n := by
                have hlt : (Reader.read 8192 (.chunk head tail :: reader)).2.size <
                    Reader.size (.chunk head tail :: reader) :=
                  Reader.size_read_lt (by decide) fun hnil => by cases hnil
                rwa [hn] at hlt
              have hcut : (head :: tail).take 8192 ++ (head :: tail).drop 8192 = head :: tail :=
                List.take_append_drop 8192 (head :: tail)
              have hlength : ∀ more : Bytes, total + ((head :: tail).take 8192).length +
                  ((head :: tail).drop 8192 ++ more).length =
                    total + (head :: tail ++ more).length := by
                intro more
                rw [Nat.add_assoc, ← List.length_append, ← List.append_assoc, hcut]
              have hmem : .error .interrupted ∈ ReadEvent.chunk head tail :: reader ↔
                  .error .interrupted ∈ reader := by
                rw [List.mem_cons]
                exact or_iff_right fun heq => (by cases heq)
              rw [hashArchive_chunk hmaximum, Reader.leading]
              rcases Nat.lt_or_ge maximum (total + ((head :: tail).take 8192).length) with
                hover | hroom
              · have hmore := hlength (Reader.leading reader)
                rw [if_pos hover, if_pos (by omega)]
              · rw [if_neg (Nat.not_lt.mpr hroom),
                  ih _ hsize (Reader.contents_ofBytes_append hreader) hroom rfl,
                  Reader.leading_ofBytes_append, hlength, hlength, List.append_assoc hashed,
                  ← List.append_assoc _ _ rest, hcut]
                simp only [Reader.error_mem_ofBytes_append, hmem]

end Loop

/-! ## The verdict -/

/-- What the bytes of an archive deserve. -/
def archiveVerdict (sha256 : Bytes → Sha256Output) (expected : Sha256Digest) (maximum : Nat)
    (bytes : Bytes) : Except SourceVerificationError Nat :=
  if maximum < bytes.length then .error .tooLarge
  else if finishHex (sha256 bytes) ≠ expected.asStr then .error .identityMismatch
  else .ok bytes.length

section Verdict

variable {sha256 : Bytes → Sha256Output} {url : SourceUrl} {expected : Sha256Digest}
  {provider : ProviderIdentity} {maximum : Nat} {reader : Reader} {bytes : Bytes}

/-- A reader that reports nothing before the verdict gets what its bytes deserve. -/
theorem verifyArchiveBytes_eq (hmaximum : maximum < 2 ^ 64) (h : reader.contents = some bytes)
    (hcalm : .error .interrupted ∉ reader ∨ maximum < reader.leading.length) :
    verifyArchiveBytes sha256 (.archive url expected provider) reader maximum =
      archiveVerdict sha256 expected maximum bytes := by
  obtain ⟨hlength, hall⟩ := Reader.leading_of_contents h
  rw [verifyArchiveBytes, hashArchive_eq hmaximum h (Nat.zero_le maximum), Nat.zero_add,
    archiveVerdict]
  rcases Nat.lt_or_ge maximum reader.leading.length with hlarge | hfits
  · rw [if_pos hlarge, if_pos (Nat.lt_of_lt_of_le hlarge hlength)]
    rfl
  · have hnone := hcalm.resolve_right (Nat.not_lt.mpr hfits)
    rw [if_neg (Nat.not_lt.mpr hfits), if_neg hnone, ← hall hnone,
      if_neg (Nat.not_lt.mpr hfits), Nat.zero_add]
    rfl

/-- An `Interrupted` before the verdict is reported as it is. -/
theorem verifyArchiveBytes_interrupted (hmaximum : maximum < 2 ^ 64)
    (h : reader.contents = some bytes) (hmem : .error .interrupted ∈ reader)
    (hfits : reader.leading.length ≤ maximum) :
    verifyArchiveBytes sha256 (.archive url expected provider) reader maximum =
      .error (.io .interrupted) := by
  rw [verifyArchiveBytes, hashArchive_eq hmaximum h (Nat.zero_le maximum), Nat.zero_add,
    if_neg (Nat.not_lt.mpr hfits), if_pos hmem]
  rfl

theorem archiveVerdict_ne_io (e : IoError) :
    archiveVerdict sha256 expected maximum bytes ≠ .error (.io e) := by
  rw [archiveVerdict]
  split
  · exact fun h => by cases h
  · split
    · exact fun h => by cases h
    · exact fun h => by cases h

end Verdict

/-- However the bytes of an archive arrive, the verdict is that of one contiguous read
exactly when the reader reports no `Interrupted`, or has handed out more than the maximum
before the first one. -/
theorem verifyArchiveBytes_arrival (sha256 : Bytes → Sha256Output) (url : SourceUrl)
    (expected : Sha256Digest) (provider : ProviderIdentity) (maximum : UInt64) (bytes : Bytes)
    (reader : Reader) (hdelivers : reader.contents = some bytes) :
    (verifyArchiveBytes sha256 (.archive url expected provider) reader maximum.toNat =
        verifyArchiveBytes sha256 (.archive url expected provider) (.ofBytes bytes)
          maximum.toNat ∧
      verifyArchiveBytes sha256 (.archive url expected provider) reader maximum.toNat =
        archiveVerdict sha256 expected maximum.toNat bytes) ↔
    .error .interrupted ∉ reader ∨ maximum.toNat < reader.leading.length := by
  have hmaximum := maximum.toNat_lt
  have hnone : ReadEvent.error .interrupted ∉ Reader.ofBytes bytes := by
    have hmem := @Reader.error_mem_ofBytes_append .interrupted bytes []
    rw [List.append_nil] at hmem
    exact fun h => absurd (hmem.mp h) List.not_mem_nil
  constructor
  · rintro ⟨_, hverdict⟩
    by_contra hcalm
    rw [not_or, not_not, Nat.not_lt] at hcalm
    rw [verifyArchiveBytes_interrupted hmaximum hdelivers hcalm.1 hcalm.2] at hverdict
    exact archiveVerdict_ne_io _ hverdict.symm
  · intro hcalm
    rw [verifyArchiveBytes_eq hmaximum hdelivers hcalm,
      verifyArchiveBytes_eq hmaximum (Reader.contents_ofBytes bytes) (.inl hnone)]
    exact ⟨rfl, rfl⟩

/-! ## The archive `abc` -/

def abcDigest : Sha256Digest :=
  ⟨finishHex (abcHash (ascii "abc")), length_finishHex _, all_isLowerHexdigit_finishHex _⟩

def abcArchive : LockedSource :=
  .archive ⟨ascii "https://example.test/abc", by decide +kernel⟩ abcDigest
    ⟨⟨ascii "fetch", by decide⟩, ⟨ascii "0.2", by decide⟩⟩

/-- The reader is interrupted once, then hands out `abc`. -/
theorem verifyArchiveBytes_arrival_interrupted :
    Reader.contents [.error .interrupted, .chunk 97 [98, 99]] = some (ascii "abc") ∧
    verifyArchiveBytes abcHash abcArchive [.error .interrupted, .chunk 97 [98, 99]] 3 =
      .error (.io .interrupted) ∧
    verifyArchiveBytes abcHash abcArchive (.ofBytes (ascii "abc")) 3 = .ok 3 ∧
    archiveVerdict abcHash abcDigest 3 (ascii "abc") = .ok 3 := by
  have hverdict : archiveVerdict abcHash abcDigest 3 (ascii "abc") = .ok 3 := by decide +kernel
  have hcontents : Reader.contents [.error .interrupted, .chunk 97 [98, 99]] =
      some (ascii "abc") := by decide
  refine ⟨hcontents, ?_, ?_, hverdict⟩
  · exact verifyArchiveBytes_interrupted (by decide) hcontents List.mem_cons_self (by decide)
  · exact (verifyArchiveBytes_eq (by decide) (Reader.contents_ofBytes _)
      (.inl (by decide))).trans hverdict

theorem verifyArchiveBytes_arrival_abc :
    verifyArchiveBytes abcHash abcArchive [.chunk 97 [98], .chunk 99 []] 3 = .ok 3 :=
  ((verifyArchiveBytes_arrival abcHash _ abcDigest _ 3 (ascii "abc") [.chunk 97 [98], .chunk 99 []]
    (by decide)).mpr (.inl (by decide))).2.trans (by decide +kernel)

end Prep.Core
