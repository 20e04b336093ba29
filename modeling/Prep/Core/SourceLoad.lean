/-
  Core/SourceLoad.lean --- `prep-core/src/source_load.rs`: an archive is loaded from a
  source stage or from the source cache, and verified against its lock either way.

  What a caching has read from a stage is what the stage holds as long as it is there,
  and what it leaves in the cache stays there.  So loading from the cache is loading
  from the stage.

  Scope: a load sees the store as it is at one moment; what happens between two moments is a
  history of `Store/SourceStages.lean`.  A death in the middle of an operation is left to
  `Store/SourceCrash.lean`.  SHA-256 is a parameter, and another file with the digest of the
  archive is the one exception.
-/
import Prep.Core.SourceExtract
import Prep.Core.ArchiveBytes
import Prep.Core.UstarSnapshot
import Prep.Store.SourceCache

set_option autoImplicit false

namespace Prep.Core

open Prep.Io
open Prep.Manifest
open Prep.Store (Agent StoreError)
open Prep.Store.Source
open Prep.Text

/-- `SourceLoadError`. -/
inductive SourceLoadError where
  | store (error : StoreError)
  | verification (error : SourceVerificationError)
  | extraction (error : SourceExtractionError)

/-- `load_staged_ustar`, with the file as it is when it is opened. -/
def loadStagedUstar (sha256 : Bytes → Sha256Output) (w : Prep.Store.Source.World) (stage : Bytes)
    (lock : LockedSource) (limits : ArchiveLimits) (maximum : UInt64) :
    Except SourceLoadError VerifiedUstarSnapshot :=
  match (run (openUnverifiedArchive stage) w).1 with
  | .error e => .error (.store e)
  | .ok ino =>
      (readVerifiedUstarSnapshot sha256 lock (.ofBytes (w.inode ino).contents) limits
        maximum).mapError .verification

/-- `load_cached_ustar`. -/
def loadCachedUstar (sha256 : Bytes → Sha256Output) (w : Prep.Store.Source.World)
    (lock : LockedSource) (limits : ArchiveLimits) (maximum : UInt64) :
    Except SourceLoadError (Option VerifiedUstarSnapshot) :=
  match lock with
  | .git _ _ _ _ => .error (.verification .wrongKind)
  | .path _ => .error (.verification .nonImmutable)
  | .archive _ digest _ =>
      match (run (readCachedSourceBlob sha256 digest.asStr maximum) w).1 with
      | .error e => .error (.store e)
      | .ok none => .ok none
      | .ok (some bytes) =>
          ((readVerifiedUstarSnapshot sha256 lock (.ofBytes bytes) limits maximum).mapError
            .verification).map some

section Load

variable {sha256 : Bytes → Sha256Output} {w : Prep.Store.Source.World}

theorem canonicalSourceSha256_asStr (digest : Sha256Digest) :
    canonicalSourceSha256 digest.asStr = .ok digest.asStr := by
  obtain ⟨hhex, hlower⟩ := (all_isLowerHexdigit_iff digest.asStr).mp digest.hexdigits
  rw [canonicalSourceSha256, if_neg, hlower]
  rintro (hlength | hfalse)
  · exact hlength digest.length
  · rw [hhex] at hfalse
    cases hfalse

/-- A staged archive is loaded from what the stage holds. -/
theorem loadStagedUstar_eq (h : w.Tidy sha256) {stage bytes : Bytes} (lock : LockedSource)
    (limits : ArchiveLimits) (maximum : UInt64)
    (hbytes : w.contents (blobFile stage) = some bytes) :
    loadStagedUstar sha256 w stage lock limits maximum =
      (readVerifiedUstarSnapshot sha256 lock (.ofBytes bytes) limits maximum).mapError
        .verification := by
  obtain ⟨ino, hblob, rfl⟩ := Option.map_eq_some_iff.mp hbytes
  have hopen : run (openUnverifiedArchive stage) w = (.ok ino, w) :=
    run_openUnverifiedArchive hblob (h.named _ ino hblob).2
  rw [loadStagedUstar, hopen]

/-- A good entry of the cache is loaded from what it holds. -/
theorem loadCachedUstar_eq (h : w.Tidy sha256) {digest : Sha256Digest} {ino : Nat}
    (hcached : w.cache digest.asStr = some ino) {maximum : UInt64}
    (hmaximum : maximum.toNat ≤ maxCacheArchiveBytes)
    (hlength : (w.inode ino).contents.length ≤ maximum.toNat) (url : SourceUrl)
    (provider : ProviderIdentity) (limits : ArchiveLimits) :
    loadCachedUstar sha256 w (.archive url digest provider) limits maximum =
      ((readVerifiedUstarSnapshot sha256 (.archive url digest provider)
        (.ofBytes (w.inode ino).contents) limits maximum).mapError .verification).map some := by
  have hlinks := (h.named (.cached digest.asStr) ino hcached).2
  have hread : run (readCachedSourceBlob sha256 digest.asStr maximum) w =
      (.ok (some (w.inode ino).contents), w) := by
    rw [readCachedSourceBlob, canonicalSourceSha256_asStr, run_bind_ok (run_given _)]
    exact run_readCachedSourceBlobLocked_some hcached hlinks (h.digest _ ino hcached) hmaximum
      hlength
  rw [loadCachedUstar, hread]

end Load

/-! ## Offline loading -/

/-- Whenever a caching of an archive from a stage has succeeded, loading it from the cache has
from then on the outcome that loading it from the stage has, if no other file in the store has
the digest of the archive.  A cached file is never replaced.  What is read from the cache has
the digest and the length that were asked for, whatever is in the files of the cache. -/
theorem offline_load_eq_staged_load (sha256 : Bytes → Sha256Output) :
    (∀ (before during after : List Step) (early s s' last : State) (agent : Agent) (amount : Nat)
        (stage : Bytes) (url : SourceUrl) (digest : Sha256Digest) (provider : ProviderIdentity)
        (limits : ArchiveLimits) (maximum : UInt64),
      history sha256 State.initial before = some early →
      history sha256 early during = some s →
      step sha256 s (.move agent amount) = some s' →
      s'.returned = s.returned ++ [.cached stage digest.asStr maximum (.ok ())] →
      history sha256 s' after = some last →
      (∃ bytes, s.world.contents (blobFile stage) = some bytes) ∧
      ∀ bytes, early.world.contents (blobFile stage) = some bytes →
        loadStagedUstar sha256 early.world stage (.archive url digest provider) limits maximum =
          (readVerifiedUstarSnapshot sha256 (.archive url digest provider) (.ofBytes bytes) limits
            maximum).mapError .verification ∧
        ((∀ ino < last.world.nextIno, sha256 (last.world.inode ino).contents = sha256 bytes →
            (last.world.inode ino).contents = bytes) →
          loadCachedUstar sha256 last.world (.archive url digest provider) limits maximum =
            (loadStagedUstar sha256 early.world stage (.archive url digest provider) limits
              maximum).map some)) ∧
    (∀ (before after : List Step) (s last : State) (digest : Bytes) (ino : Nat),
      history sha256 State.initial before = some s →
      history sha256 s after = some last →
      s.world.cache digest = some ino →
      last.world.cache digest = some ino ∧ last.world.inode ino = s.world.inode ino) ∧
    ∀ (w w' : Prep.Store.Source.World) (expected bytes : Bytes) (maximum : UInt64),
      run (readCachedSourceBlob sha256 expected maximum) w = (.ok (some bytes), w') →
      finishHex (sha256 bytes) = toAsciiLowercase expected ∧ bytes.length ≤ maximum.toNat := by
  refine ⟨?_, ?_, ?_⟩
  · intro before during after early s s' last agent amount stage url digest provider limits
      maximum hbefore hduring hmove hreturned hafter
    obtain ⟨hearly, _⟩ := sound_history sound_initial hbefore
    obtain ⟨hsound, hlater⟩ := sound_history hearly hduring
    obtain ⟨hsound', _⟩ := sound_step hsound hmove
    obtain ⟨hlast, hlater'⟩ := sound_history hsound' hafter
    obtain ⟨hex, staged, ino, hcanonical, hmaximum, hhex, hstaged, hcached, hlength⟩ :=
      move_cached hsound hmove hreturned
    obtain rfl : digest.asStr = hex :=
      Except.ok.inj ((canonicalSourceSha256_asStr digest).symm.trans hcanonical)
    refine ⟨⟨staged, hstaged⟩, fun bytes hbytes => ?_⟩
    have hload := loadStagedUstar_eq hearly.tidy (.archive url digest provider) limits maximum
      hbytes
    refine ⟨hload, fun hcollision => ?_⟩
    -- the stage held the same bytes when they were cached
    obtain rfl : staged = bytes := by
      obtain ⟨blob, hblob, rfl⟩ := Option.map_eq_some_iff.mp hbytes
      obtain ⟨later, hlaterBlob, rfl⟩ := Option.map_eq_some_iff.mp hstaged
      obtain ⟨hkept, hsame⟩ := hlater.blob stage blob (isSome_stage_of_find hlaterBlob) hblob
      obtain rfl : blob = later := Option.some.inj (hkept.symm.trans hlaterBlob)
      rw [hsame]
    -- the cached file is still there, with the digest of those bytes
    obtain ⟨hkept, hsame⟩ := hlater'.cached digest.asStr ino hcached
    have hdigest := hlast.tidy.digest digest.asStr ino hkept
    have hino := (hlast.tidy.named (.cached digest.asStr) ino hkept).1
    have hcontents := hcollision ino hino (finishHex_injective (hdigest.trans hhex.symm))
    rw [← hsame] at hlength
    rw [hload, loadCachedUstar_eq hlast.tidy hkept hmaximum hlength url provider limits, hcontents]
  · intro before after s last digest ino hbefore hafter hcached
    obtain ⟨hsound, _⟩ := sound_history sound_initial hbefore
    exact (sound_history hsound hafter).2.cached digest ino hcached
  · intro w w' expected bytes maximum hread
    rw [readCachedSourceBlob] at hread
    obtain ⟨digest, v, hcanonical, hlocked⟩ := run_bind_eq_ok hread
    obtain ⟨ino, _, _, hdigest, hlength, _⟩ := run_readCachedSourceBlobLocked_eq_ok_some hlocked
    refine ⟨hdigest.trans ?_, hlength⟩
    have hcanonical : canonicalSourceSha256 expected = .ok digest :=
      (Prod.mk.inj hcanonical).1
    rw [canonicalSourceSha256] at hcanonical
    split at hcanonical
    · cases hcanonical
    · exact (Except.ok.inj hcanonical).symm

/-- A hash that returns zeros. -/
def zeroHash : Bytes → Sha256Output := fun _ => zeroDigest

/-- The sample members are spooled to a stage. -/
def samplePacking : List Prep.Store.Source.Step :=
  [.spool 0 (ascii "txn-1") (.ofBytes (encodeArchive sampleMembers)) 4096, .move 0 0, .move 0 0,
    .move 0 0, .move 0 0]

/-- The stage is cached, up to the last move. -/
def sampleCachingPacked : List Prep.Store.Source.Step :=
  [.cache 0 (ascii "txn-1") sampleDigest.asStr 4096, .move 0 4096, .move 0 0]

theorem samplePackingBegun_isSome :
    (history zeroHash State.initial [.begin [ascii "txn-1"]]).isSome = true := by
  decide +kernel

/-- The stage has been begun. -/
def samplePackingBegun : State :=
  (history zeroHash State.initial [.begin [ascii "txn-1"]]).get samplePackingBegun_isSome

theorem samplePacking_isSome :
    (history zeroHash samplePackingBegun samplePacking).isSome = true := by
  decide +kernel

/-- The members have been spooled. -/
def samplePackingSpooled : State :=
  (history zeroHash samplePackingBegun samplePacking).get samplePacking_isSome

theorem sampleCachingPacked_isSome :
    (history zeroHash samplePackingSpooled sampleCachingPacked).isSome = true := by
  decide +kernel

/-- The archive has been read for the cache. -/
def samplePackingRead : State :=
  (history zeroHash samplePackingSpooled sampleCachingPacked).get sampleCachingPacked_isSome

theorem samplePackingPublish_isSome :
    (step zeroHash samplePackingRead (.move 0 0)).isSome = true := by
  decide +kernel

/-- The archive is in the cache. -/
def samplePackingCached : State :=
  (step zeroHash samplePackingRead (.move 0 0)).get samplePackingPublish_isSome

theorem samplePackingDrop_isSome :
    (history zeroHash samplePackingCached [.drop (ascii "txn-1")]).isSome = true := by
  decide +kernel

/-- The stage has been dropped. -/
def samplePackingDropped : State :=
  (history zeroHash samplePackingCached [.drop (ascii "txn-1")]).get samplePackingDrop_isSome

/-- A step and the history after it are one history. -/
theorem history_cons {sha256 : Bytes → Sha256Output} {s mid last : State} {first : Step}
    {rest : List Step} (hfirst : history sha256 s [first] = some mid)
    (hrest : history sha256 mid rest = some last) :
    history sha256 s (first :: rest) = some last := by
  obtain ⟨next, hstep, hnext⟩ := Option.bind_eq_some_iff.mp hfirst
  cases hnext
  exact Option.bind_eq_some_iff.mpr ⟨mid, hstep, hrest⟩

/-- The packed members are loaded from their stage, and again from the cache when the stage is
gone. -/
theorem offline_load_eq_staged_load_sample :
    samplePackingDropped.world.stage (ascii "txn-1") = none ∧
    ∃ snapshot,
      loadStagedUstar zeroHash samplePackingSpooled.world (ascii "txn-1")
        (.archive sampleUrl sampleDigest sampleProvider) sampleLimits 4096 = .ok snapshot ∧
      loadCachedUstar zeroHash samplePackingDropped.world
        (.archive sampleUrl sampleDigest sampleProvider) sampleLimits 4096 =
          .ok (some snapshot) ∧
      snapshot.entries = sampleMembers.map (·.entry) := by
  have hlength : (encodeArchive sampleMembers).length ≤ (4096 : UInt64).toNat := by
    rw [length_sample]
    decide
  obtain ⟨snapshot, hread, _, hentries⟩ := exists_readFrom_encodeArchive zeroHash
    sampleMembers_admitted hlength (by decide) (Reader.contents_ofBytes _) sampleUrl
    (show sampleDigest.asStr = finishHex zeroDigest from rfl) sampleProvider
  obtain ⟨hstaged, hcached⟩ := ((offline_load_eq_staged_load zeroHash).1
    (.begin [ascii "txn-1"] :: samplePacking) sampleCachingPacked [.drop (ascii "txn-1")]
    samplePackingSpooled samplePackingRead samplePackingCached samplePackingDropped 0 0
    (ascii "txn-1") sampleUrl sampleDigest sampleProvider sampleLimits 4096
    (history_cons (Option.some_get samplePackingBegun_isSome).symm
      (Option.some_get samplePacking_isSome).symm)
    (Option.some_get sampleCachingPacked_isSome).symm
    (Option.some_get samplePackingPublish_isSome).symm (by decide +kernel)
    (Option.some_get samplePackingDrop_isSome).symm).2 (encodeArchive sampleMembers)
    (by decide +kernel)
  have hload := hcached (by decide +kernel)
  rw [hstaged, readVerifiedUstarSnapshot_eq_ok_iff.mpr hread] at hload
  rw [readVerifiedUstarSnapshot_eq_ok_iff.mpr hread] at hstaged
  refine ⟨?_, snapshot, hstaged, hload, hentries⟩
  rw [← Option.isNone_iff_eq_none]
  decide +kernel

end Prep.Core
