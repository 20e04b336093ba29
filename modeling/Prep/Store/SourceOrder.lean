/-
  Store/SourceOrder.lean --- the files of source stages and of the source cache at every
  moment, also between two calls of one operation.

  While a blob is published its part and its place in the cache are two names of one file,
  and if the process dies there they remain so.  Otherwise each file has one name, and a
  cached file holds what its name says.
-/
import Prep.Store.SourceCache

set_option autoImplicit false

namespace Prep.Store.Source

open Prep.Core (Sha256Output finishHex)
open Prep.Machine
open Prep.Text

/-! ## Files and their names -/

/-- The part of a cached file and its place in the cache. -/
def Twins (file other : FileName) : Prop :=
  ∃ stage digest, file = cachePartFile stage ∧ other = .cached digest ∨
    file = .cached digest ∧ other = cachePartFile stage

/-- Each file has one name, or it is a cached file that still has its part, and a cached file
holds what its name says. -/
structure World.Orderly (sha256 : Bytes → Sha256Output) (w : World) : Prop where
  old : ∀ file ino, w.find file = some ino → ino < w.nextIno
  names : ∀ file other ino, w.find file = some ino → w.find other = some ino →
    other = file ∨ Twins file other
  alone : ∀ file ino, w.find file = some ino →
    (∀ other, w.find other = some ino → other = file) → (w.inode ino).links = 1
  paired : ∀ stage digest ino, w.find (cachePartFile stage) = some ino →
    w.find (.cached digest) = some ino → (w.inode ino).links = 2
  digest : ∀ digest ino, w.find (.cached digest) = some ino →
    finishHex (sha256 (w.inode ino).contents) = digest

/-- A file that is, or has been, the part of a staged archive. -/
structure World.Plain (w : World) (ino : Nat) : Prop where
  old : ino < w.nextIno
  staged : ∀ file, w.find file = some ino → ∃ stage, file = partFile stage ∨ file = blobFile stage

/-- What every call keeps that the operations make. -/
structure World.Keeps (sha256 : Bytes → Sha256Output) (w w' : World) : Prop where
  orderly : w'.Orderly sha256
  plain : ∀ ino, w.Plain ino → w'.Plain ino

section Orderly

variable {sha256 : Bytes → Sha256Output} {w w' v : World} {file : FileName} {ino : Nat}

theorem cachePart_ne_part (stage stage' : Bytes) : cachePartFile stage ≠ partFile stage' := by
  intro h
  have hname : ascii "cache.part" = ascii "archive.part" := (FileName.staged.inj h).2
  exact absurd hname (by decide)

theorem cached_ne_cachePart (digest stage : Bytes) :
    FileName.cached digest ≠ cachePartFile stage := by
  intro h
  cases h

theorem cached_ne_blob (digest stage : Bytes) : FileName.cached digest ≠ blobFile stage := by
  intro h
  cases h

theorem Twins.symm {other : FileName} (h : Twins file other) : Twins other file := by
  obtain ⟨stage, digest, ⟨rfl, rfl⟩ | ⟨rfl, rfl⟩⟩ := h
  · exact ⟨stage, digest, .inr ⟨rfl, rfl⟩⟩
  · exact ⟨stage, digest, .inl ⟨rfl, rfl⟩⟩

theorem keeps_refl (h : w.Orderly sha256) : w.Keeps sha256 w := ⟨h, fun _ => id⟩

theorem World.Keeps.trans (h : w.Keeps sha256 w') (h' : w'.Keeps sha256 v) : w.Keeps sha256 v :=
  ⟨h'.orderly, fun ino hino => h'.plain ino (h.plain ino hino)⟩

/-- A file that is neither cached nor the part of a cached file has no other name. -/
theorem World.Orderly.only (h : w.Orderly sha256) (hfind : w.find file = some ino)
    (hcached : ∀ digest, file ≠ .cached digest) (hpart : ∀ stage, file ≠ cachePartFile stage)
    (other : FileName) (hother : w.find other = some ino) : other = file := by
  rcases h.names file other ino hfind hother with heq | ⟨stage, digest, ⟨hfile, _⟩ | ⟨hfile, _⟩⟩
  · exact heq
  · exact absurd hfile (hpart stage)
  · exact absurd hfile (hcached digest)

/-- A plain file is not in the cache. -/
theorem World.Plain.not_cached (h : w.Plain ino) (digest : Bytes) :
    w.find (.cached digest) ≠ some ino := by
  intro hcached
  obtain ⟨stage, heq | heq⟩ := h.staged _ hcached
  · exact cached_ne_part digest stage heq
  · exact cached_ne_blob digest stage heq

/-- The same files under the same names, of which the cached ones hold what they held. -/
theorem keeps_of_same (h : w.Orderly sha256) (hfind : ∀ file, w'.find file = w.find file)
    (hlinks : ∀ ino, (w'.inode ino).links = (w.inode ino).links)
    (hcached : ∀ digest ino, w.find (.cached digest) = some ino → w'.inode ino = w.inode ino)
    (hnext : w'.nextIno = w.nextIno) : w.Keeps sha256 w' := by
  refine ⟨⟨?_, ?_, ?_, ?_, ?_⟩, ?_⟩
  · intro file ino hfile
    rw [hnext]
    exact h.old file ino ((hfind file).symm.trans hfile)
  · intro file other ino hfile hother
    exact h.names file other ino ((hfind file).symm.trans hfile) ((hfind other).symm.trans hother)
  · intro file ino hfile honly
    rw [hlinks]
    exact h.alone file ino ((hfind file).symm.trans hfile) fun other hother =>
      honly other ((hfind other).trans hother)
  · intro stage digest ino hpart hplace
    rw [hlinks]
    exact h.paired stage digest ino ((hfind _).symm.trans hpart) ((hfind _).symm.trans hplace)
  · intro digest ino hplace
    have hold := (hfind _).symm.trans hplace
    rw [hcached digest ino hold]
    exact h.digest digest ino hold
  · intro ino hino
    refine ⟨hnext.symm ▸ hino.old, fun file hfile => ?_⟩
    exact hino.staged file ((hfind file).symm.trans hfile)

/-- A new file of a stage. -/
theorem keeps_newFile (h : w.Orderly sha256) {stage name : Bytes}
    (hdir : w.HasDir (.staged stage name)) (hfree : w.find (.staged stage name) = none) :
    w.Keeps sha256 (w.newFile (.staged stage name)) := by
  have hback : ∀ other ino, (w.newFile (.staged stage name)).find other = some ino →
      other = .staged stage name ∧ ino = w.nextIno ∨ w.find other = some ino ∧ ino < w.nextIno := by
    intro other ino hfound
    rw [find_newFile hdir] at hfound
    split at hfound
    · rename_i heq
      exact .inl ⟨heq, (Option.some.inj hfound).symm⟩
    · exact .inr ⟨hfound, h.old other ino hfound⟩
  have hforth : ∀ other ino, w.find other = some ino →
      (w.newFile (.staged stage name)).find other = some ino := by
    intro other ino hfound
    rw [find_newFile hdir, if_neg]
    · exact hfound
    · rintro rfl
      cases hfree.symm.trans hfound
  have hnew : (w.newFile (.staged stage name)).inode w.nextIno = ⟨[], 1⟩ := Function.update_self ..
  have hsame : ∀ ino, ino < w.nextIno →
      (w.newFile (.staged stage name)).inode ino = w.inode ino :=
    fun ino hlt => (Function.update_of_ne (Nat.ne_of_lt hlt) ..).trans (by rw [setName_inode])
  have hnext : (w.newFile (.staged stage name)).nextIno = w.nextIno + 1 := rfl
  generalize w.newFile (.staged stage name) = w' at *
  refine ⟨⟨?_, ?_, ?_, ?_, ?_⟩, ?_⟩
  · intro other ino hfound
    rcases hback other ino hfound with ⟨_, rfl⟩ | ⟨_, hlt⟩ <;> omega
  · intro one other ino hone hother
    rcases hback one ino hone with ⟨rfl, rfl⟩ | ⟨hone, hlt⟩ <;>
      rcases hback other _ hother with ⟨rfl, hino⟩ | ⟨hother, hlt'⟩
    · exact .inl rfl
    · omega
    · omega
    · exact h.names one other ino hone hother
  · intro one ino hone honly
    rcases hback one ino hone with ⟨rfl, rfl⟩ | ⟨hone, hlt⟩
    · rw [hnew]
    · rw [hsame ino hlt]
      exact h.alone one ino hone fun other hother => honly other (hforth other ino hother)
  · intro stage' digest ino hpart hplace
    rcases hback _ ino hplace with ⟨heq, _⟩ | ⟨hplace, hlt⟩
    · cases heq
    · rcases hback _ ino hpart with ⟨_, rfl⟩ | ⟨hpart, _⟩
      · exact absurd hlt (Nat.lt_irrefl _)
      · rw [hsame ino hlt]
        exact h.paired stage' digest ino hpart hplace
  · intro digest ino hplace
    rcases hback _ ino hplace with ⟨heq, _⟩ | ⟨hplace, hlt⟩
    · cases heq
    · rw [hsame ino hlt]
      exact h.digest digest ino hplace
  · intro ino hino
    refine ⟨hnext ▸ Nat.lt_succ_of_lt hino.old, fun other hfound => ?_⟩
    rcases hback other ino hfound with ⟨_, rfl⟩ | ⟨hfound, _⟩
    · exact absurd hino.old (Nat.lt_irrefl _)
    · exact hino.staged other hfound

/-- Files that lose names in stages: a cached file that loses its part has one name left. -/
theorem keeps_of_gone (h : w.Orderly sha256) {gone : FileName → Prop}
    (hcached : ∀ digest, ¬ gone (.cached digest))
    (hfind : ∀ file ino, w'.find file = some ino ↔ ¬ gone file ∧ w.find file = some ino)
    (hcontents : ∀ ino, (w'.inode ino).contents = (w.inode ino).contents)
    (hlinks : ∀ ino, (∀ file, w.find file = some ino → ¬ gone file) →
      (w'.inode ino).links = (w.inode ino).links)
    (htwin : ∀ stage digest ino, gone (cachePartFile stage) →
      w.find (cachePartFile stage) = some ino → w.find (.cached digest) = some ino →
        (w'.inode ino).links = 1)
    (hnext : w'.nextIno = w.nextIno) : w.Keeps sha256 w' := by
  refine ⟨⟨?_, ?_, ?_, ?_, ?_⟩, ?_⟩
  · intro file ino hfile
    rw [hnext]
    exact h.old file ino ((hfind file ino).mp hfile).2
  · intro file other ino hfile hother
    exact h.names file other ino ((hfind file ino).mp hfile).2 ((hfind other ino).mp hother).2
  · intro file ino hfile honly
    obtain ⟨hkept, hold⟩ := (hfind file ino).mp hfile
    by_cases htwins : ∃ other, gone other ∧ w.find other = some ino
    · obtain ⟨other, hgone, hother⟩ := htwins
      rcases h.names file other ino hold hother with rfl | ⟨stage, digest, heqs | ⟨rfl, rfl⟩⟩
      · exact absurd hgone hkept
      · exact absurd (heqs.2 ▸ hgone) (hcached digest)
      · exact htwin stage digest ino hgone hother hold
    · have hnone : ∀ other, w.find other = some ino → ¬ gone other :=
        fun other hother hgone => htwins ⟨other, hgone, hother⟩
      rw [hlinks ino hnone]
      exact h.alone file ino hold fun other hother =>
        honly other ((hfind other ino).mpr ⟨hnone other hother, hother⟩)
  · intro stage digest ino hpart hplace
    obtain ⟨hkept, hold⟩ := (hfind _ ino).mp hpart
    obtain ⟨hkept', hold'⟩ := (hfind _ ino).mp hplace
    have hpaired := h.paired stage digest ino hold hold'
    rw [hlinks]
    · exact hpaired
    · intro other hother hgone
      rcases h.names _ other ino hold hother with rfl | ⟨stage', digest', ⟨_, rfl⟩ | ⟨heq, _⟩⟩
      · exact hkept hgone
      · exact hcached digest' hgone
      · exact cached_ne_cachePart digest' stage heq.symm
  · intro digest ino hplace
    rw [hcontents]
    exact h.digest digest ino ((hfind _ ino).mp hplace).2
  · intro ino hino
    refine ⟨hnext.symm ▸ hino.old, fun file hfile => ?_⟩
    exact hino.staged file ((hfind file ino).mp hfile).2

end Orderly

/-! ## Calls -/

/-- The calls that operations make, in the worlds they make them in. -/
def Call.Allowed (sha256 : Bytes → Sha256Output) (c : Call) (w : World) : Prop :=
  match c with
  | .write ino _ => ∀ digest, w.find (.cached digest) ≠ some ino
  | .createNew file => ∃ stage name, file = .staged stage name
  | .hardLink old new => ∃ stage digest, old = cachePartFile stage ∧ new = .cached digest ∧
      ∀ ino, w.find old = some ino → (∀ other, w.find other = some ino → other = old) ∧
        finishHex (sha256 (w.inode ino).contents) = digest
  | .rename old new => ∃ stage, old = partFile stage ∧ new = blobFile stage ∧ w.find new = none
  | .remove file => ∃ stage name, file = .staged stage name
  | _ => True

section Calls

variable {sha256 : Bytes → Sha256Output} {w w' v : World} {stage digest : Bytes} {ino : Nat}

theorem keeps_leases (h : w.Orderly sha256) (lease : Bytes → Option Bool) (drawn : List Bytes) :
    w.Keeps sha256 { w with lease := lease, drawn := drawn } :=
  keeps_of_same h (fun _ => rfl) (fun _ => rfl) (fun _ _ _ => rfl) rfl

/-- Bytes at the end of a file that is not cached. -/
theorem keeps_write (h : w.Orderly sha256) (bytes : Bytes)
    (hplace : ∀ digest, w.find (.cached digest) ≠ some ino) :
    w.Keeps sha256 (respond (.write ino bytes) w).2 := by
  refine keeps_of_same h (fun _ => setInode_find ..) (fun other => ?_)
    (fun digest other hother => ?_) rfl
  · show (Function.update w.inode ino _ other).links = _
    rw [Function.update_apply]
    split
    · rename_i heq
      rw [heq]
    · rfl
  · refine Function.update_of_ne ?_ ..
    rintro rfl
    exact hplace digest hother

theorem inode_unlink (w : World) (removed : Nat) : (w.unlink removed).inode =
    Function.update w.inode removed ⟨(w.inode removed).contents, (w.inode removed).links - 1⟩ :=
  rfl

theorem contents_unlink (w : World) (removed ino : Nat) :
    ((w.unlink removed).inode ino).contents = (w.inode ino).contents := by
  rw [inode_unlink, Function.update_apply]
  split
  · rename_i heq
    rw [heq]
  · rfl

theorem keeps_remove (h : w.Orderly sha256) (stage name : Bytes) :
    w.Keeps sha256 (respond (.remove (.staged stage name)) w).2 := by
  rw [respond]
  cases hfile : w.find (.staged stage name) with
  | none => exact keeps_refl h
  | some removed =>
      have hdir : (w.unlink removed).HasDir (.staged stage name) :=
        hasDir_of_find ((unlink_find removed).trans hfile)
      have hinode : ((w.unlink removed).setName (.staged stage name) none).inode =
          (w.unlink removed).inode := setName_inode
      refine @keeps_of_gone _ _ _ h (· = .staged stage name) ?_ ?_ ?_ ?_ ?_ rfl
      · exact fun digest => (cached_ne_staged digest stage name).symm
      · intro file ino
        rw [find_setName hdir, unlink_find]
        split
        · rename_i heq
          exact ⟨fun hnone => (by cases hnone), fun hkept => absurd heq hkept.1⟩
        · rename_i hne
          exact ⟨fun hfound => ⟨hne, hfound⟩, And.right⟩
      · intro ino
        rw [hinode, contents_unlink]
      · intro ino hino
        rw [hinode]
        refine congrArg _ (Function.update_of_ne ?_ ..)
        rintro rfl
        exact hino _ hfile rfl
      · rintro stage' digest ino heq hpart hplace
        obtain rfl : removed = ino := Option.some.inj (hfile.symm.trans (heq ▸ hpart))
        rw [hinode, inode_unlink, Function.update_self, h.paired stage' digest removed hpart hplace]

/-! ## Stages that are removed -/

theorem contents_unlinkEntries (entries : Bytes → Option Nat) (names : List Bytes) (w : World) :
    ((w.unlinkEntries entries names).inode ino).contents = (w.inode ino).contents := by
  induction names generalizing w with
  | nil => rfl
  | cons name names ih =>
      rw [World.unlinkEntries]
      cases entries name with
      | none => exact ih w
      | some removed => exact (ih (w.unlink removed)).trans (contents_unlink w removed ino)

/-- A file loses as many names as it had in the stage. -/
theorem links_unlinkEntries (entries : Bytes → Option Nat) (names : List Bytes) (w : World) :
    ((w.unlinkEntries entries names).inode ino).links =
      (w.inode ino).links - names.countP fun name => entries name = some ino := by
  induction names generalizing w with
  | nil => rfl
  | cons name names ih =>
      rw [World.unlinkEntries, List.countP_cons]
      cases hentry : entries name with
      | none =>
          rw [if_neg (by simp), Nat.add_zero]
          exact ih w
      | some removed =>
          dsimp only
          rw [ih, inode_unlink, Function.update_apply]
          by_cases heq : ino = removed
          · subst heq
            rw [if_pos rfl, if_pos (decide_eq_true rfl)]
            dsimp only
            omega
          · rw [if_neg heq, if_neg]
            · rfl
            · intro hremoved
              exact heq (Option.some.inj (of_decide_eq_true hremoved)).symm

theorem keeps_removeStage (h : w.Orderly sha256) (stage : Bytes) :
    w.Keeps sha256 (respond (.removeStage stage) w).2 := by
  rw [respond]
  cases hentries : w.stage stage with
  | none => exact keeps_refl h
  | some entries =>
      have hfind : ∀ name, w.find (.staged stage name) = entries name := fun name => by
        rw [World.find, hentries, Option.bind_some]
      obtain ⟨inode, hworld, hsame⟩ := unlinkEntries_spec entries stageNames w
      have hcontents : ∀ ino, (inode ino).contents = (w.inode ino).contents := fun ino => by
        have hkept := @contents_unlinkEntries ino entries stageNames w
        rw [hworld] at hkept
        exact hkept
      have hlinks : ∀ ino, (inode ino).links =
          (w.inode ino).links - stageNames.countP fun name => entries name = some ino :=
        fun ino => by
          have hless := @links_unlinkEntries ino entries stageNames w
          rw [hworld] at hless
          exact hless
      dsimp only
      rw [hworld]
      refine @keeps_of_gone _ w (w.withoutStage stage inode) h
        (fun file => ∃ name, file = .staged stage name) ?_ ?_ hcontents ?_ ?_ rfl
      · rintro digest ⟨name, heq⟩
        cases heq
      · intro file ino
        rcases @find_withoutStage w stage inode file with ⟨hgone, hnone⟩ | ⟨hkept, heq⟩
        · rw [hnone]
          exact ⟨fun hfound => (by cases hfound), fun hfound => absurd hgone hfound.1⟩
        · rw [heq]
          have hnot : ¬ ∃ name, file = .staged stage name := by
            rintro ⟨name, hname⟩
            exact hkept name hname
          exact ⟨fun hfound => ⟨hnot, hfound⟩, And.right⟩
      · intro ino hino
        exact congrArg Inode.links (hsame ino fun name hname =>
          hino _ ((hfind name).trans hname) ⟨name, rfl⟩)
      · rintro stage' digest ino ⟨name, heq⟩ hpart hplace
        obtain ⟨rfl, rfl⟩ := FileName.staged.inj heq
        -- the part is the one name that the cached file has in the stage
        have hother : ∀ name, name ≠ ascii "cache.part" → entries name ≠ some ino := by
          intro name hname hentry
          rcases h.names _ _ ino hpart ((hfind name).trans hentry) with
            heq | ⟨_, _, ⟨_, heq⟩ | ⟨heq, _⟩⟩
          · exact hname (FileName.staged.inj heq).2
          · cases heq
          · cases heq
        have hcount : stageNames.countP (fun name => entries name = some ino) = 1 := by
          have hblob := hother (ascii "archive.blob") (by decide)
          have hpart' := hother (ascii "archive.part") (by decide)
          have hcache : entries (ascii "cache.part") = some ino := (hfind _).symm.trans hpart
          simp [stageNames, hblob, hpart', hcache]
        have hless := hlinks ino
        rw [hcount, h.paired stage' digest ino hpart hplace] at hless
        exact hless

end Calls

/-! ## Files that get a name -/

section Renames

variable {sha256 : Bytes → Sha256Output} {w w' : World} {stage digest : Bytes} {ino : Nat}

theorem cachePart_not_plain (hpart : w.find (cachePartFile stage) = some ino) : ¬ w.Plain ino := by
  intro hplain
  obtain ⟨stage', heq | heq⟩ := hplain.staged _ hpart
  · exact cachePart_ne_part stage stage' heq
  · exact cachePart_ne_blob stage stage' heq

/-- The part of a cached file gets its place in the cache. -/
theorem keeps_hardLink (h : w.Orderly sha256) (hpart : w.find (cachePartFile stage) = some ino)
    (honly : ∀ other, w.find other = some ino → other = cachePartFile stage)
    (hbytes : finishHex (sha256 (w.inode ino).contents) = digest)
    (hplace : w.find (.cached digest) = none) :
    w.Keeps sha256 ((w.setName (.cached digest) (some ino)).setInode ino
      ⟨(w.inode ino).contents, (w.inode ino).links + 1⟩) := by
  have hdir : w.HasDir (.cached digest) := trivial
  have hlinks := h.alone _ ino hpart honly
  have hfind : ∀ file, ((w.setName (.cached digest) (some ino)).setInode ino
      ⟨(w.inode ino).contents, (w.inode ino).links + 1⟩).find file =
        if file = .cached digest then some ino else w.find file := fun file => by
    rw [setInode_find, find_setName hdir]
  have hinode : ((w.setName (.cached digest) (some ino)).setInode ino
      ⟨(w.inode ino).contents, (w.inode ino).links + 1⟩).inode =
        Function.update w.inode ino ⟨(w.inode ino).contents, 2⟩ := by
    rw [hlinks]
    rfl
  have hnext : ((w.setName (.cached digest) (some ino)).setInode ino
      ⟨(w.inode ino).contents, (w.inode ino).links + 1⟩).nextIno = w.nextIno := rfl
  generalize (w.setName (.cached digest) (some ino)).setInode ino _ = w' at *
  have hnew : w'.inode ino = ⟨(w.inode ino).contents, 2⟩ := by
    rw [hinode, Function.update_self]
  have hsame : ∀ ino', ino' ≠ ino → w'.inode ino' = w.inode ino' := by
    intro ino' hne
    rw [hinode, Function.update_of_ne hne]
  have hcached : w'.find (.cached digest) = some ino := (hfind _).trans (if_pos rfl)
  have hcachePart : w'.find (cachePartFile stage) = some ino :=
    (hfind _).trans ((if_neg (cached_ne_cachePart digest stage).symm).trans hpart)
  -- these are the only names of the file, and the names of other files are as they were
  have htwo : ∀ file, w'.find file = some ino →
      file = .cached digest ∨ file = cachePartFile stage := by
    intro file hfile
    rw [hfind] at hfile
    split at hfile
    · rename_i heq
      exact .inl heq
    · exact .inr (honly file hfile)
  have hother : ∀ file ino', ino' ≠ ino → (w'.find file = some ino' ↔ w.find file = some ino') := by
    intro file ino' hne
    rw [hfind]
    split
    · rename_i heq
      subst heq
      rw [hplace]
      exact ⟨fun heq => absurd (Option.some.inj heq).symm hne, fun hnone => (by cases hnone)⟩
    · exact Iff.rfl
  refine ⟨⟨?_, ?_, ?_, ?_, ?_⟩, ?_⟩
  · intro file ino' hfile
    rw [hnext]
    rcases eq_or_ne ino' ino with rfl | hne
    · exact h.old _ ino' hpart
    · exact h.old file ino' ((hother file ino' hne).mp hfile)
  · intro one other ino' hone hsecond
    rcases eq_or_ne ino' ino with rfl | hne
    · rcases htwo one hone with rfl | rfl <;> rcases htwo other hsecond with rfl | rfl
      · exact .inl rfl
      · exact .inr ⟨stage, digest, .inr ⟨rfl, rfl⟩⟩
      · exact .inr ⟨stage, digest, .inl ⟨rfl, rfl⟩⟩
      · exact .inl rfl
    · exact h.names one other ino' ((hother one ino' hne).mp hone)
        ((hother other ino' hne).mp hsecond)
  · intro one ino' hone halone
    rcases eq_or_ne ino' ino with rfl | hne
    · have heq := (halone _ hcached).trans (halone _ hcachePart).symm
      exact absurd heq (cached_ne_cachePart digest stage)
    · rw [hsame ino' hne]
      exact h.alone one ino' ((hother one ino' hne).mp hone) fun other hsecond =>
        halone other ((hother other ino' hne).mpr hsecond)
  · intro stage' digest' ino' hfirst hsecond
    rcases eq_or_ne ino' ino with rfl | hne
    · rw [hnew]
    · rw [hsame ino' hne]
      exact h.paired stage' digest' ino' ((hother _ ino' hne).mp hfirst)
        ((hother _ ino' hne).mp hsecond)
  · intro digest' ino' hfile
    rcases eq_or_ne ino' ino with rfl | hne
    · rcases htwo _ hfile with heq | heq
      · rw [hnew, FileName.cached.inj heq]
        exact hbytes
      · exact absurd heq (cached_ne_cachePart digest' stage)
    · rw [hsame ino' hne]
      exact h.digest digest' ino' ((hother _ ino' hne).mp hfile)
  · intro ino' hplain
    have hne : ino' ≠ ino := fun heq => cachePart_not_plain hpart (heq ▸ hplain)
    exact ⟨hnext.symm ▸ hplain.old, fun file hfile =>
      hplain.staged file ((hother file ino' hne).mp hfile)⟩

/-- The part of a stage becomes its archive. -/
theorem keeps_moveFile (h : w.Orderly sha256) (hpart : w.find (partFile stage) = some ino)
    (hblob : w.find (blobFile stage) = none) :
    w.Keeps sha256 (w.moveFile ino (partFile stage) (blobFile stage)) := by
  have hstage : (w.stage stage).isSome = true := isSome_stage_of_find hpart
  have hdir : w.HasDir (partFile stage) := hstage
  have hblobDir : w.HasDir (blobFile stage) := hstage
  have hdir' : (w.setName (partFile stage) none).HasDir (blobFile stage) :=
    hasDir_setName.mpr hblobDir
  have hfind : ∀ file, (w.moveFile ino (partFile stage) (blobFile stage)).find file =
      if file = blobFile stage then some ino
      else if file = partFile stage then none else w.find file := by
    intro file
    rw [World.moveFile, find_setName hdir', find_setName hdir]
  have hinode : (w.moveFile ino (partFile stage) (blobFile stage)).inode = w.inode := by
    rw [World.moveFile, setName_inode, setName_inode]
  have hnext : (w.moveFile ino (partFile stage) (blobFile stage)).nextIno = w.nextIno := by
    rw [World.moveFile, setName_nextIno, setName_nextIno]
  generalize w.moveFile ino (partFile stage) (blobFile stage) = w' at *
  have honly : ∀ other, w.find other = some ino → other = partFile stage :=
    h.only hpart (fun digest => (cached_ne_part digest stage).symm)
      fun stage' => (cachePart_ne_part stage' stage).symm
  have hmoved : w'.find (blobFile stage) = some ino := (hfind _).trans (if_pos rfl)
  have hone : ∀ file, w'.find file = some ino → file = blobFile stage := by
    intro file hfile
    rw [hfind] at hfile
    split at hfile
    · assumption
    · split at hfile
      · cases hfile
      · rename_i hne
        exact absurd (honly file hfile) hne
  have hother : ∀ file ino', ino' ≠ ino → (w'.find file = some ino' ↔ w.find file = some ino') := by
    intro file ino' hne
    rw [hfind]
    split
    · rename_i heq
      subst heq
      rw [hblob]
      exact ⟨fun heq => absurd (Option.some.inj heq).symm hne, fun hnone => (by cases hnone)⟩
    · split
      · rename_i heq
        subst heq
        rw [hpart]
        exact ⟨fun hnone => (by cases hnone), fun heq => absurd (Option.some.inj heq).symm hne⟩
      · exact Iff.rfl
  refine ⟨⟨?_, ?_, ?_, ?_, ?_⟩, ?_⟩
  · intro file ino' hfile
    rw [hnext]
    rcases eq_or_ne ino' ino with rfl | hne
    · exact h.old _ ino' hpart
    · exact h.old file ino' ((hother file ino' hne).mp hfile)
  · intro first second ino' hfirst hsecond
    rcases eq_or_ne ino' ino with rfl | hne
    · exact .inl ((hone second hsecond).trans (hone first hfirst).symm)
    · exact h.names first second ino' ((hother first ino' hne).mp hfirst)
        ((hother second ino' hne).mp hsecond)
  · intro file ino' hfile halone
    rw [hinode]
    rcases eq_or_ne ino' ino with rfl | hne
    · exact h.alone _ ino' hpart honly
    · exact h.alone file ino' ((hother file ino' hne).mp hfile) fun other hsecond =>
        halone other ((hother other ino' hne).mpr hsecond)
  · intro stage' digest ino' hfirst hsecond
    rw [hinode]
    have hne : ino' ≠ ino := by
      rintro rfl
      exact cached_ne_blob digest stage (hone _ hsecond)
    exact h.paired stage' digest ino' ((hother _ ino' hne).mp hfirst)
      ((hother _ ino' hne).mp hsecond)
  · intro digest ino' hfile
    rw [hinode]
    have hne : ino' ≠ ino := by
      rintro rfl
      exact cached_ne_blob digest stage (hone _ hfile)
    exact h.digest digest ino' ((hother _ ino' hne).mp hfile)
  · intro ino' hplain
    refine ⟨hnext.symm ▸ hplain.old, fun file hfile => ?_⟩
    rcases eq_or_ne ino' ino with rfl | hne
    · exact ⟨stage, .inr (hone file hfile)⟩
    · exact hplain.staged file ((hother file ino' hne).mp hfile)

theorem keeps_reads (h : w.Orderly sha256) {c : Call} (hc : c.Reads) :
    w.Keeps sha256 (respond c w).2 := (respond_reads hc w).symm ▸ keeps_refl h

/-- Every call that operations make keeps the files in order. -/
theorem keeps_respond (h : w.Orderly sha256) {c : Call} (hc : c.Allowed sha256 w) :
    w.Keeps sha256 (respond c w).2 := by
  cases c with
  | createStage stage =>
      rw [respond]
      cases hstage : w.stage stage with
      | some entries => exact keeps_refl h
      | none =>
          exact keeps_of_same h (find_createStage hstage) (fun _ => rfl) (fun _ _ _ => rfl) rfl
  | removeStage stage => exact keeps_removeStage h stage
  | createLease stage | tryLockLease stage | removeLease stage =>
      rw [respond]
      split
      all_goals first | exact keeps_refl h | exact keeps_leases h _ w.drawn
  | lockLease stage => exact keeps_leases h _ w.drawn
  | createNew file =>
      obtain ⟨stage, name, rfl⟩ := hc
      rw [respond]
      split
      · rename_i hdir
        split
        · exact keeps_refl h
        · rename_i hfree
          exact keeps_newFile h hdir hfree
      · exact keeps_refl h
  | write ino bytes => exact keeps_write h bytes hc
  | hardLink old new =>
      obtain ⟨stage, digest, rfl, rfl, hpart⟩ := hc
      rw [respond]
      split
      · exact keeps_refl h
      · rename_i ino hfound
        obtain ⟨honly, hbytes⟩ := hpart ino hfound
        split
        · exact keeps_refl h
        · rename_i hplace
          have hdir : w.HasDir (.cached digest) := trivial
          rw [if_pos hdir]
          exact keeps_hardLink h hfound honly hbytes hplace
  | rename old new =>
      obtain ⟨stage, rfl, rfl, hblob⟩ := hc
      rw [respond]
      split
      · exact keeps_refl h
      · rename_i ino hfound
        split
        · rw [hblob]
          exact keeps_moveFile h hfound hblob
        · exact keeps_refl h
  | remove file =>
      obtain ⟨stage, name, rfl⟩ := hc
      exact keeps_remove h stage name
  | statStage | canonicalizeStage | readStages | statLease | readLeases | stat | statHandle
  | «open» | sync | readAt =>
      exact keeps_reads h trivial

end Renames

end Prep.Store.Source
