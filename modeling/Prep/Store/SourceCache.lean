/-
  Store/SourceCache.lean --- what holds of source stages and of the source cache in every
  history.

  Each file has one name, and a cached file holds what its name says.  No step of anybody
  touches a staged archive or a cached file, and the part of an archive is touched by the
  one spool that fills it.  So what was read from a staged archive without the lock is
  still there when it is published, and stays in the cache for good.
-/
import Prep.Store.SourceSteps

set_option autoImplicit false

namespace Prep.Store.Source

open Prep.Core (Sha256Output finishHex)
open Prep.Fs (Path)
open Prep.Io (IoError Reader)
open Prep.Machine
open Prep.Text

/-! ## The files between two steps -/

/-- The files when nobody holds the store lock. -/
structure World.Tidy (sha256 : Bytes → Sha256Output) (w : World) : Prop where
  named : ∀ file ino, w.find file = some ino → ino < w.nextIno ∧ (w.inode ino).links = 1
  single : ∀ file other ino, w.find file = some ino → w.find other = some ino → file = other
  digest : ∀ digest ino, w.cache digest = some ino →
    finishHex (sha256 (w.inode ino).contents) = digest
  entry : ∀ stage name ino, w.find (.staged stage name) = some ino →
    name = ascii "archive.blob" ∨ name = ascii "archive.part"
  drawn : ∀ stage, (w.stage stage).isSome = true → stage ∈ w.drawn

/-- What every step leaves alone: no stage returns, and neither a staged archive nor a
cached file is ever another one. -/
structure World.Later (w w' : World) : Prop where
  drawn : ∀ stage ∈ w.drawn, stage ∈ w'.drawn
  stage : ∀ stage ∈ w.drawn, (w'.stage stage).isSome = true → (w.stage stage).isSome = true
  blob : ∀ stage ino, (w'.stage stage).isSome = true → w.find (blobFile stage) = some ino →
    w'.find (blobFile stage) = some ino ∧ w'.inode ino = w.inode ino
  cached : ∀ digest ino, w.cache digest = some ino →
    w'.cache digest = some ino ∧ w'.inode ino = w.inode ino

/-- What a step leaves alone that may touch the parts of the stages in `own`. -/
structure World.Spares (w w' : World) (own : Bytes → Prop) : Prop extends World.Later w w' where
  nextIno : w.nextIno ≤ w'.nextIno
  part : ∀ stage ino, ¬ own stage → (w'.stage stage).isSome = true →
    w.find (partFile stage) = some ino → w'.find (partFile stage) = some ino
  found : ∀ file ino, ino < w.nextIno → w'.find file = some ino → w.find file = some ino ∨
    ∃ stage, own stage ∧ file = blobFile stage ∧ w.find (partFile stage) = some ino

/-- No part is touched. -/
def noPart (_ : Bytes) : Prop := False

section Files

variable {sha256 : Bytes → Sha256Output} {w w' v : World} {own : Bytes → Prop}

theorem World.Later.refl (w : World) : w.Later w :=
  ⟨fun _ => id, fun _ _ => id, fun _ _ _ h => ⟨h, rfl⟩, fun _ _ h => ⟨h, rfl⟩⟩

theorem blob_ne_part (stage stage' : Bytes) : blobFile stage ≠ partFile stage' := by
  intro h
  have hname : ascii "archive.blob" = ascii "archive.part" := (FileName.staged.inj h).2
  exact absurd hname (by decide)

theorem cached_ne_part (digest stage : Bytes) : FileName.cached digest ≠ partFile stage := by
  intro h
  cases h

theorem cached_ne_staged (digest stage name : Bytes) :
    FileName.staged stage name ≠ .cached digest := by
  intro h
  cases h

theorem cachePart_ne_blob (stage stage' : Bytes) : cachePartFile stage ≠ blobFile stage' := by
  intro h
  have hname : ascii "cache.part" = ascii "archive.blob" := (FileName.staged.inj h).2
  exact absurd hname (by decide)

theorem partFile_inj {stage stage' : Bytes} (h : partFile stage = partFile stage') :
    stage = stage' := (FileName.staged.inj h).1

theorem isSome_stage_of_find {stage name : Bytes} {ino : Nat}
    (h : w.find (.staged stage name) = some ino) : (w.stage stage).isSome = true :=
  hasDir_of_find h

theorem World.Later.trans (h : w.Later w') (h' : w'.Later v) (htidy : w.Tidy sha256) :
    w.Later v := by
  have hmid : ∀ stage ∈ w.drawn, (v.stage stage).isSome = true →
      (w'.stage stage).isSome = true :=
    fun stage hdrawn => h'.stage stage (h.drawn stage hdrawn)
  refine ⟨fun stage hdrawn => h'.drawn stage (h.drawn stage hdrawn), ?_, ?_, ?_⟩
  · exact fun stage hdrawn hlast => h.stage stage hdrawn (hmid stage hdrawn hlast)
  · intro stage ino hlast hblob
    have hdrawn := htidy.drawn stage (isSome_stage_of_find hblob)
    obtain ⟨hmidBlob, hsame⟩ := h.blob stage ino (hmid stage hdrawn hlast) hblob
    obtain ⟨hlastBlob, hsame'⟩ := h'.blob stage ino hlast hmidBlob
    exact ⟨hlastBlob, hsame'.trans hsame⟩
  · intro digest ino hcached
    obtain ⟨hmidCached, hsame⟩ := h.cached digest ino hcached
    obtain ⟨hlastCached, hsame'⟩ := h'.cached digest ino hmidCached
    exact ⟨hlastCached, hsame'.trans hsame⟩

theorem World.Tidy.cachePart (h : w.Tidy sha256) (stage : Bytes) :
    w.find (cachePartFile stage) = none := by
  cases hfind : w.find (cachePartFile stage) with
  | none => rfl
  | some ino =>
      rcases h.entry _ _ _ hfind with hname | hname
      · exact absurd hname (by decide)
      · exact absurd hname (by decide)

theorem World.Spares.refl (w : World) : w.Spares w noPart :=
  ⟨World.Later.refl w, Nat.le_refl _, fun _ _ _ _ => id, fun _ _ _ => .inl⟩

theorem World.Spares.trans (h : w.Spares w' noPart) (h' : w'.Spares v noPart)
    (htidy : w.Tidy sha256) : w.Spares v noPart where
  toLater := h.toLater.trans h'.toLater htidy
  nextIno := Nat.le_trans h.nextIno h'.nextIno
  part stage ino hown hlast hpart := by
    have hdrawn := htidy.drawn stage (isSome_stage_of_find hpart)
    have hmid := h'.stage stage (h.drawn stage hdrawn) hlast
    exact h'.part stage ino hown hlast (h.part stage ino hown hmid hpart)
  found file ino hold hfound := by
    rcases h'.found file ino (Nat.lt_of_lt_of_le hold h.nextIno) hfound with hmid | ⟨_, hno, _⟩
    · exact h.found file ino hold hmid
    · exact hno.elim

end Files

/-! ## Changes of the files -/

/-- A step that keeps the files in order. -/
structure World.Moves (sha256 : Bytes → Sha256Output) (own : Bytes → Prop) (w w' : World) :
    Prop where
  tidy : w'.Tidy sha256
  spares : w.Spares w' own

section Changes

variable {sha256 : Bytes → Sha256Output} {w : World} {stage : Bytes}

theorem moves_refl (h : w.Tidy sha256) : w.Moves sha256 noPart w := ⟨h, World.Spares.refl w⟩

theorem World.Moves.trans {w' v : World} (h : w.Moves sha256 noPart w')
    (h' : w'.Moves sha256 noPart v) (htidy : w.Tidy sha256) : w.Moves sha256 noPart v :=
  ⟨h'.tidy, h.spares.trans h'.spares htidy⟩

/-- Leases are no files, and more names may have been drawn. -/
theorem moves_leases (h : w.Tidy sha256) (lease : Bytes → Option Bool) {drawn : List Bytes}
    (hdrawn : ∀ stage ∈ w.drawn, stage ∈ drawn) :
    w.Moves sha256 noPart { w with lease := lease, drawn := drawn } where
  tidy := {
    named := h.named
    single := h.single
    digest := h.digest
    entry := h.entry
    drawn stage hstage := hdrawn stage (h.drawn stage hstage) }
  spares := {
    drawn := hdrawn
    stage _ _ hlater := hlater
    blob _ _ _ hblob := ⟨hblob, rfl⟩
    cached _ _ hcached := ⟨hcached, rfl⟩
    nextIno := Nat.le_refl _
    part _ _ _ _ hpart := hpart
    found _ _ _ hfound := .inl hfound }

theorem find_createStage (hstage : w.stage stage = none) (file : FileName) :
    World.find { w with stage := Function.update w.stage stage (some fun _ => none) } file =
      w.find file := by
  cases file with
  | cached digest => rfl
  | staged stage' name =>
      simp only [World.find, Function.update_apply]
      by_cases h : stage' = stage
      · rw [if_pos h, h, hstage]
        rfl
      · rw [if_neg h]

/-- A new stage has no files, and its name was not that of an earlier stage. -/
theorem moves_createStage (h : w.Tidy sha256) (lease : Bytes → Option Bool) (names : List Bytes)
    (hname : stage ∈ names) (hfresh : stage ∉ w.drawn) :
    w.Moves sha256 noPart
      { w with
        stage := Function.update w.stage stage (some fun _ => none)
        lease := lease
        drawn := w.drawn ++ names } := by
  have hstage : w.stage stage = none :=
    Option.not_isSome_iff_eq_none.mp fun hsome => hfresh (h.drawn stage hsome)
  have hfind := find_createStage hstage
  refine ⟨⟨?_, ?_, h.digest, ?_, ?_⟩, ⟨⟨?_, ?_, ?_, ?_⟩, Nat.le_refl _, ?_, ?_⟩⟩
  · exact fun file ino hfile => h.named file ino ((hfind file).symm.trans hfile)
  · exact fun file other ino hfile hother =>
      h.single file other ino ((hfind file).symm.trans hfile) ((hfind other).symm.trans hother)
  · exact fun stage' name ino hfile => h.entry stage' name ino ((hfind _).symm.trans hfile)
  · intro stage' hsome
    simp only [Function.update_apply] at hsome
    split at hsome
    · rename_i heq
      exact List.mem_append_right _ (heq ▸ hname)
    · exact List.mem_append_left _ (h.drawn stage' hsome)
  · exact fun stage' hdrawn => List.mem_append_left _ hdrawn
  · intro stage' hdrawn hsome
    simp only [Function.update_apply] at hsome
    split at hsome
    · rename_i heq
      exact absurd (heq ▸ hdrawn) hfresh
    · exact hsome
  · exact fun stage' ino _ hblob => ⟨(hfind _).trans hblob, rfl⟩
  · exact fun digest ino hcached => ⟨hcached, rfl⟩
  · exact fun stage' ino _ _ hpart => (hfind _).trans hpart
  · exact fun file ino _ hfound => .inl ((hfind file).symm.trans hfound)

/-- Removing the names of a stage changes only the files that have them. -/
theorem unlinkEntries_spec (entries : Bytes → Option Nat) (names : List Bytes) (w : World) :
    ∃ inode, w.unlinkEntries entries names = { w with inode := inode } ∧
      ∀ ino, (∀ name, entries name ≠ some ino) → inode ino = w.inode ino := by
  induction names generalizing w with
  | nil => exact ⟨w.inode, rfl, fun _ _ => rfl⟩
  | cons name names ih =>
      rw [World.unlinkEntries]
      cases hentry : entries name with
      | none => exact ih w
      | some removed =>
          obtain ⟨inode, hworld, hsame⟩ := ih (w.unlink removed)
          refine ⟨inode, hworld, fun ino hino => (hsame ino hino).trans ?_⟩
          have hne : ino ≠ removed := fun heq => hino name (heq ▸ hentry)
          exact Function.update_of_ne hne _ _

/-- The world without a stage. -/
def World.withoutStage (w : World) (stage : Bytes) (inode : Nat → Inode) : World :=
  { w with
    inode := inode
    stage := Function.update w.stage stage none }

theorem stage_withoutStage {inode : Nat → Inode} {other : Bytes}
    (hsome : ((w.withoutStage stage inode).stage other).isSome = true) :
    other ≠ stage ∧ (w.stage other).isSome = true := by
  simp only [World.withoutStage, Function.update_apply] at hsome
  split at hsome
  · cases hsome
  · rename_i hne
    exact ⟨hne, hsome⟩

theorem find_withoutStage (inode : Nat → Inode) (file : FileName) :
    (∃ name, file = .staged stage name) ∧ (w.withoutStage stage inode).find file = none ∨
    (∀ name, file ≠ .staged stage name) ∧ (w.withoutStage stage inode).find file = w.find file := by
  cases file with
  | cached digest => exact .inr ⟨nofun, rfl⟩
  | staged other name =>
      simp only [World.withoutStage, World.find, Function.update_apply]
      by_cases heq : other = stage
      · rw [if_pos heq]
        exact .inl ⟨⟨name, heq ▸ rfl⟩, rfl⟩
      · rw [if_neg heq]
        exact .inr ⟨fun _ hname => heq (FileName.staged.inj hname).1, rfl⟩

/-- A stage that is removed takes its files with it. -/
theorem moves_withoutStage (h : w.Tidy sha256) {inode : Nat → Inode}
    (hsame : ∀ ino, (∀ name, w.find (.staged stage name) ≠ some ino) → inode ino = w.inode ino) :
    w.Moves sha256 noPart (w.withoutStage stage inode) := by
  -- a file of another name is not one of the stage, and so it is unchanged
  have hother : ∀ file ino, (∀ name, file ≠ .staged stage name) → w.find file = some ino →
      inode ino = w.inode ino := fun file ino hfile hfound =>
    hsame ino fun name hname => hfile name (h.single _ _ _ hfound hname)
  have hback : ∀ file ino, (w.withoutStage stage inode).find file = some ino →
      w.find file = some ino ∧ inode ino = w.inode ino := by
    intro file ino hfile
    rcases find_withoutStage inode file with ⟨_, hnone⟩ | ⟨hne, heq⟩
    · rw [hnone] at hfile
      cases hfile
    · rw [heq] at hfile
      exact ⟨hfile, hother file ino hne hfile⟩
  have hforth : ∀ other name ino,
      ((w.withoutStage stage inode).stage other).isSome = true →
        w.find (.staged other name) = some ino →
          (w.withoutStage stage inode).find (.staged other name) = some ino := by
    intro other name ino hsome hfile
    rcases find_withoutStage inode (.staged other name) with ⟨⟨_, heq⟩, _⟩ | ⟨_, heq⟩
    · exact absurd (FileName.staged.inj heq).1 (stage_withoutStage hsome).1
    · rw [heq]
      exact hfile
  refine ⟨⟨?_, ?_, ?_, ?_, ?_⟩, ⟨⟨fun _ => id, ?_, ?_, ?_⟩, Nat.le_refl _, ?_, ?_⟩⟩
  · intro file ino hfile
    obtain ⟨hfound, hinode⟩ := hback file ino hfile
    obtain ⟨hlt, hlinks⟩ := h.named file ino hfound
    exact ⟨hlt, (congrArg Inode.links hinode).trans hlinks⟩
  · intro file other ino hfile hother
    exact h.single file other ino (hback file ino hfile).1 (hback other ino hother).1
  · intro digest ino hcached
    have hinode := hother (.cached digest) ino nofun hcached
    exact (congrArg (fun i : Inode => finishHex (sha256 i.contents)) hinode).trans
      (h.digest digest ino hcached)
  · exact fun other name ino hfile => h.entry other name ino (hback _ ino hfile).1
  · exact fun other hsome => h.drawn other (stage_withoutStage hsome).2
  · exact fun other _ hsome => (stage_withoutStage hsome).2
  · intro other ino hsome hblob
    have hkept := hforth other _ ino hsome hblob
    exact ⟨hkept, (hback _ ino hkept).2⟩
  · exact fun digest ino hcached => ⟨hcached, hother (.cached digest) ino nofun hcached⟩
  · exact fun other ino _ hsome hpart => hforth other _ ino hsome hpart
  · exact fun file ino _ hfile => .inl (hback file ino hfile).1

theorem moves_removeStage (h : w.Tidy sha256) (stage : Bytes) :
    w.Moves sha256 noPart (respond (.removeStage stage) w).2 := by
  rw [respond]
  cases hentries : w.stage stage with
  | none => exact moves_refl h
  | some entries =>
      obtain ⟨inode, hworld, hsame⟩ := unlinkEntries_spec entries stageNames w
      dsimp only
      rw [hworld]
      refine moves_withoutStage h fun ino hino => hsame ino fun name hname => hino name ?_
      rw [World.find, hentries, Option.bind_some, hname]

/-- A new file with a new name. -/
structure World.Creates (w w' : World) (file : FileName) (inode : Inode) : Prop where
  free : w.find file = none
  links : inode.links = 1
  find : ∀ other, w'.find other = if other = file then some w.nextIno else w.find other
  inode : w'.inode = Function.update w.inode w.nextIno inode
  nextIno : w'.nextIno = w.nextIno + 1
  drawn : w'.drawn = w.drawn
  stage : ∀ stage, (w'.stage stage).isSome = (w.stage stage).isSome

namespace World.Creates

variable {w' : World} {file : FileName} {inode : Inode}

theorem back (hnew : w.Creates w' file inode) {other : FileName} {ino : Nat}
    (hfound : w'.find other = some ino) :
    other = file ∧ ino = w.nextIno ∨ w.find other = some ino := by
  rw [hnew.find] at hfound
  split at hfound
  · rename_i heq
    exact .inl ⟨heq, (Option.some.inj hfound).symm⟩
  · exact .inr hfound

theorem forth (hnew : w.Creates w' file inode) {other : FileName} {ino : Nat}
    (hfound : w.find other = some ino) : w'.find other = some ino := by
  rw [hnew.find, if_neg]
  · exact hfound
  · rintro rfl
    rw [hnew.free] at hfound
    cases hfound

/-- A file that was there holds what it held. -/
theorem same (hnew : w.Creates w' file inode) (h : w.Tidy sha256) {other : FileName} {ino : Nat}
    (hfound : w.find other = some ino) : w'.inode ino = w.inode ino := by
  rw [hnew.inode]
  exact Function.update_of_ne (Nat.ne_of_lt (h.named other ino hfound).1) _ _

/-- A new part, or a new entry of the cache that holds what its name says. -/
theorem moves (hnew : w.Creates w' file inode) (h : w.Tidy sha256)
    (hdigest : ∀ digest, file = .cached digest → finishHex (sha256 inode.contents) = digest)
    (hentry : ∀ stage name, file = .staged stage name → name = ascii "archive.part") :
    w.Moves sha256 noPart w' := by
  have hstages : ∀ other, (w'.stage other).isSome = true → (w.stage other).isSome = true :=
    fun other hsome => (hnew.stage other).symm.trans hsome
  refine ⟨⟨?_, ?_, ?_, ?_, ?_⟩, ⟨⟨?_, fun other _ => hstages other, ?_, ?_⟩, ?_, ?_, ?_⟩⟩
  · intro other ino hother
    rw [hnew.nextIno]
    rcases hnew.back hother with ⟨_, rfl⟩ | hold
    · rw [hnew.inode, Function.update_self]
      exact ⟨Nat.lt_succ_self _, hnew.links⟩
    · rw [hnew.same h hold]
      obtain ⟨hlt, hlinks⟩ := h.named other ino hold
      exact ⟨Nat.lt_succ_of_lt hlt, hlinks⟩
  · intro one other ino hone hother
    rcases hnew.back hone with ⟨hfile, hino⟩ | hold <;>
      rcases hnew.back hother with ⟨hfile', hino'⟩ | hold'
    · exact hfile.trans hfile'.symm
    · exact absurd (h.named other ino hold').1 (by omega)
    · exact absurd (h.named one ino hold).1 (by omega)
    · exact h.single one other ino hold hold'
  · intro digest ino hcached
    have hfound : w'.find (.cached digest) = some ino := hcached
    rcases hnew.back hfound with ⟨heq, rfl⟩ | hold
    · rw [hnew.inode, Function.update_self]
      exact hdigest digest heq.symm
    · rw [hnew.same h hold]
      exact h.digest digest ino hold
  · intro stage name ino hfound
    rcases hnew.back hfound with ⟨heq, _⟩ | hold
    · exact .inr (hentry stage name heq.symm)
    · exact h.entry stage name ino hold
  · intro stage hsome
    rw [hnew.drawn]
    exact h.drawn stage (hstages stage hsome)
  · intro stage hdrawn
    rw [hnew.drawn]
    exact hdrawn
  · exact fun stage ino _ hblob => ⟨hnew.forth hblob, hnew.same h hblob⟩
  · intro digest ino hcached
    have hfound : w.find (.cached digest) = some ino := hcached
    exact ⟨hnew.forth hfound, hnew.same h hfound⟩
  · rw [hnew.nextIno]
    exact Nat.le_succ _
  · exact fun stage ino _ _ hpart => hnew.forth hpart
  · intro other ino hlt hfound
    rcases hnew.back hfound with ⟨_, rfl⟩ | hold
    · exact absurd hlt (Nat.lt_irrefl _)
    · exact .inl hold

end World.Creates

/-- A new part in a stage that had none. -/
theorem moves_newPart (h : w.Tidy sha256) (hstage : (w.stage stage).isSome = true)
    (hpart : w.find (partFile stage) = none) :
    w.Moves sha256 noPart (w.newFile (partFile stage)) := by
  have hdir : w.HasDir (partFile stage) := hstage
  have hstages : ∀ other, ((w.newFile (partFile stage)).stage other).isSome =
      (w.stage other).isSome := by
    intro other
    have hstage' : (w.newFile (partFile stage)).stage other =
        (w.setName (partFile stage) (some w.nextIno)).stage other := rfl
    rw [hstage', isSome_stage_setName]
  have hnew : w.Creates (w.newFile (partFile stage)) (partFile stage) ⟨[], 1⟩ := {
    free := hpart
    links := rfl
    find := fun _ => find_newFile hdir
    inode := rfl
    nextIno := rfl
    drawn := rfl
    stage := hstages }
  exact hnew.moves h nofun fun _ _ heq => (FileName.staged.inj heq).2.symm

/-- A new file in the cache, where nothing was. -/
theorem moves_publish (h : w.Tidy sha256) {digest bytes : Bytes} (hplace : w.cache digest = none)
    (hbytes : finishHex (sha256 bytes) = digest) :
    w.Moves sha256 noPart (w.publish digest bytes) := by
  have hnew : w.Creates (w.publish digest bytes) (.cached digest) ⟨bytes, 1⟩ := {
    free := hplace
    links := rfl
    find := fun other => by
      cases other with
      | cached digest' =>
          simp only [World.publish, World.find, Function.update_apply, FileName.cached.injEq]
      | staged stage name =>
          rw [if_neg (cached_ne_staged digest stage name)]
          rfl
    inode := rfl
    nextIno := rfl
    drawn := rfl
    stage := fun _ => rfl }
  exact hnew.moves h (fun _ heq => hbytes.trans (FileName.cached.inj heq))
    fun stage name heq => absurd heq.symm (cached_ne_staged digest stage name)

/-- Bytes at the end of a file that is no more than a part. -/
theorem moves_write (h : w.Tidy sha256) (bytes : Bytes) {ino : Nat}
    (hpart : ∀ file, w.find file = some ino → file = partFile stage) :
    w.Moves sha256 noPart (respond (.write ino bytes) w).2 := by
  have hfind : ∀ file, (respond (.write ino bytes) w).2.find file = w.find file :=
    fun _ => setInode_find _ _
  have hsame : ∀ file other, (∀ stage, file ≠ partFile stage) → w.find file = some other →
      (respond (.write ino bytes) w).2.inode other = w.inode other := by
    intro file other hne hfile
    refine Function.update_of_ne (fun heq => hne stage (hpart file ?_)) _ _
    rw [hfile, heq]
  refine ⟨⟨?_, ?_, ?_, ?_, h.drawn⟩, ⟨⟨fun _ => id, fun _ _ => id, ?_, ?_⟩, Nat.le_refl _, ?_, ?_⟩⟩
  · intro file other hfile
    obtain ⟨hlt, hlinks⟩ := h.named file other ((hfind file).symm.trans hfile)
    refine ⟨hlt, ?_⟩
    rw [respond]
    simp only [World.setInode, Function.update_apply]
    split
    · rename_i heq
      exact heq ▸ hlinks
    · exact hlinks
  · exact fun file other ino' hfile hother =>
      h.single file other ino' ((hfind file).symm.trans hfile) ((hfind other).symm.trans hother)
  · intro digest other hcached
    rw [hsame (.cached digest) other (cached_ne_part digest) hcached]
    exact h.digest digest other hcached
  · exact fun other name ino' hfile => h.entry other name ino' ((hfind _).symm.trans hfile)
  · exact fun other ino' _ hblob =>
      ⟨(hfind _).trans hblob, hsame _ ino' (fun stage' => blob_ne_part other stage') hblob⟩
  · exact fun digest ino' hcached =>
      ⟨hcached, hsame (.cached digest) ino' (cached_ne_part digest) hcached⟩
  · exact fun other ino' _ _ hother => (hfind _).trans hother
  · exact fun file ino' _ hfile => .inl ((hfind file).symm.trans hfile)

theorem World.Spares.mono {w' : World} {own own' : Bytes → Prop} (h : w.Spares w' own)
    (hown : ∀ stage, own stage → own' stage) : w.Spares w' own' where
  toLater := h.toLater
  nextIno := h.nextIno
  part stage ino hnot := h.part stage ino fun hyes => hnot (hown stage hyes)
  found file ino hlt hfound := by
    rcases h.found file ino hlt hfound with hold | ⟨stage, hstage, hfile⟩
    · exact .inl hold
    · exact .inr ⟨stage, hown stage hstage, hfile⟩

theorem World.Moves.mono {w' : World} {own own' : Bytes → Prop} (h : w.Moves sha256 own w')
    (hown : ∀ stage, own stage → own' stage) : w.Moves sha256 own' w' :=
  ⟨h.tidy, h.spares.mono hown⟩

/-- The part of a stage becomes its archive. -/
theorem moves_completePart (h : w.Tidy sha256) {ino : Nat}
    (hpart : w.find (partFile stage) = some ino) (hblob : w.find (blobFile stage) = none) :
    w.Moves sha256 (· = stage) (w.moveFile ino (partFile stage) (blobFile stage)) := by
  have hstage : (w.stage stage).isSome = true := isSome_stage_of_find hpart
  have hdir : w.HasDir (partFile stage) := hstage
  have hblobDir : w.HasDir (blobFile stage) := hstage
  have hdir' : (w.setName (partFile stage) none).HasDir (blobFile stage) :=
    hasDir_setName.mpr hblobDir
  have hfind : ∀ file, (w.moveFile ino (partFile stage) (blobFile stage)).find file =
      if file = blobFile stage then some ino
      else if file = partFile stage then none else w.find file := by
    intro file
    rw [World.moveFile, find_setName hdir', find_setName hdir]
  have hback : ∀ file ino', (w.moveFile ino (partFile stage) (blobFile stage)).find file =
      some ino' → file = blobFile stage ∧ ino' = ino ∨
        file ≠ partFile stage ∧ w.find file = some ino' := by
    intro file ino' hfile
    rw [hfind] at hfile
    split at hfile
    · rename_i heq
      exact .inl ⟨heq, (Option.some.inj hfile).symm⟩
    · split at hfile
      · cases hfile
      · rename_i hne
        exact .inr ⟨hne, hfile⟩
  have hforth : ∀ file ino', file ≠ partFile stage → w.find file = some ino' →
      (w.moveFile ino (partFile stage) (blobFile stage)).find file = some ino' := by
    intro file ino' hne hfile
    rw [hfind, if_neg, if_neg hne]
    · exact hfile
    · rintro rfl
      rw [hblob] at hfile
      cases hfile
  have hstages : ∀ other, ((w.moveFile ino (partFile stage) (blobFile stage)).stage other).isSome =
      (w.stage other).isSome := fun other => by
    rw [World.moveFile, isSome_stage_setName, isSome_stage_setName]
  have hinode : (w.moveFile ino (partFile stage) (blobFile stage)).inode = w.inode := by
    rw [World.moveFile, setName_inode, setName_inode]
  have hdrawn : (w.moveFile ino (partFile stage) (blobFile stage)).drawn = w.drawn := by
    rw [World.moveFile, setName_drawn, setName_drawn]
  have hnext : (w.moveFile ino (partFile stage) (blobFile stage)).nextIno = w.nextIno := by
    rw [World.moveFile, setName_nextIno, setName_nextIno]
  have hcache : (w.moveFile ino (partFile stage) (blobFile stage)).cache = w.cache := rfl
  generalize w.moveFile ino (partFile stage) (blobFile stage) = w' at *
  refine ⟨⟨?_, ?_, ?_, ?_, ?_⟩, ⟨⟨?_, ?_, ?_, ?_⟩, Nat.le_of_eq hnext.symm, ?_, ?_⟩⟩
  · intro file ino' hfile
    rw [hinode, hnext]
    rcases hback file ino' hfile with ⟨_, rfl⟩ | ⟨_, hold⟩
    · exact h.named _ ino' hpart
    · exact h.named file ino' hold
  · intro one other ino' hone hother
    rcases hback one ino' hone with ⟨hone, rfl⟩ | ⟨hne, hold⟩ <;>
      rcases hback other _ hother with ⟨hother, hino⟩ | ⟨hne', hold'⟩
    · exact hone.trans hother.symm
    · exact absurd (h.single _ _ _ hold' hpart) hne'
    · exact absurd (h.single _ _ _ (hino ▸ hold) hpart) hne
    · exact h.single one other ino' hold hold'
  · intro digest ino' hcached
    rw [hcache] at hcached
    rw [hinode]
    exact h.digest digest ino' hcached
  · intro other name ino' hfile
    rcases hback _ ino' hfile with ⟨heq, _⟩ | ⟨_, hold⟩
    · exact .inl (FileName.staged.inj heq).2
    · exact h.entry other name ino' hold
  · intro other hsome
    rw [hdrawn]
    exact h.drawn other ((hstages other).symm.trans hsome)
  · intro other hother
    rw [hdrawn]
    exact hother
  · exact fun other _ hsome => (hstages other).symm.trans hsome
  · exact fun other ino' _ hother =>
      ⟨hforth _ ino' (blob_ne_part other stage) hother, congrFun hinode ino'⟩
  · exact fun digest ino' hcached =>
      ⟨(congrFun hcache digest).trans hcached, congrFun hinode ino'⟩
  · exact fun other ino' hne _ hother =>
      hforth _ ino' (fun heq => hne (partFile_inj heq)) hother
  · intro file ino' _ hfile
    rcases hback file ino' hfile with ⟨heq, rfl⟩ | ⟨_, hold⟩
    · exact .inr ⟨stage, rfl, heq, hpart⟩
    · exact .inl hold

/-- The part of a stage is removed. -/
theorem moves_removePart (h : w.Tidy sha256) (stage : Bytes) :
    w.Moves sha256 (· = stage) (respond (.remove (partFile stage)) w).2 := by
  rw [respond]
  cases hpart : w.find (partFile stage) with
  | none => exact (moves_refl h).mono fun _ => False.elim
  | some ino =>
      show w.Moves sha256 (· = stage) (w.removeFile ino (partFile stage))
      have hdir : (w.unlink ino).HasDir (partFile stage) :=
        hasDir_of_find ((unlink_find ino).trans hpart)
      have hfind : ∀ file, (w.removeFile ino (partFile stage)).find file =
          if file = partFile stage then none else w.find file := by
        intro file
        rw [World.removeFile, find_setName hdir, unlink_find]
      have hback : ∀ file ino', (w.removeFile ino (partFile stage)).find file = some ino' →
          file ≠ partFile stage ∧ w.find file = some ino' := by
        intro file ino' hfile
        rw [hfind] at hfile
        split at hfile
        · cases hfile
        · rename_i hne
          exact ⟨hne, hfile⟩
      have hsame : ∀ file ino', file ≠ partFile stage → w.find file = some ino' →
          (w.removeFile ino (partFile stage)).inode ino' = w.inode ino' := by
        intro file ino' hne hfile
        rw [World.removeFile, setName_inode]
        refine Function.update_of_ne (fun heq => hne (h.single _ _ ino' hfile ?_)) _ _
        rw [hpart, heq]
      have hstages : ∀ other, ((w.removeFile ino (partFile stage)).stage other).isSome =
          (w.stage other).isSome := fun other => isSome_stage_setName other
      refine ⟨⟨?_, ?_, ?_, ?_, ?_⟩, ⟨⟨fun _ => id, ?_, ?_, ?_⟩, Nat.le_refl _, ?_, ?_⟩⟩
      · intro file ino' hfile
        obtain ⟨hne, hold⟩ := hback file ino' hfile
        rw [hsame file ino' hne hold]
        exact h.named file ino' hold
      · exact fun one other ino' hone hother =>
          h.single one other ino' (hback one ino' hone).2 (hback other ino' hother).2
      · intro digest ino' hcached
        rw [hsame (.cached digest) ino' (cached_ne_part digest stage) hcached]
        exact h.digest digest ino' hcached
      · exact fun other name ino' hfile => h.entry other name ino' (hback _ ino' hfile).2
      · exact fun other hsome => h.drawn other ((hstages other).symm.trans hsome)
      · exact fun other _ hsome => (hstages other).symm.trans hsome
      · intro other ino' _ hblob
        have hne := blob_ne_part other stage
        exact ⟨by rw [hfind, if_neg hne]; exact hblob, hsame _ ino' hne hblob⟩
      · exact fun digest ino' hcached =>
          ⟨hcached, hsame (.cached digest) ino' (cached_ne_part digest stage) hcached⟩
      · intro other ino' hne _ hother
        rw [hfind, if_neg fun heq => hne (partFile_inj heq)]
        exact hother
      · exact fun file ino' _ hfile => .inl (hback file ino' hfile).2

end Changes

/-! ## Operations in progress -/

namespace Task

/-- The stage an operation is about. -/
def stage : Task → Bytes
  | .copying stage _ _ _ _ | .sealing stage _ _ | .completing stage _ _ | .discarding stage _
  | .reading stage _ _ _ _ _ | .publishing stage _ _ _ _ => stage

/-- The operation is a spool. -/
def Spools : Task → Prop
  | .copying _ _ _ _ _ | .sealing _ _ _ | .completing _ _ _ | .discarding _ _ => True
  | .reading _ _ _ _ _ _ | .publishing _ _ _ _ _ => False

end Task

/-- The file that a spool fills is the part of its stage, or no longer has a name. -/
structure World.Fills (w : World) (stage : Bytes) (ino : Nat) : Prop where
  old : ino < w.nextIno
  only : ∀ file, w.find file = some ino → file = partFile stage
  part : (w.stage stage).isSome = true → w.find (partFile stage) = some ino

/-- What an operation knows between two of its moves.  What it has read from a staged archive
it has read from there as long as the stage is there. -/
def Task.Sound (sha256 : Bytes → Sha256Output) (w : World) : Task → Prop
  | .copying stage ino _ _ _ | .sealing stage ino _ | .completing stage ino _ =>
      w.Fills stage ino
  | .discarding stage _ =>
      (w.stage stage).isSome = true → (w.find (partFile stage)).isSome = true
  | .reading stage ino digest expected maximum taken =>
      canonicalSourceSha256 expected = .ok digest ∧ maximum.toNat ≤ maxCacheArchiveBytes ∧
        ((w.stage stage).isSome = true →
          w.find (blobFile stage) = some ino ∧ taken <+: (w.inode ino).contents)
  | .publishing stage digest expected maximum bytes =>
      canonicalSourceSha256 expected = .ok digest ∧ maximum.toNat ≤ maxCacheArchiveBytes ∧
        bytes.length ≤ maximum.toNat ∧ finishHex (sha256 bytes) = digest ∧
        ((w.stage stage).isSome = true → w.contents (blobFile stage) = some bytes)

/-- The files are in order, each operation knows what it has to, and no two spools fill the
part of one stage. -/
structure State.Sound (sha256 : Bytes → Sha256Output) (s : State) : Prop where
  tidy : s.world.Tidy sha256
  task : ∀ agent task, s.task agent = some task →
    task.stage ∈ s.world.drawn ∧ task.Sound sha256 s.world
  alone : ∀ agent other task task', s.task agent = some task → s.task other = some task' →
    task.Spools → task'.Spools → task.stage = task'.stage → agent = other

section Tasks

variable {sha256 : Bytes → Sha256Output} {w w' : World} {own : Bytes → Prop}

/-- What others do leaves a spool its part. -/
theorem World.Spares.fills (h : w.Spares w' own) {stage : Bytes} {ino : Nat}
    (hdrawn : stage ∈ w.drawn) (hown : ¬ own stage) (hfills : w.Fills stage ino) :
    w'.Fills stage ino where
  old := Nat.lt_of_lt_of_le hfills.old h.nextIno
  only file hfound := by
    rcases h.found file ino hfills.old hfound with hold | ⟨other, hother, _, hpart⟩
    · exact hfills.only file hold
    · exact absurd (partFile_inj (hfills.only _ hpart) ▸ hother) hown
  part hstage := h.part stage ino hown hstage (hfills.part (h.stage stage hdrawn hstage))

/-- What others do takes nothing from an operation. -/
theorem World.Spares.sound (h : w.Spares w' own) {task : Task} (hdrawn : task.stage ∈ w.drawn)
    (hown : task.Spools → ¬ own task.stage) (hsound : task.Sound sha256 w) :
    task.Sound sha256 w' := by
  cases task with
  | copying stage ino input maximum total => exact h.fills hdrawn (hown trivial) hsound
  | sealing stage ino total => exact h.fills hdrawn (hown trivial) hsound
  | completing stage ino total => exact h.fills hdrawn (hown trivial) hsound
  | discarding stage error =>
      intro hstage
      obtain ⟨ino, hino⟩ := Option.isSome_iff_exists.mp (hsound (h.stage stage hdrawn hstage))
      exact Option.isSome_iff_exists.mpr ⟨ino, h.part stage ino (hown trivial) hstage hino⟩
  | reading stage ino digest expected maximum taken =>
      obtain ⟨hdigest, hmaximum, hread⟩ := hsound
      refine ⟨hdigest, hmaximum, fun hstage => ?_⟩
      obtain ⟨hblob, htaken⟩ := hread (h.stage stage hdrawn hstage)
      obtain ⟨hkept, hsame⟩ := h.blob stage ino hstage hblob
      exact ⟨hkept, hsame ▸ htaken⟩
  | publishing stage digest expected maximum bytes =>
      obtain ⟨hdigest, hmaximum, hlength, hbytes, hread⟩ := hsound
      refine ⟨hdigest, hmaximum, hlength, hbytes, fun hstage => ?_⟩
      obtain ⟨ino, hblob, hcontents⟩ :=
        Option.map_eq_some_iff.mp (hread (h.stage stage hdrawn hstage))
      obtain ⟨hkept, hsame⟩ := h.blob stage ino hstage hblob
      exact Option.map_eq_some_iff.mpr ⟨ino, hkept, (congrArg Inode.contents hsame).trans hcontents⟩

end Tasks

/-! ## Stays under the lock that fill no part -/

/-- The calls that remove stages and leases, or nothing. -/
inductive Call.Sweeps : Call → Prop
  | reads {c : Call} (h : c.Reads) : Sweeps c
  | removeStage (stage : Bytes) : Sweeps (.removeStage stage)
  | tryLockLease (stage : Bytes) : Sweeps (.tryLockLease stage)
  | removeLease (stage : Bytes) : Sweeps (.removeLease stage)

section Sweeps

variable {sha256 : Bytes → Sha256Output} {w : World}

theorem moves_sweeps (h : w.Tidy sha256) {c : Call} (hc : c.Sweeps) :
    w.Moves sha256 noPart (respond c w).2 := by
  cases hc with
  | reads hreads => exact (respond_reads hreads w).symm ▸ moves_refl h
  | removeStage stage => exact moves_removeStage h stage
  | tryLockLease stage =>
      rw [respond]
      split
      · exact moves_refl h
      · exact moves_leases h _ fun _ => id
  | removeLease stage =>
      rw [respond]
      split
      · exact moves_leases h _ fun _ => id
      · exact moves_refl h

/-- A program that removes stages and leases keeps the files in order. -/
theorem moves_of_sweeps {α : Type} {program : Program Call Answer α}
    (hprogram : program.Only Call.Sweeps) (h : w.Tidy sha256) :
    w.Moves sha256 noPart (program.eval respond w).2 := by
  refine hprogram.eval (fun c v hc hv => ?_) (moves_refl h)
  exact hv.trans (moves_sweeps hv.tidy hc) h

theorem sweeps_verifyStage (stage : Bytes) : Program.Only Call.Sweeps (verifyStage stage).run :=
  Program.Only.bindE (only_orIo (Program.only_perform (.reads trivial))) fun _ =>
    only_orIo (Program.only_perform (.reads trivial))

theorem sweeps_dropStage (stage : Bytes) : (dropStage stage).Only Call.Sweeps := by
  refine Program.Only.bind (sweeps_verifyStage stage) fun result => ?_
  rcases result with ⟨e⟩ | ⟨_⟩
  · exact Program.Only.bind (Program.only_perform (.removeLease stage)) fun _ =>
      Program.only_ret _
  · refine Program.Only.bind (Program.only_perform (.removeStage stage)) fun _ => ?_
    exact Program.Only.bind (Program.only_perform (.removeLease stage)) fun _ =>
      Program.only_ret _

theorem sweeps_recoverStage (stage : Bytes) :
    Program.Only Call.Sweeps (recoverStage stage).run := by
  rw [recoverStage]
  split
  · exact Program.only_ret _
  · refine Program.Only.bindE (sweeps_verifyStage stage) fun _ => ?_
    refine Program.Only.bindE (only_orIo (Program.only_perform (.reads trivial))) fun _ => ?_
    refine Program.Only.bindE (only_orIo (Program.only_perform (.tryLockLease stage)))
      fun free => ?_
    split
    · refine Program.Only.bindE (only_orIo (Program.only_perform (.removeStage stage)))
        fun _ => ?_
      refine Program.Only.bindE (only_orIo (Program.only_perform (.removeLease stage)))
        fun _ => ?_
      exact Program.only_ret _
    · exact Program.only_ret _

theorem sweeps_recoverStages (stages : List Bytes) (recovered : Nat) :
    Program.Only Call.Sweeps (recoverStages recovered stages).run := by
  induction stages generalizing recovered with
  | nil => exact Program.only_ret _
  | cons stage stages ih => exact Program.Only.bindE (sweeps_recoverStage stage) fun _ => ih _

theorem sweeps_removeOrphan (stage : Bytes) :
    Program.Only Call.Sweeps (removeOrphan stage).run := by
  refine Program.Only.bindE ?_ fun found => ?_
  · exact Program.Only.bind (Program.only_perform (.reads trivial)) fun _ => Program.only_ret _
  · rcases found with ⟨e⟩ | ⟨_⟩
    · refine Program.Only.bindE (only_orIo (Program.only_perform (.tryLockLease stage)))
        fun free => ?_
      split
      · exact only_orIo (Program.only_perform (.removeLease stage))
      · exact Program.only_ret _
    · exact Program.only_ret _

theorem sweeps_removeOrphans (stages : List Bytes) :
    Program.Only Call.Sweeps (removeOrphans stages).run := by
  induction stages with
  | nil => exact Program.only_ret _
  | cons stage stages ih => exact Program.Only.bindE (sweeps_removeOrphan stage) fun _ => ih

theorem sweeps_recoverAbandoned : Program.Only Call.Sweeps recoverAbandoned.run := by
  refine Program.Only.bindE (only_orIo (Program.only_perform (.reads trivial))) fun stages => ?_
  refine Program.Only.bindE (sweeps_recoverStages stages 0) fun recovered => ?_
  refine Program.Only.bindE (only_orIo (Program.only_perform (.reads trivial))) fun leases => ?_
  exact Program.Only.bindE (sweeps_removeOrphans leases) fun _ => Program.only_ret _

theorem respond_removeLease (stage : Bytes) (w : World) :
    ∃ lease, (respond (.removeLease stage) w).2 = { w with lease := lease } := by
  rw [respond]
  split
  · exact ⟨_, rfl⟩
  · exact ⟨w.lease, rfl⟩

/-- A stage is begun under one of the names drawn for it, or it is not. -/
theorem run_beginUnverifiedSource (names : List Bytes) (w : World) :
    ∃ lease, (run (beginUnverifiedSource names) w).2 = { w with lease := lease } ∨
      ∃ stage ∈ names, (run (beginUnverifiedSource names) w).2 =
        { w with
          lease := lease
          stage := Function.update w.stage stage (some fun _ => none) } := by
  induction names generalizing w with
  | nil => exact ⟨w.lease, .inl rfl⟩
  | cons stage names ih =>
      rw [beginUnverifiedSource, run_mk, Program.eval_bind, eval_call, respond]
      cases hlease : w.lease stage with
      | some held =>
          obtain ⟨lease, hworld | ⟨stage', hstage', hworld⟩⟩ := ih w
          · exact ⟨lease, .inl hworld⟩
          · exact ⟨lease, .inr ⟨stage', List.mem_cons_of_mem _ hstage', hworld⟩⟩
      | none =>
          dsimp only
          rw [Program.eval_bind, eval_call, respond]
          dsimp only
          rw [Program.eval_bind, eval_call, respond]
          dsimp only
          cases hstage : w.stage stage with
          | none => exact ⟨_, .inr ⟨stage, List.mem_cons_self, rfl⟩⟩
          | some entries =>
              dsimp only
              -- a directory of this name: the next name is tried
              rw [Program.eval_bind, eval_call, if_pos rfl]
              obtain ⟨left, hleft⟩ := respond_removeLease stage
                { w with
                  lease := Function.update (Function.update w.lease stage (some false)) stage
                    (some true) }
              rw [hleft]
              obtain ⟨lease, hworld | ⟨stage', hstage', hworld⟩⟩ := ih { w with lease := left }
              · exact ⟨lease, .inl hworld⟩
              · exact ⟨lease, .inr ⟨stage', List.mem_cons_of_mem _ hstage', hworld⟩⟩

end Sweeps

/-! ## Steps -/

section Steps

variable {sha256 : Bytes → Sha256Output} {s : State} {w : World}

/-- A step of no operation in progress. -/
theorem sound_of_moves (h : s.Sound sha256) (hmoves : s.world.Moves sha256 noPart w) :
    State.Sound sha256 { s with world := w } where
  tidy := hmoves.tidy
  task agent task htask := by
    obtain ⟨hdrawn, hsound⟩ := h.task agent task htask
    exact ⟨hmoves.spares.drawn _ hdrawn, hmoves.spares.sound hdrawn (fun _ => id) hsound⟩
  alone := h.alone

/-- What a move of an agent leads to: no part is touched but that of the stage it spools, and
it goes on with what it has to know. -/
structure Advances (sha256 : Bytes → Sha256Output) (s : State) (agent : Agent)
    (progress : Progress) (w : World) : Prop where
  moves : ∃ own, s.world.Moves sha256 own w ∧ ∀ stage, own stage →
    ∃ task, s.task agent = some task ∧ task.Spools ∧ task.stage = stage
  drawn : ∀ task, progress = .goesOn task → task.stage ∈ w.drawn
  sound : ∀ task, progress = .goesOn task → task.Sound sha256 w
  alone : ∀ task, progress = .goesOn task → task.Spools → ∀ other task', other ≠ agent →
    s.task other = some task' → task'.Spools → task'.stage ≠ task.stage

theorem Advances.later {agent : Agent} {progress : Progress}
    (h : Advances sha256 s agent progress w) :
    s.world.Later (s.after agent (progress, w)).world := by
  obtain ⟨own, hmoves, _⟩ := h.moves
  cases progress <;> exact hmoves.spares.toLater

theorem Advances.after (h : s.Sound sha256) {agent : Agent} {progress : Progress}
    (hadvances : Advances sha256 s agent progress w) :
    (s.after agent (progress, w)).Sound sha256 := by
  obtain ⟨own, hmoves, hown⟩ := hadvances.moves
  have hothers : ∀ other task, other ≠ agent → s.task other = some task →
      task.stage ∈ w.drawn ∧ task.Sound sha256 w := by
    intro other task hne htask
    obtain ⟨hdrawn, hsound⟩ := h.task other task htask
    refine ⟨hmoves.spares.drawn _ hdrawn,
      hmoves.spares.sound hdrawn (fun hspools htouched => ?_) hsound⟩
    obtain ⟨mine, hmine, hmineSpools, hstage⟩ := hown _ htouched
    exact hne (h.alone other agent task mine htask hmine hspools hmineSpools hstage.symm)
  cases progress with
  | returns value =>
      have hkept : ∀ other task, Function.update s.task agent none other = some task →
          other ≠ agent ∧ s.task other = some task := by
        intro other task htask
        rw [Function.update_apply] at htask
        split at htask
        · cases htask
        · rename_i hne
          exact ⟨hne, htask⟩
      refine ⟨hmoves.tidy, fun other task htask => ?_, fun one other task task' hone hother => ?_⟩
      · obtain ⟨hne, htask⟩ := hkept other task htask
        exact hothers other task hne htask
      · exact h.alone one other task task' (hkept one task hone).2 (hkept other task' hother).2
  | goesOn next =>
      have hkept : ∀ other task, Function.update s.task agent (some next) other = some task →
          other = agent ∧ next = task ∨ other ≠ agent ∧ s.task other = some task := by
        intro other task htask
        rw [Function.update_apply] at htask
        split at htask
        · rename_i heq
          exact .inl ⟨heq, Option.some.inj htask⟩
        · rename_i hne
          exact .inr ⟨hne, htask⟩
      refine ⟨hmoves.tidy, fun other task htask => ?_, fun one other task task' hone hother => ?_⟩
      · rcases hkept other task htask with ⟨_, rfl⟩ | ⟨hne, htask⟩
        · exact ⟨hadvances.drawn next rfl, hadvances.sound next rfl⟩
        · exact hothers other task hne htask
      · intro hspools hspools' hstage
        rcases hkept one task hone with ⟨rfl, rfl⟩ | ⟨hne, hold⟩ <;>
          rcases hkept other task' hother with ⟨rfl, rfl⟩ | ⟨hne', hold'⟩
        · rfl
        · exact absurd hstage.symm
            (hadvances.alone next rfl hspools other task' hne' hold' hspools')
        · exact absurd hstage (hadvances.alone next rfl hspools' one task hne hold hspools)
        · exact h.alone one other task task' hold hold' hspools hspools' hstage

/-- A move that changes nothing and goes on with nothing. -/
theorem advances_returns (h : s.Sound sha256) (agent : Agent) (value : Returned) :
    Advances sha256 s agent (.returns value) s.world :=
  ⟨⟨noPart, moves_refl h.tidy, nofun⟩, nofun, nofun, nofun⟩

/-- A spool that goes on with the part it fills. -/
theorem advances_spool (h : s.Sound sha256) {agent : Agent} {task next : Task}
    (htask : s.task agent = some task) (hspools : task.Spools) (hstage : next.stage = task.stage)
    (hmoves : s.world.Moves sha256 noPart w) (hsound : next.Sound sha256 w) :
    Advances sha256 s agent (.goesOn next) w where
  moves := ⟨noPart, hmoves, nofun⟩
  drawn _ heq := by
    cases heq
    rw [hstage]
    exact hmoves.spares.drawn _ (h.task agent task htask).1
  sound _ heq := by
    cases heq
    exact hsound
  alone _ heq _ other task' hne htask' hspools' hsame := by
    cases heq
    exact hne (h.alone other agent task' task htask' htask hspools' hspools (hsame.trans hstage))

/-- A caching that goes on, in an unchanged world. -/
theorem advances_caching (h : s.Sound sha256) (agent : Agent) {next : Task}
    (hspools : ¬ next.Spools) (hdrawn : next.stage ∈ s.world.drawn)
    (hsound : next.Sound sha256 s.world) : Advances sha256 s agent (.goesOn next) s.world where
  moves := ⟨noPart, moves_refl h.tidy, nofun⟩
  drawn _ heq := by
    cases heq
    exact hdrawn
  sound _ heq := by
    cases heq
    exact hsound
  alone _ heq hyes := by
    cases heq
    exact absurd hyes hspools

theorem Task.Sound.discarding {stage : Bytes} {ino : Nat} (h : w.Fills stage ino)
    (e : StoreError) : (Task.discarding stage e).Sound sha256 w :=
  fun hstage => Option.isSome_iff_exists.mpr ⟨ino, h.part hstage⟩

/-- A pass of the copy loop. -/
theorem advances_copyPass (h : s.Sound sha256) {agent : Agent} {stage : Bytes} {ino : Nat}
    {input : Reader} {maximum : UInt64} {total : Nat}
    (htask : s.task agent = some (.copying stage ino input maximum total)) :
    Advances sha256 s agent (.goesOn (copyPass stage ino input maximum total s.world).1)
      (copyPass stage ino input maximum total s.world).2 := by
  obtain ⟨hdrawn, hsound⟩ := h.task agent _ htask
  have hfills : s.world.Fills stage ino := hsound
  have hkept := moves_refl h.tidy
  rw [copyPass]
  split
  · exact advances_spool h htask trivial rfl hkept hfills
  · exact advances_spool h htask trivial rfl hkept (.discarding hfills _)
  · exact advances_spool h htask trivial rfl hkept hfills
  · dsimp only
    split
    · exact advances_spool h htask trivial rfl hkept (.discarding hfills _)
    · rename_i head tail rest _ _
      have hmoves := moves_write h.tidy (head :: tail) hfills.only
      exact advances_spool h htask trivial rfl hmoves (hmoves.spares.fills hdrawn id hfills)

/-- A read of a staged archive. -/
theorem advances_readPass (h : s.Sound sha256) {agent : Agent} {stage : Bytes} {ino : Nat}
    {digest expected : Bytes} {maximum : UInt64} {taken : Bytes} (amount : Nat)
    (htask : s.task agent = some (.reading stage ino digest expected maximum taken)) :
    Advances sha256 s agent
      (readPass sha256 stage ino digest expected maximum taken amount s.world) s.world := by
  obtain ⟨hdrawn, hdigest, hmaximum, hread⟩ := h.task agent _ htask
  rw [readPass]
  split
  · rename_i hnone
    split
    · exact advances_returns h agent _
    · rename_i hfits
      split
      · exact advances_returns h agent _
      · rename_i hcheck
        have hlength := checkLength_eq_ok hfits
        refine advances_caching h agent id hdrawn
          ⟨hdigest, hmaximum, hlength, checkDigest_eq_ok hcheck, fun hstage => ?_⟩
        obtain ⟨hblob, rest, hrest⟩ := hread hstage
        -- nothing was left to read
        have hempty : rest = [] := by
          rw [← hrest, List.drop_left, List.take_eq_nil_iff] at hnone
          rcases hnone with hzero | hempty
          · omega
          · exact hempty
        rw [World.contents, hblob, Option.map_some, ← hrest, hempty, List.append_nil]
  · refine advances_caching h agent id hdrawn ⟨hdigest, hmaximum, fun hstage => ?_⟩
    obtain ⟨hblob, rest, hrest⟩ := hread hstage
    refine ⟨hblob, ?_⟩
    rw [← hrest, List.drop_left, List.prefix_append_right_inj]
    exact List.take_prefix _ _

/-- The move that publishes what was read, or finds it published. -/
theorem run_publishing (h : s.Sound sha256) {agent : Agent} {stage digest expected : Bytes}
    {maximum : UInt64} {bytes : Bytes}
    (htask : s.task agent = some (.publishing stage digest expected maximum bytes)) :
    s.world.Moves sha256 noPart
      (run (publishSourceBlob sha256 stage bytes digest maximum) s.world).2 := by
  obtain ⟨_, _, _, _, hbytes, _⟩ := h.task agent _ htask
  rcases @run_publishSourceBlob sha256 s.world stage digest bytes maximum
    (h.tidy.cachePart stage) with ⟨e, hrun⟩ | ⟨_, hrun, _⟩ | ⟨_, hplace, hrun⟩
  · rw [hrun]
    exact moves_refl h.tidy
  · rw [hrun]
    exact moves_refl h.tidy
  · rw [hrun]
    exact moves_publish h.tidy hplace hbytes

theorem advances_advance (h : s.Sound sha256) {agent : Agent} {task : Task} (amount : Nat)
    (htask : s.task agent = some task) :
    Advances sha256 s agent (advance sha256 amount s.world task).1
      (advance sha256 amount s.world task).2 := by
  obtain ⟨hdrawn, hsound⟩ := h.task agent task htask
  cases task with
  | copying stage ino input maximum total => exact advances_copyPass h htask
  | sealing stage ino total =>
      have hworld := run_reads (reads_sealPart stage ino) s.world
      rw [advance]
      split <;> rename_i hrun <;> rw [hrun] at hworld <;> subst hworld
      · exact advances_spool h htask trivial rfl (moves_refl h.tidy) hsound
      · exact advances_spool h htask trivial rfl (moves_refl h.tidy) (.discarding hsound _)
  | completing stage ino total =>
      rw [advance]
      rcases run_completePart s.world stage with ⟨e, hrun⟩ | ⟨ino', hpart, hblob, hrun⟩
      · rw [hrun]
        exact advances_spool h htask trivial rfl (moves_refl h.tidy) (.discarding hsound e)
      · rw [hrun]
        refine ⟨⟨(· = stage), moves_completePart h.tidy hpart hblob, ?_⟩, nofun, nofun, nofun⟩
        exact fun stage' heq => ⟨_, htask, trivial, heq.symm⟩
  | discarding stage e =>
      refine ⟨⟨(· = stage), moves_removePart h.tidy stage, ?_⟩, nofun, nofun, nofun⟩
      exact fun stage' heq => ⟨_, htask, trivial, heq.symm⟩
  | reading stage ino digest expected maximum taken => exact advances_readPass h amount htask
  | publishing stage digest expected maximum bytes =>
      exact ⟨⟨noPart, run_publishing h htask, nofun⟩, nofun, nofun, nofun⟩

/-- The first move of a spool makes the part it fills, where no part was. -/
theorem advances_startSpool (h : s.Sound sha256) (agent : Agent) (stage : Bytes)
    (input : Reader) (maximum : UInt64) :
    Advances sha256 s agent (startSpool stage input maximum s.world).1
      (startSpool stage input maximum s.world).2 := by
  rw [startSpool]
  rcases run_startPart s.world stage with ⟨e, hrun⟩ | ⟨hstage, hpart, hrun⟩
  · rw [hrun]
    exact advances_returns h agent _
  · rw [hrun]
    have hdir : s.world.HasDir (partFile stage) := hstage
    have hmoves := moves_newPart h.tidy hstage hpart
    refine ⟨⟨noPart, hmoves, nofun⟩, ?_, ?_, ?_⟩
    · rintro _ ⟨rfl⟩
      exact h.tidy.drawn stage hstage
    · rintro _ ⟨rfl⟩
      refine ⟨Nat.lt_succ_self _, fun file hfile => ?_, fun _ => ?_⟩
      · rw [find_newFile hdir] at hfile
        split at hfile
        · assumption
        · exact absurd (h.tidy.named file _ hfile).1 (Nat.lt_irrefl _)
      · rw [find_newFile hdir, if_pos rfl]
    · rintro _ ⟨rfl⟩ _ other task' _ htask' hspools' hsame
      -- another spool of this stage would have its part there
      obtain ⟨_, hsound⟩ := h.task other task' htask'
      cases task' with
      | copying stage' | sealing stage' | completing stage' =>
          obtain rfl : stage' = stage := hsame
          cases hpart.symm.trans (hsound.part hstage)
      | discarding stage' =>
          obtain rfl : stage' = stage := hsame
          have hsome := hsound hstage
          rw [hpart] at hsome
          cases hsome
      | reading | publishing => exact hspools'

theorem run_openUnverifiedArchive {stage : Bytes} {ino : Nat}
    (hblob : w.find (blobFile stage) = some ino) (hlinks : (w.inode ino).links = 1) :
    run (openUnverifiedArchive stage) w = (.ok ino, w) := by
  rw [openUnverifiedArchive, run_bind_ok (run_verifyStage (isSome_stage_of_find hblob)),
    run_bind_ok (run_orIo_ok (eval_open hblob)),
    run_bind_ok (run_verifyOpenFileIdentity hblob hlinks), run_pure]

theorem run_openUnverifiedArchive_eq_ok {stage : Bytes} {ino : Nat} {w' : World}
    (h : run (openUnverifiedArchive stage) w = (.ok ino, w')) :
    w.find (blobFile stage) = some ino := by
  obtain ⟨_, v, hverify, h₁⟩ := run_bind_eq_ok h
  have hv : v = w := by rw [← run_reads (reads_verifyStage stage) w, hverify]
  obtain ⟨opened, _, hopen, h₂⟩ := run_bind_eq_ok h₁
  obtain ⟨_, _, _, h₃⟩ := run_bind_eq_ok h₂
  obtain rfl : opened = ino := Except.ok.inj (Prod.mk.inj h₃).1
  have hanswer := run_orIo_eq_ok hopen
  rw [hv, eval_call, respond] at hanswer
  split at hanswer
  · rename_i found hfound
    rw [hfound, Except.ok.inj (Prod.mk.inj hanswer).1]
  · cases (Prod.mk.inj hanswer).1

/-- The first move of a caching opens the staged archive. -/
theorem advances_startCache (h : s.Sound sha256) (agent : Agent) (stage expected : Bytes)
    (maximum : UInt64) :
    Advances sha256 s agent (startCache stage expected maximum s.world).1
      (startCache stage expected maximum s.world).2 := by
  rw [startCache]
  split
  · exact advances_returns h agent _
  · rename_i digest hdigest
    have hworld := run_reads (reads_openUnverifiedArchive stage) s.world
    obtain ⟨result, hrun⟩ : ∃ result,
        run (openUnverifiedArchive stage) s.world = (result, s.world) :=
      ⟨_, Prod.ext rfl hworld⟩
    rw [hrun]
    rcases result with ⟨e⟩ | ⟨ino⟩
    · exact advances_returns h agent _
    · have hblob := run_openUnverifiedArchive_eq_ok hrun
      dsimp only
      split
      · exact advances_returns h agent _
      · rename_i hcap
        refine advances_caching h agent id (h.tidy.drawn stage (isSome_stage_of_find hblob)) ?_
        exact ⟨hdigest, checkMaximum_eq_ok hcap, fun _ => ⟨hblob, List.nil_prefix⟩⟩

/-- Every step keeps the files in order, and leaves staged archives and cached files as they
are. -/
theorem sound_step (h : s.Sound sha256) {s' : State} {action : Step}
    (hstep : step sha256 s action = some s') : s'.Sound sha256 ∧ s.world.Later s'.world := by
  cases action with
  | begin names =>
      simp only [step] at hstep
      split at hstep
      · rename_i hnames
        cases hstep
        obtain ⟨lease, hworld | ⟨stage, hstage, hworld⟩⟩ := run_beginUnverifiedSource names
          { s.world with drawn := s.world.drawn ++ names }
        · have hmoves := moves_leases h.tidy lease
            fun stage hdrawn => List.mem_append_left names hdrawn
          rw [hworld]
          exact ⟨sound_of_moves h hmoves, hmoves.spares.toLater⟩
        · have hmoves := moves_createStage h.tidy lease names hstage (hnames.2 stage hstage)
          rw [hworld]
          exact ⟨sound_of_moves h hmoves, hmoves.spares.toLater⟩
      · cases hstep
  | spool agent stage input maximum =>
      simp only [step] at hstep
      split at hstep
      · cases hstep
        have hadvances := advances_startSpool h agent stage input maximum
        exact ⟨hadvances.after h, hadvances.later⟩
      · cases hstep
  | cache agent stage expected maximum =>
      simp only [step] at hstep
      split at hstep
      · cases hstep
        have hadvances := advances_startCache h agent stage expected maximum
        exact ⟨hadvances.after h, hadvances.later⟩
      · cases hstep
  | move agent amount =>
      simp only [step] at hstep
      split at hstep
      · rename_i task htask
        cases hstep
        have hadvances := advances_advance h amount htask
        exact ⟨hadvances.after h, hadvances.later⟩
      · cases hstep
  | drop stage =>
      cases hstep
      have hmoves := moves_of_sweeps (sweeps_dropStage stage) h.tidy
      exact ⟨sound_of_moves h hmoves, hmoves.spares.toLater⟩
  | abandon stage =>
      cases hstep
      have hmoves := moves_leases h.tidy (Function.update s.world.lease stage
        ((s.world.lease stage).map fun _ => false)) fun _ => id
      exact ⟨sound_of_moves h hmoves, hmoves.spares.toLater⟩
  | recover =>
      cases hstep
      have hmoves := moves_of_sweeps sweeps_recoverAbandoned h.tidy
      exact ⟨sound_of_moves h hmoves, hmoves.spares.toLater⟩

end Steps

/-! ## Histories -/

section Histories

variable {sha256 : Bytes → Sha256Output} {s s' : State}

theorem sound_initial : State.Sound sha256 State.initial where
  tidy := {
    named file ino hfile := by cases file <;> cases hfile
    single file other ino hfile := by cases file <;> cases hfile
    digest digest ino hcached := by cases hcached
    entry stage name ino hfile := by cases hfile
    drawn stage hstage := by cases hstage }
  task agent task htask := by cases htask
  alone agent other task task' htask := by cases htask

theorem sound_history (h : s.Sound sha256) {steps : List Step}
    (hhistory : history sha256 s steps = some s') :
    s'.Sound sha256 ∧ s.world.Later s'.world := by
  induction steps generalizing s with
  | nil =>
      cases hhistory
      exact ⟨h, World.Later.refl _⟩
  | cons action steps ih =>
      obtain ⟨mid, hstep, hrest⟩ := Option.bind_eq_some_iff.mp hhistory
      obtain ⟨hmid, hlater⟩ := sound_step h hstep
      obtain ⟨hlast, hlater'⟩ := ih hmid hrest
      exact ⟨hlast, hlater.trans hlater' h.tidy⟩

/-- Only a caching that publishes what it has read returns that it has cached it. -/
theorem advance_eq_cached {w : World} {amount : Nat} {task : Task} {stage expected : Bytes}
    {maximum : UInt64} (h : (advance sha256 amount w task).1 =
      .returns (.cached stage expected maximum (.ok ()))) :
    ∃ digest bytes, task = .publishing stage digest expected maximum bytes ∧
      (run (publishSourceBlob sha256 stage bytes digest maximum) w).1 = .ok () := by
  cases task with
  | copying => cases h
  | sealing =>
      rw [advance] at h
      split at h <;> cases h
  | completing =>
      rw [advance] at h
      split at h <;> cases h
  | discarding => cases h
  | reading =>
      rw [advance, readPass] at h
      split at h
      · split at h
        · cases h
        · split at h <;> cases h
      · cases h
  | publishing stage' digest expected' maximum' bytes =>
      obtain ⟨hstage, hexpected, hmaximum, hok⟩ :=
        Returned.cached.inj (Progress.returns.inj h)
      subst hstage hexpected hmaximum
      exact ⟨digest, bytes, rfl, hok⟩

/-- What a caching that has succeeded leaves: the stage holds what was to be cached, and the
cache has a file of this digest and of a length within the maximum. -/
theorem move_cached (h : s.Sound sha256) {agent : Agent} {amount : Nat}
    (hstep : step sha256 s (.move agent amount) = some s') {stage expected : Bytes}
    {maximum : UInt64}
    (hreturned : s'.returned = s.returned ++ [.cached stage expected maximum (.ok ())]) :
    ∃ digest bytes ino, canonicalSourceSha256 expected = .ok digest ∧
      maximum.toNat ≤ maxCacheArchiveBytes ∧ finishHex (sha256 bytes) = digest ∧
      s.world.contents (blobFile stage) = some bytes ∧ s'.world.cache digest = some ino ∧
      (s'.world.inode ino).contents.length ≤ maximum.toNat := by
  simp only [step] at hstep
  split at hstep
  · rename_i task htask
    cases hstep
    rcases hmove : advance sha256 amount s.world task with ⟨progress, w⟩
    rw [hmove] at hreturned
    cases progress with
    | goesOn next => exact absurd (List.self_eq_append_right.mp hreturned) (List.cons_ne_nil _ _)
    | returns value =>
        obtain rfl : value = .cached stage expected maximum (.ok ()) :=
          (List.cons.inj (List.append_cancel_left hreturned)).1
        obtain ⟨digest, bytes, rfl, hok⟩ := advance_eq_cached (congrArg Prod.fst hmove)
        obtain ⟨_, hdigest, hmaximum, hlength, hbytes, hread⟩ := h.task agent _ htask
        obtain rfl : (run (publishSourceBlob sha256 stage bytes digest maximum) s.world).2 = w :=
          congrArg Prod.snd hmove
        rcases @run_publishSourceBlob sha256 s.world stage digest bytes maximum
          (h.tidy.cachePart stage) with ⟨e, hrun⟩ | ⟨hstage, hrun, ino, hcached, _, hfits⟩ |
            ⟨hstage, _, hrun⟩
        · rw [hrun] at hok
          cases hok
        · refine ⟨digest, bytes, ino, hdigest, hmaximum, hbytes, hread hstage, ?_⟩
          rw [hrun]
          exact ⟨hcached, hfits⟩
        · refine ⟨digest, bytes, s.world.nextIno, hdigest, hmaximum, hbytes, hread hstage, ?_⟩
          rw [hrun]
          have hinode : (s.world.publish digest bytes).inode s.world.nextIno = ⟨bytes, 1⟩ :=
            Function.update_self ..
          exact ⟨Function.update_self .., (congrArg (·.contents.length) hinode).trans_le hlength⟩
  · cases hstep

end Histories

end Prep.Store.Source
