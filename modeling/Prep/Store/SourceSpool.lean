/-
  Store/SourceSpool.lean --- spools of one stage, however their moves are interleaved.

  A spool has the part of its stage for itself from the stay under the lock that makes it
  to the move that renames or removes it.  What others do meanwhile leaves the part as it
  is, so that at the end it holds what the reader has delivered.

  Scope: the histories of `Store/SourceStages.lean`.  The reader may fail at any point, and how
  often it is interrupted does not matter.  What a process leaves that dies under way is said in
  `Store/SourceCrash.lean`.
-/
import Prep.Store.SourceCache

set_option autoImplicit false

namespace Prep.Store.Source

open Prep.Core (Sha256Output finishHex)
open Prep.Io (IoError Reader)
open Prep.Machine
open Prep.Text

/-! ## What others leave of a part -/

/-- What a step leaves of a stage that it does not spool: no name is new, and the part stays
as it is. -/
structure World.Leaves (w w' : World) (stage : Bytes) : Prop where
  names : ∀ name ino, w'.find (.staged stage name) = some ino →
    w.find (.staged stage name) = some ino
  part : ∀ ino, (w'.stage stage).isSome = true → w.find (partFile stage) = some ino →
    w'.find (partFile stage) = some ino ∧ w'.inode ino = w.inode ino

section Leaves

variable {sha256 : Bytes → Sha256Output} {w w' : World} {stage : Bytes}

theorem World.Leaves.refl (w : World) (stage : Bytes) : w.Leaves w stage :=
  ⟨fun _ _ => id, fun _ _ h => ⟨h, rfl⟩⟩

/-- The names are the same, and so are the files that were there. -/
theorem leaves_of_same (hfind : ∀ name, w'.find (.staged stage name) = w.find (.staged stage name))
    (hsame : ∀ ino, w.find (partFile stage) = some ino → w'.inode ino = w.inode ino) :
    w.Leaves w' stage :=
  ⟨fun name _ h => (hfind name).symm.trans h,
    fun ino _ h => ⟨(hfind _).trans h, hsame ino h⟩⟩

/-- A new file is not the part. -/
theorem inode_update_nextIno (h : w.Tidy sha256) {file : FileName} {inode : Inode} {ino : Nat}
    (hfound : w.find file = some ino) :
    Function.update w.inode w.nextIno inode ino = w.inode ino :=
  Function.update_of_ne (Nat.ne_of_lt (h.named file ino hfound).1) _ _

theorem leaves_removeStage (h : w.Tidy sha256) (other : Bytes) :
    w.Leaves (respond (.removeStage other) w).2 stage := by
  rw [respond]
  cases hentries : w.stage other with
  | none => exact World.Leaves.refl w stage
  | some entries =>
      obtain ⟨inode, hworld, hsame⟩ := unlinkEntries_spec entries stageNames w
      dsimp only
      rw [hworld]
      show w.Leaves (w.withoutStage other inode) stage
      refine ⟨fun name ino hfound => ?_, fun ino halive hpart => ?_⟩
      · rcases find_withoutStage inode (.staged stage name) with ⟨_, hnone⟩ | ⟨_, heq⟩
        · rw [hnone] at hfound
          cases hfound
        · rw [heq] at hfound
          exact hfound
      · obtain ⟨hne, _⟩ := stage_withoutStage halive
        have hstays : (w.withoutStage other inode).find (partFile stage) = some ino := by
          rcases find_withoutStage inode (partFile stage) with ⟨⟨_, heq⟩, _⟩ | ⟨_, heq⟩
          · exact absurd (FileName.staged.inj heq).1 hne
          · exact heq.trans hpart
        refine ⟨hstays, hsame ino fun name hname => hne ?_⟩
        have hfound : w.find (.staged other name) = some ino := by
          rw [World.find, hentries, Option.bind_some, hname]
        exact (FileName.staged.inj (h.single _ _ ino hpart hfound)).1

/-- A sweep makes no stage and leaves the parts of those that stay. -/
theorem leaves_of_sweeps {α : Type} {program : Program Call Answer α}
    (hprogram : program.Only Call.Sweeps) (h : w.Tidy sha256) :
    w.Leaves (program.eval respond w).2 stage := by
  have hcall : ∀ c (v : World), Call.Sweeps c → v.Tidy sha256 → v.Leaves (respond c v).2 stage := by
    intro c v hc hv
    cases hc with
    | reads hreads =>
        rw [respond_reads hreads]
        exact World.Leaves.refl v stage
    | removeStage other => exact leaves_removeStage hv other
    | tryLockLease other | removeLease other =>
        rw [respond]
        split <;> exact leaves_of_same (fun _ => rfl) fun _ _ => rfl
  have hinv : ∀ c (v : World), Call.Sweeps c →
      w.Moves sha256 noPart v ∧ w.Leaves v stage →
        w.Moves sha256 noPart (respond c v).2 ∧ w.Leaves (respond c v).2 stage := by
    rintro c v hc ⟨hmoves, hleaves⟩
    have hnext := moves_sweeps hmoves.tidy hc
    obtain ⟨hnames, hpart⟩ := hcall c v hc hmoves.tidy
    refine ⟨hmoves.trans hnext h, fun name ino hfound => hleaves.names name ino
      (hnames name ino hfound), fun ino hlast hfound => ?_⟩
    have hdrawn := hmoves.spares.drawn _ (h.drawn stage (isSome_stage_of_find hfound))
    obtain ⟨hmid, hsame⟩ := hleaves.part ino (hnext.spares.stage stage hdrawn hlast) hfound
    obtain ⟨hend, hsame'⟩ := hpart ino hlast hmid
    exact ⟨hend, hsame'.trans hsame⟩
  exact (hprogram.eval hinv ⟨moves_refl h, World.Leaves.refl w stage⟩).2

end Leaves

/-! ## Steps of others -/

/-- The step is one of a spool of the stage. -/
def Step.SpoolsAt (s : State) (stage : Bytes) : Step → Prop
  | .spool _ other _ _ => other = stage
  | .move agent _ => ∃ task, s.task agent = some task ∧ task.Spools ∧ task.stage = stage
  | _ => False

theorem after_world (s : State) (agent : Agent) (p : Progress × World) :
    (s.after agent p).world = p.2 := by
  obtain ⟨_ | _, w⟩ := p <;> rfl

section Others

theorem find_setName_other {w : World} {stage other : Bytes} (h : stage ≠ other)
    (name : Bytes) (ino : Option Nat) (name' : Bytes) :
    (w.setName (.staged other name') ino).find (.staged stage name) =
      w.find (.staged stage name) := by
  simp only [World.setName, World.find, Function.update_of_ne h]

variable {sha256 : Bytes → Sha256Output} {s s' : State} {stage : Bytes}

theorem leaves_advance (h : s.Sound sha256) {agent : Agent} {task : Task} (amount : Nat)
    (htask : s.task agent = some task) (hother : ¬ (task.Spools ∧ task.stage = stage)) :
    s.world.Leaves (advance sha256 amount s.world task).2 stage := by
  obtain ⟨_, hsound⟩ := h.task agent task htask
  cases task with
  | copying other ino input maximum total =>
      have hfills : s.world.Fills other ino := hsound
      show s.world.Leaves (copyPass other ino input maximum total s.world).2 stage
      rw [copyPass]
      split
      · exact World.Leaves.refl _ _
      · exact World.Leaves.refl _ _
      · exact World.Leaves.refl _ _
      · dsimp only
        split
        · exact World.Leaves.refl _ _
        · refine leaves_of_same (fun name => setInode_find _ _) fun ino' hpart => ?_
          refine Function.update_of_ne (fun heq => hother ⟨trivial, ?_⟩) _ _
          exact (partFile_inj (hfills.only _ (heq ▸ hpart))).symm
  | sealing other ino total =>
      have hworld := run_reads (reads_sealPart other ino) s.world
      rw [advance]
      split <;> rename_i hrun <;> rw [hrun] at hworld <;> subst hworld <;>
        exact World.Leaves.refl _ _
  | completing other ino total =>
      have hne : stage ≠ other := fun heq => hother ⟨trivial, heq.symm⟩
      rw [advance]
      rcases run_completePart s.world other with ⟨e, hrun⟩ | ⟨ino', _, _, hrun⟩
      · rw [hrun]
        exact World.Leaves.refl _ _
      · rw [hrun]
        refine leaves_of_same (fun name => ?_) fun ino' _ => ?_
        · exact (find_setName_other hne _ _ _).trans (find_setName_other hne _ _ _)
        · show (s.world.moveFile _ (partFile other) (blobFile other)).inode ino' = _
          rw [World.moveFile, setName_inode, setName_inode]
  | discarding other e =>
      have hne : stage ≠ other := fun heq => hother ⟨trivial, heq.symm⟩
      show s.world.Leaves (respond (.remove (partFile other)) s.world).2 stage
      rw [respond]
      cases hpart : s.world.find (partFile other) with
      | none => exact World.Leaves.refl _ _
      | some ino =>
          refine leaves_of_same (fun name => ?_) fun ino' hfound => ?_
          · exact (find_setName_other hne _ _ _).trans (unlink_find ino)
          · show (s.world.removeFile ino (partFile other)).inode ino' = _
            rw [World.removeFile, setName_inode]
            refine Function.update_of_ne (fun heq => hne ?_) _ _
            exact partFile_inj (h.tidy.single _ _ ino' hfound (heq ▸ hpart))
  | reading other ino digest expected maximum taken => exact World.Leaves.refl _ _
  | publishing other digest expected maximum bytes =>
      show s.world.Leaves
        (run (publishSourceBlob sha256 other bytes digest maximum) s.world).2 stage
      rcases @run_publishSourceBlob sha256 s.world other digest bytes maximum
        (h.tidy.cachePart other) with ⟨e, hrun⟩ | ⟨_, hrun, _⟩ | ⟨_, _, hrun⟩
      · rw [hrun]
        exact World.Leaves.refl _ _
      · rw [hrun]
        exact World.Leaves.refl _ _
      · rw [hrun]
        exact leaves_of_same (fun _ => rfl) fun ino hpart => inode_update_nextIno h.tidy hpart

/-- A step that is not of a spool of the stage leaves its part as it is. -/
theorem leaves_step (h : s.Sound sha256) {action : Step}
    (hstep : step sha256 s action = some s') (hother : ¬ action.SpoolsAt s stage) :
    s.world.Leaves s'.world stage := by
  cases action with
  | begin names =>
      simp only [step] at hstep
      split at hstep
      · rename_i hnames
        cases hstep
        obtain ⟨lease, hworld | ⟨other, hmem, hworld⟩⟩ := run_beginUnverifiedSource names
          { s.world with drawn := s.world.drawn ++ names }
        · rw [hworld]
          exact leaves_of_same (fun _ => rfl) fun _ _ => rfl
        · rw [hworld]
          have hnone : s.world.stage other = none := Option.not_isSome_iff_eq_none.mp
            fun hsome => hnames.2 other hmem (h.tidy.drawn other hsome)
          exact leaves_of_same (fun name => find_createStage hnone (.staged stage name))
            fun _ _ => rfl
      · cases hstep
  | spool agent other input maximum =>
      simp only [step] at hstep
      split at hstep
      · cases hstep
        rw [after_world, startSpool]
        rcases run_startPart s.world other with ⟨e, hrun⟩ | ⟨halive, _, hrun⟩
        · rw [hrun]
          exact World.Leaves.refl _ _
        · rw [hrun]
          have hdir : s.world.HasDir (partFile other) := halive
          refine leaves_of_same (fun name => ?_) fun ino hpart => inode_update_nextIno h.tidy hpart
          show (s.world.newFile (partFile other)).find _ = _
          rw [find_newFile hdir, if_neg]
          exact fun heq => hother (FileName.staged.inj heq).1.symm
      · cases hstep
  | cache agent other expected maximum =>
      simp only [step] at hstep
      split at hstep
      · cases hstep
        rw [after_world, startCache_world]
        exact World.Leaves.refl _ _
      · cases hstep
  | move agent amount =>
      simp only [step] at hstep
      split at hstep
      · rename_i task htask
        cases hstep
        rw [after_world]
        exact leaves_advance h amount htask fun hspools => hother ⟨task, htask, hspools⟩
      · cases hstep
  | drop other =>
      cases hstep
      exact leaves_of_sweeps (sweeps_dropStage other) h.tidy
  | abandon other =>
      cases hstep
      exact leaves_of_same (fun _ => rfl) fun _ _ => rfl
  | recover =>
      cases hstep
      exact leaves_of_sweeps sweeps_recoverAbandoned h.tidy

end Others

/-! ## One spool of a stage at a time -/

/-- A spool of the stage that has succeeded. -/
def Returned.succeeded (stage : Bytes) : Returned → Bool
  | .spooled other (.ok _) => decide (other = stage)
  | _ => false

/-- How many spools of a stage have succeeded. -/
def State.successes (s : State) (stage : Bytes) : Nat :=
  s.returned.countP (Returned.succeeded stage)

/-- The operation is a spool of the stage. -/
def Task.SpoolsOn (stage : Bytes) (task : Task) : Prop := task.Spools ∧ task.stage = stage

/-- A spool of the stage is in progress. -/
def State.Spooling (s : State) (stage : Bytes) : Prop :=
  ∃ agent task, s.task agent = some task ∧ task.SpoolsOn stage

/-- A spool is in progress only as long as there is no archive, a part is there only as long
as a spool is in progress, and an archive is there only when one spool has succeeded. -/
structure State.Serial (s : State) (stage : Bytes) : Prop where
  blob : s.Spooling stage → s.world.find (blobFile stage) = none
  part : (s.world.find (partFile stage)).isSome = true → s.Spooling stage
  once : s.successes stage ≤ 1
  full : (s.world.find (blobFile stage)).isSome = true → s.successes stage = 1
  empty : (s.world.stage stage).isSome = true → s.world.find (blobFile stage) = none →
    s.successes stage = 0
  fresh : stage ∉ s.world.drawn → s.successes stage = 0

section Serial

variable {sha256 : Bytes → Sha256Output} {s s' : State} {stage : Bytes}

/-- Names only go away, no spool begins, and a part has its spool. -/
theorem serial_of_names (hserial : s.Serial stage) (hlater : s.world.Later s'.world)
    (hnames : ∀ name ino, s'.world.find (.staged stage name) = some ino →
      s.world.find (.staged stage name) = some ino)
    (hspooling : s'.Spooling stage → s.Spooling stage)
    (hpart : (s'.world.find (partFile stage)).isSome = true → s'.Spooling stage)
    (hsuccesses : s'.successes stage = s.successes stage) : s'.Serial stage where
  blob h := by
    have hnone := hserial.blob (hspooling h)
    cases hblob : s'.world.find (blobFile stage) with
    | none => rfl
    | some ino => cases hnone.symm.trans (hnames _ ino hblob)
  part := hpart
  once := hsuccesses ▸ hserial.once
  full h := by
    obtain ⟨ino, hino⟩ := Option.isSome_iff_exists.mp h
    exact hsuccesses.trans
      (hserial.full (Option.isSome_iff_exists.mpr ⟨ino, hnames _ ino hino⟩))
  empty halive hnone := by
    rw [hsuccesses]
    by_cases hdrawn : stage ∈ s.world.drawn
    · refine hserial.empty (hlater.stage stage hdrawn halive) ?_
      cases hblob : s.world.find (blobFile stage) with
      | none => rfl
      | some ino => cases hnone.symm.trans (hlater.blob stage ino halive hblob).1
    · exact hserial.fresh hdrawn
  fresh hdrawn := hsuccesses.trans (hserial.fresh fun h => hdrawn (hlater.drawn stage h))

/-- Names only go away, and the same spools are in progress. -/
theorem serial_of_same (hserial : s.Serial stage) (hlater : s.world.Later s'.world)
    (hnames : ∀ name ino, s'.world.find (.staged stage name) = some ino →
      s.world.find (.staged stage name) = some ino)
    (hspooling : s'.Spooling stage ↔ s.Spooling stage)
    (hsuccesses : s'.successes stage = s.successes stage) : s'.Serial stage := by
  refine serial_of_names hserial hlater hnames hspooling.mp (fun h => ?_) hsuccesses
  obtain ⟨ino, hino⟩ := Option.isSome_iff_exists.mp h
  exact hspooling.mpr (hserial.part (Option.isSome_iff_exists.mpr ⟨ino, hnames _ ino hino⟩))

/-- What an operation goes on with is about the same stage. -/
theorem advance_goesOn {w : World} {amount : Nat} {task next : Task}
    (h : (advance sha256 amount w task).1 = .goesOn next) :
    next.SpoolsOn stage ↔ task.SpoolsOn stage := by
  cases task with
  | copying other ino input maximum total =>
      obtain rfl : (copyPass other ino input maximum total w).1 = next := Progress.goesOn.inj h
      rw [copyPass]
      split
      · exact Iff.rfl
      · exact Iff.rfl
      · exact Iff.rfl
      · dsimp only
        split <;> exact Iff.rfl
  | sealing other ino total =>
      rw [advance] at h
      split at h <;> cases h <;> exact Iff.rfl
  | completing other ino total =>
      rw [advance] at h
      split at h <;> cases h
      exact Iff.rfl
  | discarding other e => cases h
  | reading other ino digest expected maximum taken =>
      rw [advance, readPass] at h
      split at h
      · split at h
        · cases h
        · split at h <;> cases h
          exact Iff.rfl
      · cases h
        exact Iff.rfl
  | publishing => cases h

/-- Only a spool of the stage returns that it has succeeded. -/
theorem advance_succeeded {w : World} {amount : Nat} {task : Task} {value : Returned}
    (h : (advance sha256 amount w task).1 = .returns value)
    (hsucceeded : value.succeeded stage = true) :
    ∃ ino total, task = .completing stage ino total ∧ value = .spooled stage (.ok total) ∧
      (run (completePart stage) w).1 = .ok () := by
  cases task with
  | copying => cases h
  | sealing =>
      rw [advance] at h
      split at h <;> cases h
  | completing other ino total =>
      rw [advance] at h
      split at h
      · rename_i hrun
        cases h
        obtain rfl : other = stage := of_decide_eq_true hsucceeded
        exact ⟨ino, total, rfl, rfl, congrArg Prod.fst hrun⟩
      · cases h
  | discarding =>
      cases h
      cases hsucceeded
  | reading =>
      rw [advance, readPass] at h
      split at h
      · split at h
        · cases h
          cases hsucceeded
        · split at h <;> cases h
          cases hsucceeded
      · cases h
  | publishing =>
      cases h
      cases hsucceeded

/-- A spool of the stage is in progress, and it is not that of `agent`. -/
def State.SpoolingBut (s : State) (agent : Agent) (stage : Bytes) : Prop :=
  ∃ other task, other ≠ agent ∧ s.task other = some task ∧ task.SpoolsOn stage

theorem spooling_iff (agent : Agent) :
    s.Spooling stage ↔ (∃ task, s.task agent = some task ∧ task.SpoolsOn stage) ∨
      s.SpoolingBut agent stage := by
  constructor
  · rintro ⟨other, task, htask, hspools⟩
    by_cases heq : other = agent
    · exact .inl ⟨task, heq ▸ htask, hspools⟩
    · exact .inr ⟨other, task, heq, htask, hspools⟩
  · rintro (⟨task, htask, hspools⟩ | ⟨other, task, _, htask, hspools⟩)
    · exact ⟨agent, task, htask, hspools⟩
    · exact ⟨other, task, htask, hspools⟩

theorem spoolingBut_of_update {agent : Agent} {task : Option Task}
    (h : s'.task = Function.update s.task agent task) :
    s'.SpoolingBut agent stage ↔ s.SpoolingBut agent stage := by
  unfold State.SpoolingBut
  refine exists_congr fun other => exists_congr fun found => and_congr_right fun hne => ?_
  rw [h, Function.update_of_ne hne]

theorem spooling_goesOn {agent : Agent} {next : Task} {w : World} :
    (s.after agent (.goesOn next, w)).Spooling stage ↔
      next.SpoolsOn stage ∨ s.SpoolingBut agent stage := by
  rw [spooling_iff agent]
  refine or_congr ?_ (spoolingBut_of_update rfl)
  have htask : (s.after agent (.goesOn next, w)).task agent = some next := Function.update_self ..
  rw [htask]
  exact ⟨fun ⟨_, heq, hspools⟩ => Option.some.inj heq ▸ hspools, fun h => ⟨next, rfl, h⟩⟩

theorem spooling_returns {agent : Agent} {value : Returned} {w : World} :
    (s.after agent (.returns value, w)).Spooling stage ↔ s.SpoolingBut agent stage := by
  rw [spooling_iff agent]
  refine Iff.trans (or_iff_right ?_) (spoolingBut_of_update rfl)
  have htask : (s.after agent (.returns value, w)).task agent = none := Function.update_self ..
  rw [htask]
  rintro ⟨_, heq, _⟩
  cases heq

theorem successes_returns {agent : Agent} {value : Returned} {w : World} :
    (s.after agent (.returns value, w)).successes stage =
      s.successes stage + if value.succeeded stage = true then 1 else 0 := by
  show (s.returned ++ [value]).countP _ = _
  rw [List.countP_append, List.countP_singleton]
  rfl

/-- The spool of a stage is the only one. -/
theorem not_spoolingBut (h : s.Sound sha256) {agent : Agent} {task : Task}
    (htask : s.task agent = some task) (hspools : task.SpoolsOn stage) :
    ¬ s.SpoolingBut agent stage := by
  rintro ⟨other, task', hne, htask', hspools'⟩
  exact hne (h.alone other agent task' task htask' htask hspools'.1 hspools.1
    (hspools'.2.trans hspools.2.symm))

/-- A step of an agent that spools the stage neither before nor after it. -/
theorem serial_after (hserial : s.Serial stage) {agent : Agent} {progress : Progress} {w : World}
    (hlater : s.world.Later w) (hleaves : s.world.Leaves w stage)
    (hbefore : ∀ task, s.task agent = some task → ¬ task.SpoolsOn stage)
    (hnext : ∀ next, progress = .goesOn next → ¬ next.SpoolsOn stage)
    (hvalue : ∀ value, progress = .returns value → value.succeeded stage = false) :
    (s.after agent (progress, w)).Serial stage := by
  have hthen : s.Spooling stage ↔ s.SpoolingBut agent stage :=
    (spooling_iff agent).trans
      (or_iff_right fun ⟨task, htask, hspools⟩ => hbefore task htask hspools)
  cases progress with
  | goesOn next =>
      refine serial_of_same hserial hlater hleaves.names ?_ rfl
      rw [hthen, spooling_goesOn]
      exact or_iff_right (hnext next rfl)
  | returns value =>
      refine serial_of_same hserial hlater hleaves.names ?_ ?_
      · rw [hthen, spooling_returns]
      · rw [successes_returns, hvalue value rfl]
        rfl

/-- A spool of the stage that goes on. -/
theorem serial_goesOn (hserial : s.Serial stage) {agent : Agent} {task next : Task} {w : World}
    (hlater : s.world.Later w)
    (hnames : ∀ name ino, w.find (.staged stage name) = some ino →
      s.world.find (.staged stage name) = some ino)
    (htask : s.task agent = some task) (hspools : task.SpoolsOn stage)
    (hnext : next.SpoolsOn stage) : (s.after agent (.goesOn next, w)).Serial stage :=
  serial_of_same hserial hlater hnames
    ⟨fun _ => ⟨agent, task, htask, hspools⟩, fun _ => spooling_goesOn.mpr (.inl hnext)⟩ rfl

theorem copyPass_find (stage : Bytes) (ino : Nat) (input : Reader) (maximum : UInt64) (total : Nat)
    (w : World) (file : FileName) :
    (copyPass stage ino input maximum total w).2.find file = w.find file := by
  rw [copyPass]
  split
  · rfl
  · rfl
  · rfl
  · dsimp only
    split
    · rfl
    · exact setInode_find _ _

/-- The move that makes the part the archive. -/
theorem serial_completed (h : s.Sound sha256) (hserial : s.Serial stage) {agent : Agent}
    {ino total found : Nat} (htask : s.task agent = some (.completing stage ino total))
    (hpart : s.world.find (partFile stage) = some found) :
    (s.after agent (.returns (.spooled stage (.ok total)),
      s.world.moveFile found (partFile stage) (blobFile stage))).Serial stage := by
  have hspools : (Task.completing stage ino total).SpoolsOn stage := ⟨trivial, rfl⟩
  have halive := isSome_stage_of_find hpart
  have hblob := hserial.blob ⟨agent, _, htask, hspools⟩
  have hdir : s.world.HasDir (partFile stage) := halive
  have hdir' : (s.world.setName (partFile stage) none).HasDir (blobFile stage) :=
    hasDir_setName.mpr halive
  have hnot : ¬ (s.after agent (.returns (.spooled stage (.ok total)),
      s.world.moveFile found (partFile stage) (blobFile stage))).Spooling stage :=
    spooling_returns.not.mpr (not_spoolingBut h htask hspools)
  have hone : (s.after agent (.returns (.spooled stage (.ok total)),
      s.world.moveFile found (partFile stage) (blobFile stage))).successes stage = 1 := by
    have hself : (Returned.spooled stage (.ok total)).succeeded stage = true := decide_eq_true rfl
    rw [successes_returns, hserial.empty halive hblob, if_pos hself]
  refine ⟨fun hyes => absurd hyes hnot, fun hsome => ?_, hone.le, fun _ => hone,
    fun _ hnone => ?_, fun hdrawn => ?_⟩
  · replace hsome : ((s.world.moveFile found (partFile stage) (blobFile stage)).find
        (partFile stage)).isSome = true := hsome
    rw [World.moveFile, find_setName hdir', if_neg (blob_ne_part stage stage).symm,
      find_setName hdir, if_pos rfl] at hsome
    cases hsome
  · replace hnone : (s.world.moveFile found (partFile stage) (blobFile stage)).find
        (blobFile stage) = none := hnone
    rw [World.moveFile, find_setName hdir', if_pos rfl] at hnone
    cases hnone
  · have hkept : (s.world.moveFile found (partFile stage) (blobFile stage)).drawn =
        s.world.drawn := by
      rw [World.moveFile, setName_drawn, setName_drawn]
    exact absurd (h.task agent _ htask).1 fun hmem => hdrawn (hkept.symm ▸ hmem)

theorem find_removePart (w : World) (stage : Bytes) (file : FileName) :
    (respond (.remove (partFile stage)) w).2.find file =
      if file = partFile stage then none else w.find file := by
  rw [respond]
  cases hpart : w.find (partFile stage) with
  | none =>
      dsimp only
      split
      · rename_i heq
        exact heq ▸ hpart
      · rfl
  | some ino =>
      have hdir : (w.unlink ino).HasDir (partFile stage) :=
        hasDir_of_find ((unlink_find ino).trans hpart)
      exact (find_setName hdir).trans (by rw [unlink_find])

/-- The move that removes the part. -/
theorem serial_discarded (h : s.Sound sha256) (hserial : s.Serial stage) {agent : Agent}
    {e : StoreError} (htask : s.task agent = some (.discarding stage e)) :
    (s.after agent (.returns (.spooled stage (.error e)),
      (respond (.remove (partFile stage)) s.world).2)).Serial stage := by
  have hspools : (Task.discarding stage e).SpoolsOn stage := ⟨trivial, rfl⟩
  refine serial_of_names hserial (moves_removePart h.tidy stage).spares.toLater
    (fun name ino hfound => ?_) (fun _ => ⟨agent, _, htask, hspools⟩) (fun hsome => ?_) ?_
  · rw [after_world, find_removePart] at hfound
    split at hfound
    · cases hfound
    · exact hfound
  · rw [after_world, find_removePart, if_pos rfl] at hsome
    cases hsome
  · rw [successes_returns]
    rfl

/-- A move of a spool of the stage. -/
theorem serial_spooling (h : s.Sound sha256) (hserial : s.Serial stage) {agent : Agent}
    {task : Task} {amount : Nat} (htask : s.task agent = some task)
    (hspools : task.SpoolsOn stage) :
    (s.after agent (advance sha256 amount s.world task)).Serial stage := by
  obtain ⟨hkind, rfl⟩ := hspools
  cases task with
  | copying stage ino input maximum total =>
      have hlater := (advances_copyPass h htask).later
      refine serial_goesOn hserial hlater (fun name ino' hfound => ?_) htask ⟨trivial, rfl⟩ ?_
      · exact (copyPass_find stage ino input maximum total s.world _).symm.trans hfound
      · exact (@advance_goesOn sha256 stage s.world amount
          (.copying stage ino input maximum total) _ rfl).mpr ⟨trivial, rfl⟩
  | sealing stage ino total =>
      have hworld := run_reads (reads_sealPart stage ino) s.world
      rw [advance]
      split <;> rename_i hrun <;> rw [hrun] at hworld <;> subst hworld
      · exact serial_goesOn hserial (World.Later.refl _) (fun _ _ => id) htask ⟨trivial, rfl⟩
          ⟨trivial, rfl⟩
      · exact serial_goesOn hserial (World.Later.refl _) (fun _ _ => id) htask ⟨trivial, rfl⟩
          ⟨trivial, rfl⟩
  | completing stage ino total =>
      rw [advance]
      rcases run_completePart s.world stage with ⟨e, hrun⟩ | ⟨found, hpart, _, hrun⟩
      · rw [hrun]
        exact serial_goesOn hserial (World.Later.refl _) (fun _ _ => id) htask ⟨trivial, rfl⟩
          ⟨trivial, rfl⟩
      · rw [hrun]
        exact serial_completed h hserial htask hpart
  | discarding stage e => exact serial_discarded h hserial htask
  | reading => exact hkind.elim
  | publishing => exact hkind.elim

theorem run_startPart_ok {w w' : World} {ino : Nat} (h : run (startPart stage) w = (.ok ino, w')) :
    w.find (blobFile stage) = none := by
  obtain ⟨_, v, hverify, hrest⟩ := run_bind_eq_ok h
  have hv : v = w := by rw [← run_reads (reads_verifyStage stage) w, hverify]
  rw [hv, run_bind_ok run_nodeExists] at hrest
  cases hblob : w.find (blobFile stage) with
  | none => rfl
  | some ino =>
      rw [hblob] at hrest
      cases hrest

/-- The first move of a spool. -/
theorem serial_startSpool (h : s.Sound sha256) (hserial : s.Serial stage) {agent : Agent}
    (hidle : s.task agent = none) (other : Bytes) (input : Reader) (maximum : UInt64)
    (hlater : s.world.Later (startSpool other input maximum s.world).2)
    (hleaves : other ≠ stage →
      s.world.Leaves (startSpool other input maximum s.world).2 stage) :
    (s.after agent (startSpool other input maximum s.world)).Serial stage := by
  have hbefore : ∀ task, s.task agent = some task → ¬ task.SpoolsOn stage := by
    intro task htask
    rw [hidle] at htask
    cases htask
  rw [startSpool] at hlater hleaves ⊢
  rcases run_startPart s.world other with ⟨e, hrun⟩ | ⟨halive, hpart, hrun⟩
  · rw [hrun]
    refine serial_after hserial (World.Later.refl _) (World.Leaves.refl _ _) hbefore
      (fun _ heq => (by cases heq)) fun value heq => ?_
    cases heq
    rfl
  · rw [hrun] at hlater hleaves ⊢
    by_cases heq : other = stage
    · subst heq
      have hblob := run_startPart_ok hrun
      have hdir : s.world.HasDir (partFile other) := halive
      have hkept : (s.world.newFile (partFile other)).find (blobFile other) = none := by
        rw [find_newFile hdir, if_neg (blob_ne_part other other), hblob]
      refine ⟨fun _ => hkept, fun _ => spooling_goesOn.mpr (.inl ⟨trivial, rfl⟩), hserial.once,
        fun hsome => ?_, fun _ _ => hserial.empty halive hblob, fun hdrawn => ?_⟩
      · replace hsome : ((s.world.newFile (partFile other)).find (blobFile other)).isSome = true :=
          hsome
        rw [hkept] at hsome
        cases hsome
      · exact absurd (hlater.drawn other (h.tidy.drawn other halive)) hdrawn
    · refine serial_after hserial hlater (hleaves heq) hbefore (fun next hnext => ?_)
        fun value hvalue => (by cases hvalue)
      cases hnext
      exact fun hspools => heq hspools.2

theorem serial_step (h : s.Sound sha256) (hserial : s.Serial stage) {action : Step}
    (hstep : step sha256 s action = some s') : s'.Serial stage := by
  obtain ⟨_, hlater⟩ := sound_step h hstep
  by_cases hother : action.SpoolsAt s stage
  · cases action with
    | spool agent other input maximum =>
        simp only [step] at hstep
        split at hstep
        · rename_i hidle
          cases hstep
          rw [after_world] at hlater
          exact serial_startSpool h hserial hidle other input maximum hlater
            fun hne => absurd hother hne
        · cases hstep
    | move agent amount =>
        obtain ⟨task, htask, hspools⟩ := hother
        simp only [step, htask] at hstep
        cases hstep
        exact serial_spooling h hserial htask hspools
    | _ => exact hother.elim
  · have hleaves := leaves_step h hstep hother
    cases action with
    | begin names =>
        simp only [step] at hstep
        split at hstep
        · cases hstep
          exact serial_of_same hserial hlater hleaves.names Iff.rfl rfl
        · cases hstep
    | spool agent other input maximum =>
        simp only [step] at hstep
        split at hstep
        · rename_i hidle
          cases hstep
          rw [after_world] at hlater hleaves
          exact serial_startSpool h hserial hidle other input maximum hlater fun _ => hleaves
        · cases hstep
    | cache agent other expected maximum =>
        simp only [step] at hstep
        split at hstep
        · rename_i hidle
          cases hstep
          rw [after_world] at hlater hleaves
          refine serial_after hserial hlater hleaves (fun task htask => ?_)
            (fun next hnext => ?_) fun value hvalue => ?_
          · rw [hidle] at htask
            cases htask
          · rcases startCache_progress other expected maximum s.world with
              ⟨result, heq⟩ | ⟨ino, digest, heq⟩
            · cases heq.symm.trans hnext
            · cases heq.symm.trans hnext
              exact fun hspools => hspools.1
          · rcases startCache_progress other expected maximum s.world with
              ⟨result, heq⟩ | ⟨ino, digest, heq⟩
            · cases heq.symm.trans hvalue
              rfl
            · cases heq.symm.trans hvalue
        · cases hstep
    | move agent amount =>
        simp only [step] at hstep
        split at hstep
        · rename_i task htask
          cases hstep
          have hnot : ¬ task.SpoolsOn stage := fun hspools => hother ⟨task, htask, hspools⟩
          rw [after_world] at hlater hleaves
          refine serial_after hserial hlater hleaves (fun task' htask' => ?_)
            (fun next hnext => (advance_goesOn hnext).not.mpr hnot) fun value hvalue => ?_
          · obtain rfl : task = task' := Option.some.inj (htask.symm.trans htask')
            exact hnot
          · refine Bool.eq_false_iff.mpr fun hsucceeded => hnot ?_
            obtain ⟨ino, total, rfl, _⟩ := advance_succeeded hvalue hsucceeded
            exact ⟨trivial, rfl⟩
        · cases hstep
    | drop other | abandon other | recover =>
        cases hstep
        exact serial_of_same hserial hlater hleaves.names Iff.rfl rfl

end Serial

/-! ## A call from its first move to its last -/

/-- What a spool of a reader has put into the part: what has been read, while there is more
to read, and at the end of the input all of it. -/
def Task.Filled (stage : Bytes) (input : Reader) (maximum : UInt64) (w : World) : Task → Prop
  | .copying other ino rest limit total => other = stage ∧ limit = maximum ∧
      ∃ taken, input.contents = rest.contents.map (taken ++ ·) ∧ taken.length = total ∧
        total ≤ maximum.toNat ∧
        ((w.stage stage).isSome = true → (w.inode ino).contents = taken)
  | .sealing other ino total | .completing other ino total => other = stage ∧
      ∃ taken, input.contents = some taken ∧ taken.length = total ∧ total ≤ maximum.toNat ∧
        ((w.stage stage).isSome = true → (w.inode ino).contents = taken)
  | .discarding other _ => other = stage
  | .reading _ _ _ _ _ _ | .publishing _ _ _ _ _ => False

/-- What a call leaves: with `ok`, all that the reader delivers as the archive of the stage,
and with an error no archive. -/
def Leads (stage : Bytes) (input : Reader) (maximum : UInt64) (w : World) :
    Except StoreError Nat → Prop
  | .ok total => ∃ bytes, input.contents = some bytes ∧ bytes.length = total ∧
      total ≤ maximum.toNat ∧ w.contents (blobFile stage) = some bytes
  | .error _ => w.find (blobFile stage) = none

section Calls

variable {sha256 : Bytes → Sha256Output} {s s' : State} {stage : Bytes} {input : Reader}
  {maximum : UInt64} {agent : Agent}

/-- A spool has its part. -/
theorem Task.Sound.part {task : Task} {w : World} (h : task.Sound sha256 w)
    (hspools : task.SpoolsOn stage) (halive : (w.stage stage).isSome = true) :
    (w.find (partFile stage)).isSome = true := by
  obtain ⟨hkind, rfl⟩ := hspools
  cases task with
  | copying | sealing | completing =>
      exact Option.isSome_iff_exists.mpr ⟨_, World.Fills.part h halive⟩
  | discarding => exact h halive
  | reading => exact hkind.elim
  | publishing => exact hkind.elim

theorem Task.Filled.spoolsOn {task : Task} {w : World} (h : task.Filled stage input maximum w) :
    task.SpoolsOn stage := by
  cases task with
  | copying => exact ⟨trivial, h.1⟩
  | sealing => exact ⟨trivial, h.1⟩
  | completing => exact ⟨trivial, h.1⟩
  | discarding => exact ⟨trivial, h⟩
  | reading => exact h.elim
  | publishing => exact h.elim

/-- What others do takes nothing from the part. -/
theorem filled_others (h : s.Sound sha256) {action : Step}
    (hstep : step sha256 s action = some s') (hother : ¬ action.SpoolsAt s stage) {task : Task}
    (htask : s.task agent = some task) (hfilled : task.Filled stage input maximum s.world) :
    task.Filled stage input maximum s'.world := by
  obtain ⟨hdrawn, hsound⟩ := h.task agent task htask
  have hleaves := leaves_step h hstep hother
  obtain ⟨_, hlater⟩ := sound_step h hstep
  have hstays : ∀ ino taken, s.world.Fills stage ino → stage ∈ s.world.drawn →
      ((s.world.stage stage).isSome = true → (s.world.inode ino).contents = taken) →
        (s'.world.stage stage).isSome = true → (s'.world.inode ino).contents = taken := by
    intro ino taken hfills hmem hbefore halive
    have hwas := hlater.stage stage hmem halive
    obtain ⟨_, hsame⟩ := hleaves.part ino halive (hfills.part hwas)
    exact (congrArg Inode.contents hsame).trans (hbefore hwas)
  cases task with
  | copying other ino rest limit total =>
      obtain ⟨rfl, hlimit, taken, hread, hlength, hfits, hbefore⟩ := hfilled
      exact ⟨rfl, hlimit, taken, hread, hlength, hfits, hstays ino taken hsound hdrawn hbefore⟩
  | sealing other ino total =>
      obtain ⟨rfl, taken, hread, hlength, hfits, hbefore⟩ := hfilled
      exact ⟨rfl, taken, hread, hlength, hfits, hstays ino taken hsound hdrawn hbefore⟩
  | completing other ino total =>
      obtain ⟨rfl, taken, hread, hlength, hfits, hbefore⟩ := hfilled
      exact ⟨rfl, taken, hread, hlength, hfits, hstays ino taken hsound hdrawn hbefore⟩
  | discarding other e => exact hfilled
  | reading => exact hfilled.elim
  | publishing => exact hfilled.elim

/-- A pass of the copy loop appends what it has read. -/
theorem filled_copyPass {w : World} {ino total : Nat} {rest : Reader}
    (hfilled : (Task.copying stage ino rest maximum total).Filled stage input maximum w) :
    (copyPass stage ino rest maximum total w).1.Filled stage input maximum
      (copyPass stage ino rest maximum total w).2 := by
  obtain ⟨_, _, taken, hread, hlength, hfits, hbefore⟩ := hfilled
  rw [copyPass]
  split
  · rename_i next hpass
    rw [Reader.contents_of_interrupted hpass] at hread
    exact ⟨rfl, rfl, taken, hread, hlength, hfits, hbefore⟩
  · rfl
  · rename_i next hpass
    obtain rfl := Reader.eq_nil_of_read (by decide) hpass
    rw [Reader.contents_nil, Option.map_some, List.append_nil] at hread
    exact ⟨rfl, taken, hread, hlength, hfits, hbefore⟩
  · rename_i head tail next hpass
    dsimp only
    split
    · rfl
    · rename_i hroom
      rw [not_or, Nat.not_lt] at hroom
      refine ⟨rfl, rfl, taken ++ head :: tail, ?_, ?_, hroom.2, fun halive => ?_⟩
      · rw [hread, Reader.contents_of_read hpass, Option.map_map]
        congr 1
        funext bytes
        rw [Function.comp_apply, List.append_assoc]
      · rw [List.length_append, hlength, List.length_cons]
      · have hwrite : ((respond (.write ino (head :: tail)) w).2.inode ino) =
            ⟨(w.inode ino).contents ++ head :: tail, (w.inode ino).links⟩ :=
          Function.update_self ..
        rw [hwrite, hbefore halive]

/-- A move of the call: it goes on with what it has put into the part, or returns. -/
theorem filled_advance (h : s.Sound sha256) (hserial : s.Serial stage) {task : Task}
    {amount : Nat} (htask : s.task agent = some task)
    (hfilled : task.Filled stage input maximum s.world) :
    match advance sha256 amount s.world task with
    | (.goesOn next, w) => next.Filled stage input maximum w
    | (.returns value, w) =>
        ∃ result, value = .spooled stage result ∧ Leads stage input maximum w result := by
  have hblob := hserial.blob ⟨agent, task, htask, hfilled.spoolsOn⟩
  obtain ⟨_, hsound⟩ := h.task agent task htask
  cases task with
  | copying other ino rest limit total =>
      obtain ⟨rfl, rfl, _⟩ := id hfilled
      exact filled_copyPass hfilled
  | sealing other ino total =>
      obtain ⟨rfl, hrest⟩ := hfilled
      have hworld := run_reads (reads_sealPart other ino) s.world
      rw [advance]
      rcases hrun : run (sealPart other ino) s.world with ⟨⟨e⟩ | ⟨_⟩, w⟩
      · rfl
      · obtain rfl : w = s.world := by rw [← hworld, hrun]
        exact ⟨rfl, hrest⟩
  | completing other ino total =>
      obtain ⟨rfl, taken, hread, hlength, hfits, hbefore⟩ := hfilled
      have hfills : s.world.Fills other ino := hsound
      rw [advance]
      rcases run_completePart s.world other with ⟨e, hrun⟩ | ⟨found, hpart, _, hrun⟩
      · rw [hrun]
        rfl
      · rw [hrun]
        have halive := isSome_stage_of_find hpart
        have hdir' : (s.world.setName (partFile other) none).HasDir (blobFile other) :=
          hasDir_setName.mpr halive
        obtain rfl : found = ino := Option.some.inj (hpart.symm.trans (hfills.part halive))
        refine ⟨.ok total, rfl, taken, hread, hlength, hfits, ?_⟩
        rw [World.contents, World.moveFile, find_setName hdir', if_pos rfl, Option.map_some,
          setName_inode, setName_inode, hbefore halive]
  | discarding other e =>
      obtain rfl : other = stage := hfilled
      refine ⟨.error e, rfl, ?_⟩
      show (respond (.remove (partFile other)) s.world).2.find (blobFile other) = none
      rw [find_removePart, if_neg (blob_ne_part other other), hblob]
  | reading => exact hfilled.elim
  | publishing => exact hfilled.elim

/-- The step is one of the agent. -/
def Step.By (agent : Agent) : Step → Prop
  | .spool other _ _ _ | .cache other _ _ _ | .move other _ => other = agent
  | _ => False

/-- The step is a call of the agent. -/
def Step.CalledBy (agent : Agent) : Step → Prop
  | .spool other _ _ _ | .cache other _ _ _ => other = agent
  | _ => False

theorem after_task_other {agent other : Agent} (h : other ≠ agent) (p : Progress × World) :
    (s.after agent p).task other = s.task other := by
  obtain ⟨_ | _, w⟩ := p <;> exact Function.update_of_ne h _ _

/-- The operation of an agent waits for its next move. -/
theorem task_step {action : Step} (hstep : step sha256 s action = some s')
    (hother : ¬ action.By agent) : s'.task agent = s.task agent := by
  cases action with
  | begin names =>
      simp only [step] at hstep
      split at hstep
      · cases hstep
        rfl
      · cases hstep
  | spool other stage input maximum | cache other stage expected maximum =>
      simp only [step] at hstep
      split at hstep
      · cases hstep
        exact after_task_other (fun heq => hother heq.symm) _
      · cases hstep
  | move other amount =>
      simp only [step] at hstep
      split at hstep
      · cases hstep
        exact after_task_other (fun heq => hother heq.symm) _
      · cases hstep
  | drop | abandon | recover =>
      cases hstep
      rfl

/-- A step of anybody else leaves a call what it has put into the part. -/
theorem filled_step (h : s.Sound sha256) {action : Step}
    (hstep : step sha256 s action = some s') (hby : ¬ action.By agent) {task : Task}
    (htask : s.task agent = some task) (hfilled : task.Filled stage input maximum s.world) :
    task.Filled stage input maximum s'.world := by
  have hspools := hfilled.spoolsOn
  by_cases hother : action.SpoolsAt s stage
  · cases action with
    | move other amount =>
        obtain ⟨task', htask', hspools'⟩ := hother
        exact absurd (h.alone other agent task' task htask' htask hspools'.1 hspools.1
          (hspools'.2.trans hspools.2.symm)) hby
    | spool other stage' input' maximum' =>
        obtain rfl : stage' = stage := hother
        simp only [step] at hstep
        split at hstep
        · cases hstep
          rw [after_world, startSpool]
          rcases run_startPart s.world stage' with ⟨e, hrun⟩ | ⟨halive, hpart, _⟩
          · rw [hrun]
            exact hfilled
          · -- the part is there already
            have hsome := (h.task agent task htask).2.part hspools halive
            rw [hpart] at hsome
            cases hsome
        · cases hstep
    | begin | cache | drop | abandon | recover => exact hother.elim
  · exact filled_others h hstep hother htask hfilled

/-- An agent that does nothing makes no move before its next call. -/
theorem no_move_of_idle {steps : List Step} (hidle : s.task agent = none)
    (hsteps : history sha256 s steps = some s')
    (hcalls : ∀ action ∈ steps, ¬ action.CalledBy agent) (amount : Nat) :
    .move agent amount ∉ steps := by
  induction steps generalizing s with
  | nil => exact List.not_mem_nil
  | cons action steps ih =>
      obtain ⟨mid, hstep, hrest⟩ := Option.bind_eq_some_iff.mp hsteps
      obtain ⟨hcall, hcalls⟩ := List.forall_mem_cons.mp hcalls
      have hmove : ∀ amount, action ≠ .move agent amount := by
        rintro amount rfl
        simp only [step, hidle] at hstep
        cases hstep
      have hother : ¬ action.By agent := by
        cases action with
        | move other amount' => exact fun heq => hmove amount' (congrArg (Step.move · amount') heq)
        | spool => exact hcall
        | cache => exact hcall
        | begin | drop | abandon | recover => exact id
      rw [List.mem_cons, not_or]
      exact ⟨(hmove amount).symm, ih ((task_step hstep hother).trans hidle) hrest hcalls⟩

/-- A call of `spool_unverified_archive` with what happens from its first move to its last:
the others make steps of theirs, and the agent moves until it returns. -/
structure Call.Spools (sha256 : Bytes → Sha256Output) (s : State) (agent : Agent) (stage : Bytes)
    (input : Reader) (maximum : UInt64) (steps : List Step) (s' : State)
    (result : Except StoreError Nat) : Prop where
  runs : history sha256 s (.spool agent stage input maximum :: steps) = some s'
  calls : ∀ action ∈ steps, ¬ action.CalledBy agent
  last : ∀ action ∈ steps.getLast?, action.By agent
  idle : s'.task agent = none
  returned : s'.returned.getLast? = some (.spooled stage result)

/-- A call that is under way ends as it has to. -/
theorem leads_of_filled (h : s.Sound sha256) (hserial : s.Serial stage) {task : Task}
    (htask : s.task agent = some task) (hfilled : task.Filled stage input maximum s.world)
    {steps : List Step} (hsteps : history sha256 s steps = some s')
    (hcalls : ∀ action ∈ steps, ¬ action.CalledBy agent)
    (hlast : ∀ action ∈ steps.getLast?, action.By agent) (hidle : s'.task agent = none) :
    ∃ result, s'.returned.getLast? = some (.spooled stage result) ∧
      Leads stage input maximum s'.world result := by
  induction steps generalizing s task with
  | nil =>
      cases hsteps
      rw [hidle] at htask
      cases htask
  | cons action steps ih =>
      obtain ⟨mid, hstep, hrest⟩ := Option.bind_eq_some_iff.mp hsteps
      obtain ⟨hcall, hrestCalls⟩ := List.forall_mem_cons.mp hcalls
      have hmid := (sound_step h hstep).1
      have hmidSerial := serial_step h hserial hstep
      have hends : ∀ action ∈ steps.getLast?, action.By agent := by
        intro action' haction'
        refine hlast action' ?_
        cases steps with
        | nil => cases haction'
        | cons first rest => exact haction'
      by_cases hby : action.By agent
      · cases action with
        | move other amount =>
            obtain rfl : other = agent := hby
            have hmoved := @filled_advance sha256 s stage input maximum other h hserial task amount
              htask hfilled
            simp only [step, htask] at hstep
            cases hstep
            rcases hadvance : advance sha256 amount s.world task with ⟨next | value, w⟩
            · rw [hadvance] at hmoved hrest hmid hmidSerial
              exact ih hmid hmidSerial (Function.update_self ..) hmoved hrest hrestCalls hends
            · rw [hadvance] at hmoved hrest
              obtain ⟨result, rfl, hleads⟩ := hmoved
              -- the call has returned, and its last move was this one
              have hnil : steps = [] := by
                by_contra hne
                have hmem := List.getLast?_eq_some_getLast hne
                have hcalled := hrestCalls _ (List.getLast_mem hne)
                have hmoves := hends _ hmem
                cases hfinal : steps.getLast hne with
                | move agent' amount' =>
                    rw [hfinal] at hmoves
                    obtain rfl : agent' = other := hmoves
                    exact no_move_of_idle (Function.update_self ..) hrest hrestCalls amount'
                      (hfinal ▸ List.getLast_mem hne)
                | spool =>
                    rw [hfinal] at hmoves hcalled
                    exact hcalled hmoves
                | cache =>
                    rw [hfinal] at hmoves hcalled
                    exact hcalled hmoves
                | begin | drop | abandon | recover =>
                    rw [hfinal] at hmoves
                    exact hmoves.elim
              subst hnil
              cases hrest
              exact ⟨result, List.getLast?_concat, hleads⟩
        | spool => exact absurd hby hcall
        | cache => exact absurd hby hcall
        | begin | drop | abandon | recover => exact hby.elim
      · exact ih hmid hmidSerial ((task_step hstep hby).trans htask)
          (filled_step h hstep hby htask hfilled) hrest hrestCalls hends

theorem nil_of_idle (hidle : s.task agent = none) {steps : List Step}
    (hsteps : history sha256 s steps = some s')
    (hcalls : ∀ action ∈ steps, ¬ action.CalledBy agent)
    (hlast : ∀ action ∈ steps.getLast?, action.By agent) : steps = [] := by
  by_contra hne
  have hmoves := hlast _ (List.getLast?_eq_some_getLast hne)
  have hcalled := hcalls _ (List.getLast_mem hne)
  cases hfinal : steps.getLast hne with
  | move other amount =>
      rw [hfinal] at hmoves
      obtain rfl : other = agent := hmoves
      exact no_move_of_idle hidle hsteps hcalls amount (hfinal ▸ List.getLast_mem hne)
  | spool | cache =>
      rw [hfinal] at hmoves hcalled
      exact hcalled hmoves
  | begin | drop | abandon | recover =>
      rw [hfinal] at hmoves
      exact hmoves.elim

/-- A call succeeds with all its reader delivers as the archive, where none was, or it fails
and leaves the archive as it was. -/
theorem leads_of_call (h : s.Sound sha256) (hserial : s.Serial stage) {steps : List Step}
    {result : Except StoreError Nat}
    (hcall : Call.Spools sha256 s agent stage input maximum steps s' result) :
    (∀ total, result = .ok total → s.world.find (blobFile stage) = none ∧
      Leads stage input maximum s'.world (.ok total)) ∧
    ∀ e, result = .error e →
      s'.world.contents (blobFile stage) = s.world.contents (blobFile stage) := by
  obtain ⟨mid, hstep, hrest⟩ := Option.bind_eq_some_iff.mp hcall.runs
  have hmid := (sound_step h hstep).1
  have hmidSerial := serial_step h hserial hstep
  simp only [step] at hstep
  split at hstep
  · cases hstep
    rw [startSpool] at hrest hmid hmidSerial
    rcases run_startPart s.world stage with ⟨e, hrun⟩ | ⟨halive, hpart, hrun⟩
    · rw [hrun] at hrest
      obtain rfl := nil_of_idle (Function.update_self ..) hrest hcall.calls hcall.last
      cases hrest
      obtain rfl : .error e = result :=
        (Returned.spooled.inj (Option.some.inj (List.getLast?_concat.symm.trans hcall.returned))).2
      exact ⟨fun _ heq => (by cases heq), fun _ _ => rfl⟩
    · have hblob := run_startPart_ok hrun
      rw [hrun] at hrest hmid hmidSerial
      have hempty : (s.world.newFile (partFile stage)).inode s.world.nextIno = ⟨[], 1⟩ :=
        Function.update_self ..
      have hfilled : (Task.copying stage s.world.nextIno input maximum 0).Filled stage input maximum
          (s.world.newFile (partFile stage)) :=
        ⟨rfl, rfl, [], Option.map_id'.symm, rfl, Nat.zero_le _,
          fun _ => congrArg Inode.contents hempty⟩
      obtain ⟨result', hreturned, hleads⟩ := leads_of_filled hmid hmidSerial
        (Function.update_self ..) hfilled hrest hcall.calls hcall.last hcall.idle
      obtain rfl : result = result' :=
        (Returned.spooled.inj (Option.some.inj (hcall.returned.symm.trans hreturned))).2
      refine ⟨fun total heq => ⟨hblob, heq ▸ hleads⟩, fun e heq => ?_⟩
      subst heq
      have hnone : s'.world.find (blobFile stage) = none := hleads
      rw [World.contents, World.contents, hblob, hnone]
      rfl
  · cases hstep

/-! ## A spool that nobody disturbs -/

theorem run_startPart_free {w : World} (halive : (w.stage stage).isSome = true)
    (hblob : w.find (blobFile stage) = none) (hpart : w.find (partFile stage) = none) :
    run (startPart stage) w = (.ok w.nextIno, w.newFile (partFile stage)) := by
  rw [startPart, run_bind_ok (run_verifyStage halive), run_bind_ok run_nodeExists, hblob]
  refine run_orIo_ok ?_
  have hdir : w.HasDir (partFile stage) := halive
  rw [eval_call, respond, hpart, if_pos hdir]
  rfl

theorem run_sealPart_ok {w : World} {ino : Nat} (hpart : w.find (partFile stage) = some ino)
    (hlinks : (w.inode ino).links = 1) : run (sealPart stage ino) w = (.ok (), w) := by
  have hsync : (perform (.sync ino)).eval respond w = (.ok (), w) := rfl
  rw [sealPart, run_bind_ok (run_orIo_ok hsync)]
  exact run_verifyOpenFileIdentity hpart hlinks

theorem run_completePart_free {w : World} {ino : Nat} (hblob : w.find (blobFile stage) = none)
    (hpart : w.find (partFile stage) = some ino) :
    run (completePart stage) w = (.ok (), w.moveFile ino (partFile stage) (blobFile stage)) := by
  have halive := isSome_stage_of_find hpart
  have hdir : w.HasDir (blobFile stage) := halive
  rw [completePart, run_bind_ok (run_verifyStage halive), run_bind_ok run_nodeExists, hblob]
  refine run_orIo_ok ?_
  rw [eval_call, respond, hpart]
  dsimp only
  rw [if_pos hdir, hblob]
  rfl

/-- Moves of one agent. -/
def moves (agent : Agent) (count : Nat) : List Step := List.replicate count (.move agent 0)

/-- The agent moves until its spool has succeeded. -/
def Succeeds (sha256 : Bytes → Sha256Output) (s : State) (agent : Agent) (stage : Bytes)
    (total : Nat) : Prop :=
  ∃ count s', 0 < count ∧ history sha256 s (moves agent count) = some s' ∧
    s'.task agent = none ∧ s'.returned.getLast? = some (.spooled stage (.ok total))

theorem Succeeds.move {total : Nat} (hstep : step sha256 s (.move agent 0) = some s')
    (h : Succeeds sha256 s' agent stage total) : Succeeds sha256 s agent stage total := by
  obtain ⟨count, last, _, hmoves, hend⟩ := h
  refine ⟨count + 1, last, Nat.succ_pos _, ?_, hend⟩
  rw [moves, List.replicate_succ, history, hstep]
  exact hmoves

theorem succeeds_completing (h : s.Sound sha256) (hserial : s.Serial stage) {ino total : Nat}
    (halive : (s.world.stage stage).isSome = true)
    (htask : s.task agent = some (.completing stage ino total)) :
    Succeeds sha256 s agent stage total := by
  have hblob := hserial.blob ⟨agent, _, htask, trivial, rfl⟩
  have hfills : s.world.Fills stage ino := (h.task agent _ htask).2
  have hadvance : advance sha256 0 s.world (.completing stage ino total) =
      (.returns (.spooled stage (.ok total)),
        s.world.moveFile ino (partFile stage) (blobFile stage)) := by
    rw [advance, run_completePart_free hblob (hfills.part halive)]
  refine ⟨1, s.after agent (.returns (.spooled stage (.ok total)),
    s.world.moveFile ino (partFile stage) (blobFile stage)), Nat.one_pos, ?_,
    Function.update_self .., List.getLast?_concat⟩
  rw [moves, List.replicate_one, history]
  simp only [step, htask, hadvance]
  rfl

theorem succeeds_sealing (h : s.Sound sha256) (hserial : s.Serial stage) {ino total : Nat}
    (halive : (s.world.stage stage).isSome = true)
    (htask : s.task agent = some (.sealing stage ino total)) :
    Succeeds sha256 s agent stage total := by
  have hfills : s.world.Fills stage ino := (h.task agent _ htask).2
  have hpart := hfills.part halive
  have hadvance : advance sha256 0 s.world (.sealing stage ino total) =
      (.goesOn (.completing stage ino total), s.world) := by
    rw [advance, run_sealPart_ok hpart (h.tidy.named _ _ hpart).2]
  have hstep : step sha256 s (.move agent 0) =
      some (s.after agent (.goesOn (.completing stage ino total), s.world)) := by
    simp only [step, htask, hadvance]
  exact (succeeds_completing (sound_step h hstep).1 (serial_step h hserial hstep) halive
    (Function.update_self ..)).move hstep

/-- The copy loop reads to the end of an input that has room. -/
theorem succeeds_copying {ino total : Nat} {rest : Reader} {left : Bytes}
    (h : s.Sound sha256) (hserial : s.Serial stage)
    (halive : (s.world.stage stage).isSome = true)
    (htask : s.task agent = some (.copying stage ino rest maximum total))
    (hread : rest.contents = some left) (hroom : total + left.length ≤ maximum.toNat) :
    Succeeds sha256 s agent stage (total + left.length) := by
  induction hn : rest.size using Nat.strong_induction_on generalizing s rest left total with
  | _ n ih =>
      have hsmaller : (rest.read 8192).1 ≠ .ok [] → (rest.read 8192).2.size < n := by
        rw [← hn]
        exact Reader.size_read_lt (by decide)
      have hgoesOn : ∀ {next : Task} {w : World},
          copyPass stage ino rest maximum total s.world = (next, w) →
            step sha256 s (.move agent 0) = some (s.after agent (.goesOn next, w)) := by
        intro next w hpass
        simp only [step, htask, advance, hpass]
      rcases hpass : rest.read 8192 with ⟨result, after⟩
      rw [hpass] at hsmaller
      rcases Reader.read_of_contents (show 0 < 8192 by decide) hread with
        ⟨hend, rfl⟩ | ⟨piece, behind, hpiece, hne, hbehind, rfl⟩ | ⟨hinterrupted, hsame⟩
      · rw [hpass] at hend
        obtain rfl : result = .ok [] := hend
        have hstep := hgoesOn (by rw [copyPass, hpass])
        exact (succeeds_sealing (sound_step h hstep).1 (serial_step h hserial hstep) halive
          (Function.update_self ..)).move hstep
      · rw [hpass] at hpiece hbehind
        obtain rfl : result = .ok piece := hpiece
        obtain ⟨head, tail, rfl⟩ := List.exists_cons_of_ne_nil hne
        have htotal : total + (head :: tail ++ behind).length =
            total + (tail.length + 1) + behind.length := by
          rw [List.length_append, List.length_cons]
          omega
        rw [htotal] at hroom ⊢
        have hfits : ¬ (2 ^ 64 ≤ total + (tail.length + 1) ∨
            maximum.toNat < total + (tail.length + 1)) := by
          have hmaximum := maximum.toNat_lt
          omega
        have hpassed : copyPass stage ino rest maximum total s.world =
            (.copying stage ino after maximum (total + (tail.length + 1)),
              (respond (.write ino (head :: tail)) s.world).2) := by
          rw [copyPass, hpass]
          exact if_neg hfits
        have hstep := hgoesOn hpassed
        exact (ih after.size (hsmaller fun heq => (by cases heq)) (sound_step h hstep).1
          (serial_step h hserial hstep) halive (Function.update_self ..) hbehind hroom
          rfl).move hstep
      · rw [hpass] at hinterrupted hsame
        obtain rfl : result = .error .interrupted := hinterrupted
        have hstep := hgoesOn (by rw [copyPass, hpass])
        exact (ih after.size (hsmaller fun heq => (by cases heq)) (sound_step h hstep).1
          (serial_step h hserial hstep) halive (Function.update_self ..) hsame hroom rfl).move hstep

/-- A stage without archive that nobody spools can be spooled. -/
theorem spools_of_free (h : s.Sound sha256) (hserial : s.Serial stage)
    (halive : (s.world.stage stage).isSome = true) (hblob : s.world.find (blobFile stage) = none)
    (hfree : ¬ s.Spooling stage) (hidle : s.task agent = none) {bytes : Bytes}
    (hread : input.contents = some bytes) (hfits : bytes.length ≤ maximum.toNat) :
    ∃ steps s', Call.Spools sha256 s agent stage input maximum steps s' (.ok bytes.length) := by
  have hpart : s.world.find (partFile stage) = none := by
    cases hfound : s.world.find (partFile stage) with
    | none => rfl
    | some ino => exact absurd (hserial.part (Option.isSome_iff_exists.mpr ⟨ino, hfound⟩)) hfree
  have hstart : startSpool stage input maximum s.world =
      (.goesOn (.copying stage s.world.nextIno input maximum 0),
        s.world.newFile (partFile stage)) := by
    rw [startSpool, run_startPart_free halive hblob hpart]
  have hstep : step sha256 s (.spool agent stage input maximum) =
      some (s.after agent (.goesOn (.copying stage s.world.nextIno input maximum 0),
        s.world.newFile (partFile stage))) := by
    simp only [step, hidle, hstart]
  have hkept : ((s.world.newFile (partFile stage)).stage stage).isSome = true := by
    show ((s.world.setName (partFile stage) (some s.world.nextIno)).stage stage).isSome = true
    rw [isSome_stage_setName, halive]
  obtain ⟨count, last, hcount, hmoves, hdone, hreturned⟩ := succeeds_copying
    (sound_step h hstep).1 (serial_step h hserial hstep) hkept (Function.update_self ..) hread
    ((Nat.zero_add _).trans_le hfits)
  refine ⟨moves agent count, last, ?_, ?_, ?_, hdone, ?_⟩
  · rw [history, hstep]
    exact hmoves
  · intro action haction
    rw [List.eq_of_mem_replicate haction]
    exact id
  · intro action haction
    rw [List.eq_of_mem_replicate (List.mem_of_mem_getLast? haction)]
    rfl
  · rw [Nat.zero_add] at hreturned
    exact hreturned

end Calls

/-! ## Spooling is all or nothing -/

section Histories

variable {sha256 : Bytes → Sha256Output} {s s' : State} {stage : Bytes}

theorem serial_initial : State.initial.Serial stage where
  blob _ := rfl
  part h := by cases h
  once := Nat.zero_le _
  full h := by cases h
  empty h := by cases h
  fresh _ := rfl

theorem serial_history (h : s.Sound sha256) (hserial : s.Serial stage) {steps : List Step}
    (hsteps : history sha256 s steps = some s') : s'.Serial stage := by
  induction steps generalizing s with
  | nil =>
      cases hsteps
      exact hserial
  | cons action steps ih =>
      obtain ⟨mid, hstep, hrest⟩ := Option.bind_eq_some_iff.mp hsteps
      exact ih (sound_step h hstep).1 (serial_step h hserial hstep) hrest

/-- In every history, a spool succeeds only when its reader ends without an error after as
many bytes as it returns and as the maximum allows, and those bytes are the archive; one that
fails leaves the archive as it was.  Once no spool of a stage is in progress it has no part, and
without an archive it can be spooled.  At most one spool of a stage ever succeeds, there is no
archive otherwise, and nothing replaces it. -/
theorem spool_allOrNothing (sha256 : Bytes → Sha256Output) (stage : Bytes) {steps : List Step}
    {s : State} (hsteps : history sha256 State.initial steps = some s) :
    (∀ agent input maximum more s' result,
      Call.Spools sha256 s agent stage input maximum more s' result →
      (∀ total, result = .ok total → s.world.find (blobFile stage) = none ∧
        ∃ bytes, input.contents = some bytes ∧ bytes.length = total ∧ total ≤ maximum.toNat ∧
          s'.world.contents (blobFile stage) = some bytes) ∧
      ∀ e, result = .error e →
        s'.world.contents (blobFile stage) = s.world.contents (blobFile stage)) ∧
    (¬ s.Spooling stage → s.world.find (partFile stage) = none) ∧
    (¬ s.Spooling stage → (s.world.stage stage).isSome = true →
      s.world.find (blobFile stage) = none →
      ∀ agent input maximum bytes, s.task agent = none → input.contents = some bytes →
        bytes.length ≤ maximum.toNat →
        ∃ more s', Call.Spools sha256 s agent stage input maximum more s' (.ok bytes.length)) ∧
    s.successes stage ≤ 1 ∧
    ((s.world.find (blobFile stage)).isSome = true → s.successes stage = 1) ∧
    ∀ more s' bytes, history sha256 s more = some s' → (s'.world.stage stage).isSome = true →
      s.world.contents (blobFile stage) = some bytes →
      s'.world.contents (blobFile stage) = some bytes := by
  obtain ⟨hsound, _⟩ := sound_history sound_initial hsteps
  have hserial : s.Serial stage := serial_history sound_initial serial_initial hsteps
  refine ⟨?_, ?_, ?_, hserial.once, hserial.full, ?_⟩
  · intro agent input maximum more s' result hcall
    exact leads_of_call hsound hserial hcall
  · intro hfree
    cases hpart : s.world.find (partFile stage) with
    | none => rfl
    | some ino => exact absurd (hserial.part (Option.isSome_iff_exists.mpr ⟨ino, hpart⟩)) hfree
  · intro hfree halive hblob agent input maximum bytes hidle hread hfits
    exact spools_of_free hsound hserial halive hblob hfree hidle hread hfits
  · intro more s' bytes hmore halive hbytes
    obtain ⟨ino, hblob, rfl⟩ := Option.map_eq_some_iff.mp hbytes
    obtain ⟨hkept, hsame⟩ := (sound_history hsound hmore).2.blob stage ino halive hblob
    rw [World.contents, hkept, Option.map_some, hsame]

theorem begun_isSome : (history Prep.Core.abcHash State.initial
    [.begin [ascii "txn-1"]]).isSome = true := by
  decide +kernel

/-- A stage has been begun. -/
def begun : State := (history Prep.Core.abcHash State.initial [.begin [ascii "txn-1"]]).get
  begun_isSome

theorem begun_task (agent : Agent) : begun.task agent = none := rfl

/-- Three bytes that a reader delivers in one piece are spooled to it. -/
theorem spool_allOrNothing_begun :
    ∃ more s', Call.Spools Prep.Core.abcHash begun 0 (ascii "txn-1") (.ofBytes (ascii "abc")) 3
      more s' (.ok 3) := by
  obtain ⟨_, _, hfree, _⟩ := spool_allOrNothing Prep.Core.abcHash (ascii "txn-1")
    (Option.some_get begun_isSome).symm
  refine hfree ?_ (by decide +kernel) ?_ 0 (.ofBytes (ascii "abc")) 3 (ascii "abc")
    (begun_task 0) (Reader.contents_ofBytes _) (by decide)
  · rintro ⟨agent, task, htask, _⟩
    cases (begun_task agent).symm.trans htask
  · exact Option.isNone_iff_eq_none.mp (by decide +kernel)

end Histories

end Prep.Store.Source
