/-
  Core/StagedTree.lean --- `extract_staged_ustar` of `prep-core/src/source_load.rs`: an
  archive is unpacked into the private tree of its stage.

  The store goes on while stages are unpacked.  A tree is made once, and from the moment
  its extraction has succeeded it holds what the archive of its stage says, until the
  stage is gone.  What was packed comes out, from the stage and from the source cache.

  Scope: an unpacking is one step of a history, for nobody else has the handle of the stage
  meanwhile.  Calls of the store fail only as its files make them fail; those of the extraction
  may fail at any point, and then the tree stays as far as it has got and is never taken for the
  archive.
-/
import Prep.Core.ExtractExact
import Prep.Core.SourceLoad
import Prep.Store.SourceSpool

set_option autoImplicit false

namespace Prep.Core

open Prep.Data
open Prep.Fs
open Prep.Io
open Prep.Manifest
open Prep.Store (Agent StoreError)
open Prep.Store.Source
open Prep.Text

/-! ## The trees of the stages -/

/-- An `extract_staged_ustar` that has returned. -/
structure Unpacking where
  stage : Bytes
  lock : LockedSource
  limits : ArchiveLimits
  maximum : UInt64
  result : Except SourceLoadError Nat

/-- The stages and the cache of a store, the directory `tree` of the stages that have one,
and the extractions that have returned. -/
structure Staging where
  sources : State
  trees : Bytes → Option Node
  unpackings : List Unpacking

def Staging.initial : Staging := ⟨State.initial, fun _ => none, []⟩

/-- `begin_unverified_source_tree`: the trees with the new one. -/
def beginUnverifiedSourceTree (g : Staging) (stage : Bytes) :
    Except StoreError (Bytes → Option Node) :=
  match (run (verifyStage stage) g.sources.world).1 with
  | .error e => .error e
  | .ok () =>
      match g.trees stage with
      | some _ =>
          .error (.io "create private unverified tree" (stagePath stage ++ [ascii "tree"])
            .alreadyExists)
      | none => .ok (Function.update g.trees stage (some (.dir [])))

/-- `extract_staged_ustar`, and the trees it leaves. -/
def extractStagedUstar (sha256 : Bytes → Sha256Output) (rule : CaseRule) (g : Staging)
    (stage : Bytes) (lock : LockedSource) (limits : ArchiveLimits) (maximum : UInt64)
    (faults : List (Option Fault)) : Except SourceLoadError Nat × (Bytes → Option Node) :=
  match loadStagedUstar sha256 g.sources.world stage lock limits maximum with
  | .error e => (.error e, g.trees)
  | .ok snapshot =>
      match beginUnverifiedSourceTree g stage with
      | .error e => (.error (.store e), g.trees)
      | .ok trees =>
          -- an extraction that fails leaves what it has written
          let (result, after) :=
            (extractVerifiedUstar rule snapshot limits).run ⟨.dir [], faults⟩
          (result.mapError .extraction, Function.update trees stage (some after.tree))

/-- What may happen: the store makes a step, and a tree is gone with its stage; a stage is
unpacked. -/
inductive Staging.Step where
  | store (action : Prep.Store.Source.Step)
  | unpack (stage : Bytes) (lock : LockedSource) (limits : ArchiveLimits) (maximum : UInt64)
      (faults : List (Option Fault))

def Staging.step (sha256 : Bytes → Sha256Output) (rule : CaseRule) (g : Staging) :
    Staging.Step → Option Staging
  | .store action =>
      (Prep.Store.Source.step sha256 g.sources action).map fun sources =>
        { g with
          sources
          trees := fun stage =>
            if (sources.world.stage stage).isSome then g.trees stage else none }
  | .unpack stage lock limits maximum faults =>
      let (result, trees) := extractStagedUstar sha256 rule g stage lock limits maximum faults
      some { g with
        trees
        unpackings := g.unpackings ++ [⟨stage, lock, limits, maximum, result⟩] }

/-- The steps of a history, one after another. -/
def Staging.history (sha256 : Bytes → Sha256Output) (rule : CaseRule) (g : Staging) :
    List Staging.Step → Option Staging
  | [] => some g
  | first :: rest => (g.step sha256 rule first).bind fun next => next.history sha256 rule rest

/-! ## One extraction -/

/-- The tree of a stage holds what the stage's archive says under the lock. -/
def Staging.Shows (sha256 : Bytes → Sha256Output) (rule : CaseRule) (g : Staging)
    (u : Unpacking) (written : Nat) : Prop :=
  ∃ bytes snapshot tree, g.sources.world.contents (blobFile u.stage) = some bytes ∧
    readVerifiedUstarSnapshot sha256 u.lock (.ofBytes bytes) u.limits u.maximum = .ok snapshot ∧
    g.trees u.stage = some tree ∧ written = (snapshot.inventory.map (·.expandedBytes)).sum ∧
    Tidy rule tree ∧ Materialises snapshot tree

section Extraction

variable {sha256 : Bytes → Sha256Output} {rule : CaseRule} {g : Staging} {stage : Bytes}
  {lock : LockedSource} {limits : ArchiveLimits} {maximum : UInt64}
  {faults : List (Option Fault)}

theorem beginUnverifiedSourceTree_eq_ok {trees : Bytes → Option Node}
    (h : beginUnverifiedSourceTree g stage = .ok trees) :
    (g.sources.world.stage stage).isSome = true ∧ g.trees stage = none ∧
      trees = Function.update g.trees stage (some (.dir [])) := by
  unfold beginUnverifiedSourceTree at h
  split at h
  · cases h
  · rename_i hverified
    split at h
    · cases h
    · rename_i hnone
      refine ⟨?_, hnone, (Except.ok.inj h).symm⟩
      cases hstage : g.sources.world.stage stage with
      | some _ => rfl
      | none =>
          obtain ⟨e, hrun⟩ := run_verifyStage_none hstage
          rw [hrun] at hverified
          cases hverified

theorem beginUnverifiedSourceTree_of_none
    (halive : (g.sources.world.stage stage).isSome = true) (hnone : g.trees stage = none) :
    beginUnverifiedSourceTree g stage =
      .ok (Function.update g.trees stage (some (.dir []))) := by
  rw [beginUnverifiedSourceTree, run_verifyStage halive, hnone]

/-- What is loaded from a stage is what the stage holds. -/
theorem loadStagedUstar_eq_ok {w : Prep.Store.Source.World} {snapshot : VerifiedUstarSnapshot}
    (h : loadStagedUstar sha256 w stage lock limits maximum = .ok snapshot) :
    ∃ bytes, w.contents (blobFile stage) = some bytes ∧
      readVerifiedUstarSnapshot sha256 lock (.ofBytes bytes) limits maximum = .ok snapshot := by
  unfold loadStagedUstar at h
  split at h
  · cases h
  · rename_i ino hopened
    have hblob : w.find (blobFile stage) = some ino :=
      run_openUnverifiedArchive_eq_ok (Prod.ext hopened rfl)
    refine ⟨(w.inode ino).contents, congrArg (Option.map _) hblob, ?_⟩
    cases hread : readVerifiedUstarSnapshot sha256 lock (.ofBytes (w.inode ino).contents) limits
        maximum with
    | error e =>
        rw [hread] at h
        cases h
    | ok read =>
        rw [hread] at h
        exact congrArg Except.ok (Except.ok.inj h)

/-- Once a snapshot is loaded, an extraction into a stage without tree is an extraction into an
empty directory. -/
theorem extractStagedUstar_of_loaded {snapshot : VerifiedUstarSnapshot}
    (hload : loadStagedUstar sha256 g.sources.world stage lock limits maximum = .ok snapshot)
    (halive : (g.sources.world.stage stage).isSome = true) (hnone : g.trees stage = none)
    {result : Except SourceExtractionError Nat} {after : World}
    (hrun : (extractVerifiedUstar rule snapshot limits).run ⟨.dir [], faults⟩ =
      (result, after)) :
    extractStagedUstar sha256 rule g stage lock limits maximum faults =
      (result.mapError .extraction, Function.update g.trees stage (some after.tree)) := by
  rw [extractStagedUstar, hload]
  dsimp only
  rw [beginUnverifiedSourceTree_of_none halive hnone]
  dsimp only
  rw [hrun]
  dsimp only
  rw [Function.update_idem]

/-- An extraction is refused and leaves the trees alone, or it loads a snapshot and begins a
tree. -/
theorem extractStagedUstar_cases :
    (∃ e, extractStagedUstar sha256 rule g stage lock limits maximum faults =
      (.error e, g.trees)) ∨
    (g.sources.world.stage stage).isSome = true ∧ g.trees stage = none ∧
      ∃ snapshot, loadStagedUstar sha256 g.sources.world stage lock limits maximum =
        .ok snapshot := by
  rw [extractStagedUstar]
  split
  · exact Or.inl ⟨_, rfl⟩
  · rename_i snapshot hload
    split
    · exact Or.inl ⟨_, rfl⟩
    · rename_i trees hbegun
      obtain ⟨halive, hnone, _⟩ := beginUnverifiedSourceTree_eq_ok hbegun
      exact Or.inr ⟨halive, hnone, snapshot, hload⟩

/-- The tree of another stage, and one that is there, stay. -/
theorem extractStagedUstar_keeps {other : Bytes}
    (h : other ≠ stage ∨ (g.trees other).isSome = true) :
    (extractStagedUstar sha256 rule g stage lock limits maximum faults).2 other =
      g.trees other := by
  rcases extractStagedUstar_cases with ⟨e, hrefused⟩ | ⟨halive, hnone, snapshot, hload⟩
  · rw [hrefused]
  · rw [extractStagedUstar_of_loaded hload halive hnone rfl]
    refine Function.update_of_ne ?_ _ _
    rintro rfl
    rcases h with hne | hsome
    · exact hne rfl
    · rw [hnone] at hsome
      cases hsome

theorem ReadFrom.admissible {input : Reader} {snapshot : VerifiedUstarSnapshot}
    (h : ReadFrom sha256 lock input limits maximum snapshot) :
    Admissible limits snapshot.inventory := by
  obtain ⟨_, _, _, hadmissible, _⟩ := h.stored
  exact hadmissible

/-- What a snapshot holds is put into an empty directory. -/
theorem ReadFrom.extracts {input : Reader} {snapshot : VerifiedUstarSnapshot}
    (h : ReadFrom sha256 lock input limits maximum snapshot) :
    Yields (Due faults) ⟨.dir [], faults⟩ (extractVerifiedUstar rule snapshot limits)
      fun written after => written = (snapshot.inventory.map (·.expandedBytes)).sum ∧
        Tidy rule after.tree ∧ Materialises snapshot after.tree := by
  refine (extractVerifiedUstar_yields h.delivers h.admissible faults).mono ?_
  rintro written after ⟨hwritten, files, hfiles, hholds⟩
  exact ⟨hwritten, hholds.tidy, hholds.materialises h.admissible h.delivers hfiles⟩

/-- An extraction that succeeds has made its tree of what the stage holds. -/
theorem extractStagedUstar_eq_ok {written : Nat}
    (hok : (extractStagedUstar sha256 rule g stage lock limits maximum faults).1 = .ok written) :
    (g.sources.world.stage stage).isSome = true ∧ g.trees stage = none ∧
      ∃ bytes snapshot tree, g.sources.world.contents (blobFile stage) = some bytes ∧
        readVerifiedUstarSnapshot sha256 lock (.ofBytes bytes) limits maximum = .ok snapshot ∧
        (extractStagedUstar sha256 rule g stage lock limits maximum faults).2 stage =
          some tree ∧
        written = (snapshot.inventory.map (·.expandedBytes)).sum ∧ Tidy rule tree ∧
        Materialises snapshot tree := by
  rcases extractStagedUstar_cases with ⟨e, hrefused⟩ | ⟨halive, hnone, snapshot, hload⟩
  · rw [hrefused] at hok
    cases hok
  · obtain ⟨bytes, hbytes, hread⟩ := loadStagedUstar_eq_ok hload
    rcases hrun : (extractVerifiedUstar rule snapshot limits).run ⟨.dir [], faults⟩ with
      ⟨result, after⟩
    have heq := extractStagedUstar_of_loaded hload halive hnone hrun
    rw [heq] at hok ⊢
    cases result with
    | error e => cases hok
    | ok total =>
        cases hok
        obtain ⟨hwritten, htidy, hholds⟩ :=
          (readVerifiedUstarSnapshot_eq_ok_iff.mp hread).extracts.of_ok hrun
        exact ⟨halive, hnone, bytes, snapshot, after.tree, hbytes, hread,
          Function.update_self .., hwritten, htidy, hholds⟩

/-- A stage without tree whose archive is accepted is unpacked, unless a call of the operating
system fails. -/
theorem extractStagedUstar_of_read (h : g.sources.world.Tidy sha256) {bytes : Bytes}
    {snapshot : VerifiedUstarSnapshot}
    (hbytes : g.sources.world.contents (blobFile stage) = some bytes)
    (hread : readVerifiedUstarSnapshot sha256 lock (.ofBytes bytes) limits maximum = .ok snapshot)
    (hnone : g.trees stage = none) (faults : List (Option Fault)) :
    ((extractStagedUstar sha256 rule g stage lock limits maximum faults).1 =
        .ok (snapshot.inventory.map (·.expandedBytes)).sum ∧
      ∃ tree, (extractStagedUstar sha256 rule g stage lock limits maximum faults).2 stage =
        some tree ∧ Tidy rule tree ∧ Materialises snapshot tree) ∨
    ∃ fault, some fault ∈ faults ∧
      (extractStagedUstar sha256 rule g stage lock limits maximum faults).1 =
        .error (.extraction (.io (.os fault.code))) := by
  obtain ⟨ino, hblob, _⟩ := Option.map_eq_some_iff.mp hbytes
  have hload := loadStagedUstar_eq h lock limits maximum hbytes
  rw [hread] at hload
  have hfrom := readVerifiedUstarSnapshot_eq_ok_iff.mp hread
  rcases hrun : (extractVerifiedUstar rule snapshot limits).run ⟨.dir [], faults⟩ with
    ⟨result, after⟩
  rw [extractStagedUstar_of_loaded hload (isSome_stage_of_find hblob) hnone hrun]
  cases result with
  | ok written =>
      obtain ⟨rfl, htidy, hholds⟩ := hfrom.extracts.of_ok hrun
      exact Or.inl ⟨rfl, after.tree, Function.update_self .., htidy, hholds⟩
  | error e =>
      obtain ⟨fault, hfault, rfl⟩ := hfrom.extracts.of_error hrun
      exact Or.inr ⟨fault, hfault, rfl⟩

end Extraction

/-! ## Whole histories -/

/-- An extraction of the stage has succeeded. -/
def Unpacking.succeeded (stage : Bytes) (u : Unpacking) : Bool :=
  decide (u.stage = stage) && u.result.isOk

/-- What holds of the trees in every history. -/
structure Staging.Sound (sha256 : Bytes → Sha256Output) (rule : CaseRule) (g : Staging) : Prop where
  sources : g.sources.Sound sha256
  alive : ∀ stage, (g.trees stage).isSome = true →
    (g.sources.world.stage stage).isSome = true
  drawn : ∀ u ∈ g.unpackings, ∀ written, u.result = .ok written →
    u.stage ∈ g.sources.world.drawn
  shows : ∀ u ∈ g.unpackings, ∀ written, u.result = .ok written →
    (g.sources.world.stage u.stage).isSome = true → g.Shows sha256 rule u written
  once : ∀ stage, g.unpackings.countP (·.succeeded stage) ≤ 1

section Histories

variable {sha256 : Bytes → Sha256Output} {rule : CaseRule} {g g' : Staging}

theorem Staging.sound_initial : Staging.initial.Sound sha256 rule where
  sources := Prep.Store.Source.sound_initial
  alive stage h := by cases h
  drawn u hu := by cases hu
  shows u hu := by cases hu
  once stage := Nat.zero_le 1

/-- What every step leaves alone: the tree of a stage, as long as the stage is there. -/
structure Staging.Keeps (g g' : Staging) : Prop where
  later : g.sources.world.Later g'.sources.world
  trees : ∀ stage tree, (g'.sources.world.stage stage).isSome = true →
    g.trees stage = some tree → g'.trees stage = some tree

theorem Staging.Keeps.trans {last : Staging} (h : g.Keeps g') (h' : g'.Keeps last)
    (hsound : g.Sound sha256 rule) : g.Keeps last := by
  refine ⟨h.later.trans h'.later hsound.sources.tidy, fun stage tree hlast htree => ?_⟩
  have hdrawn := hsound.sources.tidy.drawn stage
    (hsound.alive stage (Option.isSome_iff_exists.mpr ⟨tree, htree⟩))
  have hmid := h'.later.stage stage (h.later.drawn stage hdrawn) hlast
  exact h'.trees stage tree hlast (h.trees stage tree hmid htree)

/-- A staged archive is what it was as long as its stage is there. -/
theorem contents_of_later {w w' : Prep.Store.Source.World} (h : w.Later w') {stage bytes : Bytes}
    (halive : (w'.stage stage).isSome = true) (hbytes : w.contents (blobFile stage) = some bytes) :
    w'.contents (blobFile stage) = some bytes := by
  obtain ⟨ino, hblob, rfl⟩ := Option.map_eq_some_iff.mp hbytes
  obtain ⟨hkept, hsame⟩ := h.blob stage ino halive hblob
  rw [World.contents, hkept, Option.map_some, hsame]

/-- What a tree shows it goes on showing. -/
theorem Staging.Shows.kept {u : Unpacking} {written : Nat} (h : g.Shows sha256 rule u written)
    (hkeeps : g.Keeps g') (halive : (g'.sources.world.stage u.stage).isSome = true) :
    g'.Shows sha256 rule u written := by
  obtain ⟨bytes, snapshot, tree, hbytes, hread, htree, hrest⟩ := h
  exact ⟨bytes, snapshot, tree, contents_of_later hkeeps.later halive hbytes, hread,
    hkeeps.trees u.stage tree halive htree, hrest⟩

theorem keeps_step (h : g.Sound sha256 rule) {action : Staging.Step}
    (hstep : g.step sha256 rule action = some g') : g.Keeps g' := by
  cases action with
  | store action =>
      obtain ⟨sources, hsources, rfl⟩ := Option.map_eq_some_iff.mp hstep
      refine ⟨(sound_step h.sources hsources).2, fun stage tree halive htree => ?_⟩
      exact (if_pos halive).trans htree
  | unpack stage lock limits maximum faults =>
      cases hstep
      refine ⟨World.Later.refl _, fun other tree _ htree => ?_⟩
      rw [← htree]
      exact extractStagedUstar_keeps (Or.inr (Option.isSome_iff_exists.mpr ⟨tree, htree⟩))

/-- What the extractions have shown is still to be seen. -/
theorem Staging.Sound.kept (h : g.Sound sha256 rule) (hkeeps : g.Keeps g') {u : Unpacking}
    (hu : u ∈ g.unpackings) {written : Nat} (hok : u.result = .ok written)
    (halive : (g'.sources.world.stage u.stage).isSome = true) :
    g'.Shows sha256 rule u written := by
  have hbefore := hkeeps.later.stage u.stage (h.drawn u hu written hok) halive
  exact (h.shows u hu written hok hbefore).kept hkeeps halive

/-- As long as a stage without tree is there, no extraction of it has succeeded. -/
theorem Staging.Sound.countP_eq_zero (h : g.Sound sha256 rule) {stage : Bytes}
    (halive : (g.sources.world.stage stage).isSome = true) (hnone : g.trees stage = none) :
    g.unpackings.countP (·.succeeded stage) = 0 := by
  rw [List.countP_eq_zero]
  intro u hu hsucceeded
  obtain ⟨hstage, hok⟩ := Bool.and_eq_true_iff.mp hsucceeded
  obtain rfl := of_decide_eq_true hstage
  cases hresult : u.result with
  | error e =>
      rw [hresult] at hok
      cases hok
  | ok written =>
      obtain ⟨_, _, tree, _, _, htree, _⟩ := h.shows u hu written hresult halive
      rw [hnone] at htree
      cases htree

theorem Staging.sound_store (h : g.Sound sha256 rule) {action : Prep.Store.Source.Step}
    (hstep : g.step sha256 rule (.store action) = some g') : g'.Sound sha256 rule := by
  have hkeeps := keeps_step h hstep
  obtain ⟨sources, hsources, rfl⟩ := Option.map_eq_some_iff.mp hstep
  refine ⟨(Prep.Store.Source.sound_step h.sources hsources).1, fun stage hsome => ?_,
    fun u hu written hok => hkeeps.later.drawn u.stage (h.drawn u hu written hok),
    fun u hu written hok => h.kept hkeeps hu hok, h.once⟩
  dsimp only at hsome
  split at hsome
  · assumption
  · cases hsome

theorem Staging.step_unpack {stage : Bytes} {lock : LockedSource} {limits : ArchiveLimits}
    {maximum : UInt64} {faults : List (Option Fault)} {result : Except SourceLoadError Nat}
    {trees : Bytes → Option Node}
    (hrun : extractStagedUstar sha256 rule g stage lock limits maximum faults =
      (result, trees)) :
    g.step sha256 rule (.unpack stage lock limits maximum faults) =
      some ⟨g.sources, trees, g.unpackings ++ [⟨stage, lock, limits, maximum, result⟩]⟩ := by
  rw [Staging.step, hrun]

theorem Staging.sound_unpack (h : g.Sound sha256 rule) {stage : Bytes} {lock : LockedSource}
    {limits : ArchiveLimits} {maximum : UInt64} {faults : List (Option Fault)}
    (hstep : g.step sha256 rule (.unpack stage lock limits maximum faults) = some g') :
    g'.Sound sha256 rule := by
  have hkeeps := keeps_step h hstep
  have hmade := @extractStagedUstar_eq_ok sha256 rule g stage lock limits maximum faults
  have hother := @extractStagedUstar_keeps sha256 rule g stage lock limits maximum faults
  have hcases := @extractStagedUstar_cases sha256 rule g stage lock limits maximum faults
  rcases hrun : extractStagedUstar sha256 rule g stage lock limits maximum faults with
    ⟨result, trees⟩
  rw [hrun] at hmade hother hcases
  obtain rfl := Option.some.inj ((Staging.step_unpack hrun).symm.trans hstep)
  refine ⟨h.sources, fun other hsome => ?_, fun u hu written hok => ?_,
    fun u hu written hok halive => ?_, fun other => ?_⟩
  · rcases hcases with ⟨e, hrefused⟩ | ⟨halive, _⟩
    · obtain rfl := (Prod.mk.inj hrefused).2
      exact h.alive other hsome
    · by_cases hsame : other = stage
      · rw [hsame]
        exact halive
      · exact h.alive other ((congrArg Option.isSome (hother (Or.inl hsame))).symm.trans hsome)
  · rcases List.mem_append.mp hu with hu | hu
    · exact h.drawn u hu written hok
    · obtain rfl := List.mem_singleton.mp hu
      exact h.sources.tidy.drawn stage (hmade hok).1
  · rcases List.mem_append.mp hu with hu | hu
    · exact h.kept hkeeps hu hok halive
    · obtain rfl := List.mem_singleton.mp hu
      exact (hmade hok).2.2
  · rw [List.countP_append, List.countP_singleton]
    split
    · rename_i hsucceeded
      obtain ⟨hstage, hok⟩ := Bool.and_eq_true_iff.mp hsucceeded
      obtain rfl : stage = other := of_decide_eq_true hstage
      cases result with
      | error e => cases hok
      | ok written =>
          obtain ⟨halive, hnone, _⟩ := hmade rfl
          rw [h.countP_eq_zero halive hnone]
    · exact h.once other

theorem Staging.sound_step (h : g.Sound sha256 rule) {action : Staging.Step}
    (hstep : g.step sha256 rule action = some g') : g'.Sound sha256 rule := by
  cases action with
  | store action => exact Staging.sound_store h hstep
  | unpack stage lock limits maximum faults => exact Staging.sound_unpack h hstep

theorem Staging.sound_history (h : g.Sound sha256 rule) {steps : List Staging.Step}
    (hsteps : g.history sha256 rule steps = some g') : g'.Sound sha256 rule ∧ g.Keeps g' := by
  induction steps generalizing g with
  | nil =>
      cases hsteps
      exact ⟨h, World.Later.refl _, fun _ _ _ htree => htree⟩
  | cons action steps ih =>
      obtain ⟨mid, hstep, hrest⟩ := Option.bind_eq_some_iff.mp hsteps
      obtain ⟨hlast, hkeeps⟩ := ih (Staging.sound_step h hstep) hrest
      exact ⟨hlast, (keeps_step h hstep).trans hkeeps h⟩

end Histories

/-! ## What was packed -/

/-- A tree holds these members and nothing else. -/
structure Unpacked (members : List TarMember) (tree : Node) : Prop where
  directory : ∀ path, tree.shapeAt path = some .dir ↔
    path = [] ∨ ∃ m ∈ members, DirectoryOf m.entry path
  file : ∀ path contents, tree.shapeAt path = some (.file contents 1) ↔
    ∃ m ∈ members, m.kind = .regularFile ∧ components m.name = path ∧ m.contents = contents
  only : ∀ path shape, tree.shapeAt path = some shape →
    shape = .dir ∨ ∃ contents, shape = .file contents 1

section Packed

variable {sha256 : Bytes → Sha256Output} {lock : LockedSource} {limits limits' : ArchiveLimits}
  {maximum : UInt64} {input : Reader} {snapshot : VerifiedUstarSnapshot}
  {members : List TarMember}

/-- A snapshot of an encoding lists the members, whatever the limits it was read with. -/
theorem ReadFrom.inventory_encodeArchive
    (h : ReadFrom sha256 lock input limits maximum snapshot)
    (hportable : ∀ m ∈ members, PortableEntry limits' m.entry)
    (hbytes : snapshot.bytes = encodeArchive members) :
    snapshot.inventory = members.map (·.entry) := by
  obtain ⟨records, hsplit, hentries, _⟩ := h.stored
  obtain ⟨packed, hsplit', hpacked, _⟩ := splitsInto_encodeArchive hportable
  rw [hbytes] at hsplit
  obtain rfl := hsplit.unique hsplit'
  exact hentries.trans hpacked

/-- A tree that holds the archive of a snapshot of an encoding holds the members. -/
theorem Materialises.unpacked {tree : Node} (h : Materialises snapshot tree)
    (hread : ReadFrom sha256 lock input limits maximum snapshot)
    (hportable : ∀ m ∈ members, PortableEntry limits' m.entry)
    (hbytes : snapshot.bytes = encodeArchive members) : Unpacked members tree := by
  have hinventory := hread.inventory_encodeArchive hportable hbytes
  have hadmissible := hread.admissible
  rw [hinventory] at hadmissible
  have hfiles := fileBytes_of_encodeArchive hread
    (fun m hm => hadmissible.portable m.entry (List.mem_map_of_mem hm)) hbytes
  refine ⟨fun path => ?_, fun path contents => ?_, h.only⟩
  · rw [h.directory, hinventory]
    simp only [List.mem_map, exists_exists_and_eq_and]
  · rw [h.file, hinventory]
    constructor
    · rintro ⟨entry, _, ⟨_, rfl⟩, hcontents⟩
      obtain ⟨m, hm, hkind, hname, rfl⟩ := (hfiles entry.name contents).mp hcontents
      exact ⟨m, hm, hkind, congrArg components hname, rfl⟩
    · rintro ⟨m, hm, hkind, rfl, rfl⟩
      have hname : m.entry.name = m.name := by
        rw [TarMember.entry, hkind]
        rfl
      refine ⟨m.entry, List.mem_map_of_mem hm, ⟨hkind, by rw [hname]⟩, ?_⟩
      rw [hname]
      exact (hfiles m.name m.contents).mpr ⟨m, hm, hkind, rfl, rfl⟩

/-- What a snapshot is read from has the digest of the lock. -/
theorem ReadFrom.digest {url : SourceUrl} {digest : Sha256Digest} {provider : ProviderIdentity}
    (h : ReadFrom sha256 (.archive url digest provider) input limits maximum snapshot) :
    finishHex (sha256 snapshot.bytes) = digest.asStr := by
  obtain ⟨total, hverified⟩ := h.verified
  have hcalm : ReadEvent.error .interrupted ∉ Reader.ofBytes snapshot.bytes := by
    have hmem := @Reader.error_mem_ofBytes_append .interrupted snapshot.bytes []
    rw [List.append_nil] at hmem
    exact fun h => List.not_mem_nil (hmem.mp h)
  rw [verifyArchiveBytes_eq maximum.toNat_lt (Reader.contents_ofBytes _) (Or.inl hcalm),
    archiveVerdict, if_neg (Nat.not_lt.mpr h.length)] at hverified
  by_contra hne
  rw [if_pos hne] at hverified
  cases hverified

/-- What is extracted from a snapshot of an encoding is the members. -/
theorem ReadFrom.unpacks (h : ReadFrom sha256 lock input limits maximum snapshot)
    (hportable : ∀ m ∈ members, PortableEntry limits' m.entry)
    (hbytes : snapshot.bytes = encodeArchive members) (rule : CaseRule)
    (faults : List (Option Fault)) :
    Yields (Due faults) ⟨.dir [], faults⟩ (extractVerifiedUstar rule snapshot limits)
      fun written after => written = (members.map (·.entry.expandedBytes)).sum ∧
        Tidy rule after.tree ∧ Unpacked members after.tree := by
  refine h.extracts.mono ?_
  rintro written after ⟨rfl, htidy, hholds⟩
  refine ⟨?_, htidy, hholds.unpacked h hportable hbytes⟩
  rw [h.inventory_encodeArchive hportable hbytes, List.map_map]
  rfl

end Packed

/-! ## Extraction -/

/-- In every history, a tree whose extraction has succeeded holds exactly what the archive of its
stage says under the lock, as long as the stage is there: at most one extraction of a stage ever
succeeds, a tree is never replaced, and none is left without its stage.  Under the digest of
members that were packed it holds these members, whatever was spooled, or the stage holds other
bytes with that digest. -/
theorem stagedTree_exact (sha256 : Bytes → Sha256Output) (rule : CaseRule)
    {steps : List Staging.Step} {g : Staging}
    (hsteps : Staging.initial.history sha256 rule steps = some g) :
    (∀ u ∈ g.unpackings, ∀ written, u.result = .ok written →
      (g.sources.world.stage u.stage).isSome = true →
      g.Shows sha256 rule u written ∧
      ∀ members url digest provider limits total, u.lock = .archive url digest provider →
        validateArchiveInventory (members.map (·.entry)) limits = .ok total →
        digest.asStr = finishHex (sha256 (encodeArchive members)) →
        (∃ bytes, g.sources.world.contents (blobFile u.stage) = some bytes ∧
          bytes ≠ encodeArchive members ∧ sha256 bytes = sha256 (encodeArchive members)) ∨
        written = total ∧ ∃ tree, g.trees u.stage = some tree ∧ Unpacked members tree) ∧
    (∀ stage, g.unpackings.countP (·.succeeded stage) ≤ 1) ∧
    (∀ more last stage tree, g.history sha256 rule more = some last →
      (last.sources.world.stage stage).isSome = true → g.trees stage = some tree →
      last.trees stage = some tree) ∧
    ∀ stage, (g.trees stage).isSome = true → (g.sources.world.stage stage).isSome = true := by
  have hsound := (Staging.sound_history Staging.sound_initial hsteps).1
  refine ⟨fun u hu written hok halive => ?_, hsound.once, ?_, hsound.alive⟩
  · have hshows := hsound.shows u hu written hok halive
    refine ⟨hshows, fun members url digest provider limits total hlock htotal hdigest => ?_⟩
    obtain ⟨bytes, snapshot, tree, hbytes, hread, htree, rfl, _, hholds⟩ := hshows
    have hfrom := readVerifiedUstarSnapshot_eq_ok_iff.mp hread
    obtain ⟨hadmissible, rfl⟩ := validateArchiveInventory_eq_ok_iff.mp htotal
    by_cases hsame : bytes = encodeArchive members
    · right
      have hpacked := (hfrom.bytes_eq (Reader.contents_ofBytes bytes)).trans hsame
      have hportable := fun m (hm : m ∈ members) =>
        hadmissible.portable m.entry (List.mem_map_of_mem hm)
      rw [hfrom.inventory_encodeArchive hportable hpacked]
      exact ⟨rfl, tree, htree, hholds.unpacked hfrom hportable hpacked⟩
    · left
      rw [hlock] at hfrom
      have hlocked := hfrom.digest
      rw [hfrom.bytes_eq (Reader.contents_ofBytes bytes), hdigest] at hlocked
      exact ⟨bytes, hbytes, hsame, finishHex_injective hlocked⟩
  · intro more last stage tree hmore halive htree
    exact (Staging.sound_history hsound hmore).2.trees stage tree halive htree

theorem Staging.history_concat {sha256 : Bytes → Sha256Output} {rule : CaseRule}
    {g mid last : Staging} {steps : List Staging.Step} {action : Staging.Step}
    (hsteps : g.history sha256 rule steps = some mid)
    (hstep : mid.step sha256 rule action = some last) :
    g.history sha256 rule (steps ++ [action]) = some last := by
  induction steps generalizing g with
  | nil =>
      cases hsteps
      rw [List.nil_append, Staging.history, hstep]
      rfl
  | cons first steps ih =>
      obtain ⟨next, hfirst, hrest⟩ := Option.bind_eq_some_iff.mp hsteps
      rw [List.cons_append, Staging.history, hfirst]
      exact ih hrest

def samplePackingSteps : List Staging.Step :=
  (.begin [ascii "txn-1"] :: samplePacking).map .store

theorem samplePackingSteps_isSome :
    (Staging.initial.history zeroHash .sensitive samplePackingSteps).isSome = true := by
  decide +kernel

/-- The stage holds the packed members. -/
def samplePacked : Staging :=
  (Staging.initial.history zeroHash .sensitive samplePackingSteps).get samplePackingSteps_isSome

theorem samplePacked_contents : samplePacked.sources.world.contents (blobFile (ascii "txn-1")) =
    some (encodeArchive sampleMembers) := by
  decide +kernel

theorem exists_packed : ∃ g, Staging.initial.history zeroHash .sensitive samplePackingSteps = some g ∧
    g.sources.world.contents (blobFile (ascii "txn-1")) = some (encodeArchive sampleMembers) ∧
    g.trees (ascii "txn-1") = none ∧
    (g.sources.world.stage (ascii "txn-1")).isSome = true :=
  ⟨samplePacked, (Option.some_get samplePackingSteps_isSome).symm, samplePacked_contents,
    Option.isNone_iff_eq_none.mp (by decide +kernel), by decide +kernel⟩

/-- The sample members are packed, staged and unpacked. -/
theorem stagedTree_exact_sample :
    ∃ g tree, Staging.initial.history zeroHash .sensitive (samplePackingSteps ++
        [.unpack (ascii "txn-1") (.archive sampleUrl sampleDigest sampleProvider) sampleLimits
          4096 []]) = some g ∧
      g.trees (ascii "txn-1") = some tree ∧ Unpacked sampleMembers tree := by
  obtain ⟨g, hpacked, hbytes, hnone, halive⟩ := exists_packed
  have hsound := (Staging.sound_history Staging.sound_initial hpacked).1
  have hlength : (encodeArchive sampleMembers).length ≤ (4096 : UInt64).toNat := by
    rw [length_sample]
    decide
  obtain ⟨snapshot, hread, _⟩ := exists_readFrom_encodeArchive zeroHash sampleMembers_admitted
    hlength (by decide) (Reader.contents_ofBytes _) sampleUrl
    (show sampleDigest.asStr = finishHex zeroDigest from rfl) sampleProvider
  rcases hrun : extractStagedUstar zeroHash .sensitive g (ascii "txn-1")
    (.archive sampleUrl sampleDigest sampleProvider) sampleLimits 4096 [] with ⟨result, trees⟩
  have hdone := @extractStagedUstar_of_read zeroHash .sensitive g (ascii "txn-1") _ _ _
    hsound.sources.tidy _ _ hbytes (readVerifiedUstarSnapshot_eq_ok_iff.mpr hread) hnone []
  rw [hrun] at hdone
  obtain ⟨rfl, _⟩ | ⟨_, hmem, _⟩ := hdone
  · have hsteps := Staging.history_concat hpacked (Staging.step_unpack hrun)
    obtain ⟨hshows, _⟩ := stagedTree_exact zeroHash .sensitive hsteps
    obtain ⟨_, hmembers⟩ :=
      hshows _ (List.mem_append_right _ (List.mem_singleton_self _)) _ rfl halive
    obtain ⟨bytes, hstaged, hother, _⟩ | ⟨_, tree, htree, hunpacked⟩ := hmembers sampleMembers
      sampleUrl sampleDigest sampleProvider sampleLimits 3 rfl sampleMembers_admitted rfl
    · exact absurd (Option.some.inj (hstaged.symm.trans hbytes)) hother
    · exact ⟨_, tree, hsteps, htree, hunpacked⟩
  · cases hmem

/-! ## From the packer to the tree -/

section Pipeline

variable {sha256 : Bytes → Sha256Output} {s t : State} {stage : Bytes}

/-- What a successful spool has staged is what its reader delivers, as long as the stage is
there. -/
theorem contents_of_spools (h : s.Sound sha256) (hserial : s.Serial stage) {agent : Agent}
    {input : Reader} {cap : UInt64} {more between : List Prep.Store.Source.Step} {staged : State}
    {total : Nat} (hcall : Call.Spools sha256 s agent stage input cap more staged (.ok total))
    (hbetween : history sha256 staged between = some t)
    (halive : (t.world.stage stage).isSome = true) {bytes : Bytes}
    (hinput : input.contents = some bytes) :
    bytes.length = total ∧ t.world.contents (blobFile stage) = some bytes := by
  obtain ⟨_, delivered, hdelivered, hlength, _, hstaged⟩ :=
    (leads_of_call h hserial hcall).1 total rfl
  obtain rfl : bytes = delivered := Option.some.inj (hinput.symm.trans hdelivered)
  have hsound := (sound_history h hcall.runs).1
  exact ⟨hlength, contents_of_later (sound_history hsound hbetween).2 halive hstaged⟩

/-- After a caching has succeeded, the archive is loaded from the cache, or the store has another
file with its digest. -/
theorem loadCachedUstar_of_cached (h : s.Sound sha256) {agent : Agent} {amount : Nat}
    {cached last : State} {after : List Prep.Store.Source.Step} {url : SourceUrl}
    {digest : Sha256Digest} {provider : ProviderIdentity} {maximum : UInt64}
    (hmove : step sha256 s (.move agent amount) = some cached)
    (hreturned : cached.returned =
      s.returned ++ [.cached stage digest.asStr maximum (.ok ())])
    (hafter : history sha256 cached after = some last) {bytes : Bytes}
    (hbytes : s.world.contents (blobFile stage) = some bytes) (limits : ArchiveLimits) :
    maximum.toNat ≤ maxCacheArchiveBytes ∧
    ((∃ ino < last.world.nextIno, sha256 (last.world.inode ino).contents = sha256 bytes ∧
        (last.world.inode ino).contents ≠ bytes) ∨
      bytes.length ≤ maximum.toNat ∧
      loadCachedUstar sha256 last.world (.archive url digest provider) limits maximum =
        ((readVerifiedUstarSnapshot sha256 (.archive url digest provider) (.ofBytes bytes) limits
          maximum).mapError .verification).map some) := by
  have hcached := (sound_step h hmove).1
  obtain ⟨hlast, hlater⟩ := sound_history hcached hafter
  obtain ⟨hex, staged, ino, hcanonical, hmaximum, hhex, hstaged, hfound, hlength⟩ :=
    move_cached h hmove hreturned
  obtain rfl : digest.asStr = hex :=
    Except.ok.inj ((canonicalSourceSha256_asStr digest).symm.trans hcanonical)
  obtain rfl : staged = bytes := Option.some.inj (hstaged.symm.trans hbytes)
  obtain ⟨hkept, hsame⟩ := hlater.cached digest.asStr ino hfound
  have hdigest := hlast.tidy.digest digest.asStr ino hkept
  have hino := (hlast.tidy.named (.cached digest.asStr) ino hkept).1
  refine ⟨hmaximum, ?_⟩
  by_cases hcontents : (last.world.inode ino).contents = staged
  · right
    rw [← hsame] at hlength
    rw [loadCachedUstar_eq hlast.tidy hkept hmaximum hlength url provider limits, hcontents]
    rw [hcontents] at hlength
    exact ⟨hlength, rfl⟩
  · exact Or.inl ⟨ino, hino, finishHex_injective (hdigest.trans hhex.symm), hcontents⟩

end Pipeline

/-- What was packed is what comes out.  Once the bytes of packed members have been spooled, in
whatever pieces they arrived and whatever else the store was doing, unpacking the stage under
their digest puts exactly the members into its tree; and once they have been cached, the archive
that is loaded without the stage unpacks to exactly the members, or the store holds another file
with their digest.  Only calls of the operating system can fail. -/
theorem packed_archive_unpacked (sha256 : Bytes → Sha256Output) (rule : CaseRule)
    (members : List TarMember) (limits : ArchiveLimits) (total : Nat)
    (htotal : validateArchiveInventory (members.map (·.entry)) limits = .ok total)
    (url : SourceUrl) (digest : Sha256Digest) (provider : ProviderIdentity)
    (hdigest : digest.asStr = finishHex (sha256 (encodeArchive members)))
    {before more between : List Prep.Store.Source.Step} {s staged t : State}
    (hbefore : history sha256 State.initial before = some s) {agent : Agent} {stage : Bytes}
    {input : Reader} (hinput : input.contents = some (encodeArchive members)) {cap : UInt64}
    {spooled : Nat} (hcall : Call.Spools sha256 s agent stage input cap more staged (.ok spooled))
    (hbetween : history sha256 staged between = some t)
    (halive : (t.world.stage stage).isSome = true) :
    (∀ (g : Staging) (maximum : UInt64) (faults : List (Option Fault)), g.sources = t →
      g.trees stage = none → spooled ≤ maximum.toNat →
      maximum.toNat ≤ maxArchiveSnapshotBytes →
      ((extractStagedUstar sha256 rule g stage (.archive url digest provider) limits maximum
          faults).1 = .ok total ∧
        ∃ tree, (extractStagedUstar sha256 rule g stage (.archive url digest provider) limits
          maximum faults).2 stage = some tree ∧ Tidy rule tree ∧ Unpacked members tree) ∨
      ∃ fault, some fault ∈ faults ∧
        (extractStagedUstar sha256 rule g stage (.archive url digest provider) limits maximum
          faults).1 = .error (.extraction (.io (.os fault.code)))) ∧
    ∀ (agent' : Agent) (amount : Nat) (cached last : State)
      (after : List Prep.Store.Source.Step) (maximum : UInt64),
      step sha256 t (.move agent' amount) = some cached →
      cached.returned = t.returned ++ [.cached stage digest.asStr maximum (.ok ())] →
      history sha256 cached after = some last →
      (∃ ino < last.world.nextIno,
        sha256 (last.world.inode ino).contents = sha256 (encodeArchive members) ∧
        (last.world.inode ino).contents ≠ encodeArchive members) ∨
      ∃ snapshot, loadCachedUstar sha256 last.world (.archive url digest provider) limits maximum =
          .ok (some snapshot) ∧
        ∀ faults, Yields (Due faults) ⟨.dir [], faults⟩
          (extractVerifiedUstar rule snapshot limits) fun written after =>
            written = total ∧ Tidy rule after.tree ∧ Unpacked members after.tree := by
  obtain ⟨hsound, _⟩ := sound_history sound_initial hbefore
  have hserial := @serial_history sha256 State.initial s stage sound_initial serial_initial
    before hbefore
  obtain ⟨hlength, hbytes⟩ := contents_of_spools hsound hserial hcall hbetween halive hinput
  have ht := (sound_history (sound_history hsound hcall.runs).1 hbetween).1
  obtain ⟨hadmissible, rfl⟩ := validateArchiveInventory_eq_ok_iff.mp htotal
  have hportable := fun m (hm : m ∈ members) =>
    hadmissible.portable m.entry (List.mem_map_of_mem hm)
  -- the packed bytes are accepted under their digest, wherever they are read from
  have hsnapshot : ∀ maximum : UInt64, (encodeArchive members).length ≤ maximum.toNat →
      maximum.toNat ≤ maxArchiveSnapshotBytes → ∃ snapshot,
        ReadFrom sha256 (.archive url digest provider) (.ofBytes (encodeArchive members)) limits
          maximum snapshot ∧ snapshot.bytes = encodeArchive members := by
    intro maximum hfits hcap
    obtain ⟨snapshot, hread, hsame, _⟩ := exists_readFrom_encodeArchive sha256 htotal hfits hcap
      (Reader.contents_ofBytes _) url hdigest provider
    exact ⟨snapshot, hread, hsame⟩
  refine ⟨?_, ?_⟩
  · rintro g maximum faults rfl hnone hfits hcap
    obtain ⟨snapshot, hread, hsame⟩ := hsnapshot maximum (hlength.trans_le hfits) hcap
    rcases extractStagedUstar_of_read ht.tidy hbytes
      (readVerifiedUstarSnapshot_eq_ok_iff.mpr hread) hnone faults with
      ⟨hok, tree, htree, htidy, hholds⟩ | hfault
    · left
      rw [hread.inventory_encodeArchive hportable hsame] at hok
      exact ⟨hok, tree, htree, htidy, hholds.unpacked hread hportable hsame⟩
    · exact Or.inr hfault
  · intro agent' amount cached last after maximum hmove hreturned hafter
    obtain ⟨hmaximum, hcollision | ⟨hfits, hload⟩⟩ := loadCachedUstar_of_cached ht hmove hreturned
      hafter hbytes limits
    · exact Or.inl hcollision
    · right
      obtain ⟨snapshot, hread, hsame⟩ := hsnapshot maximum hfits hmaximum
      rw [readVerifiedUstarSnapshot_eq_ok_iff.mpr hread] at hload
      refine ⟨snapshot, hload, fun faults => (hread.unpacks hportable hsame rule faults).mono ?_⟩
      rintro written after ⟨rfl, hrest⟩
      rw [List.map_map]
      exact ⟨rfl, hrest⟩

theorem samplePacking_spools : Call.Spools zeroHash samplePackingBegun 0 (ascii "txn-1")
    (.ofBytes (encodeArchive sampleMembers)) 4096
    [.move 0 0, .move 0 0, .move 0 0, .move 0 0] samplePackingSpooled (.ok 2560) where
  runs := (Option.some_get samplePacking_isSome).symm
  calls action haction := by
    obtain rfl := List.eq_of_mem_replicate (n := 4) haction
    exact id
  last action haction := by
    obtain rfl := List.eq_of_mem_replicate (n := 4) (List.mem_of_mem_getLast? haction)
    rfl
  idle := Option.isNone_iff_eq_none.mp (by decide +kernel)
  returned := by decide +kernel

/-- The sample members are packed, cached and unpacked when their stage is gone. -/
theorem packed_archive_unpacked_sample :
    ∃ snapshot after, loadCachedUstar zeroHash samplePackingDropped.world
        (.archive sampleUrl sampleDigest sampleProvider) sampleLimits 4096 =
          .ok (some snapshot) ∧
      (extractVerifiedUstar .sensitive snapshot sampleLimits).run ⟨.dir [], []⟩ =
        (.ok 3, after) ∧ Unpacked sampleMembers after.tree := by
  obtain ⟨_, hoffline⟩ := packed_archive_unpacked zeroHash .sensitive sampleMembers sampleLimits 3
    sampleMembers_admitted sampleUrl sampleDigest sampleProvider rfl
    (Option.some_get samplePackingBegun_isSome).symm (Reader.contents_ofBytes _)
    samplePacking_spools (Option.some_get sampleCachingPacked_isSome).symm (by decide +kernel)
  obtain ⟨ino, hino, _, hother⟩ | ⟨snapshot, hload, hextracts⟩ := hoffline 0 0 samplePackingCached
    samplePackingDropped [.drop (ascii "txn-1")] 4096
    (Option.some_get samplePackingPublish_isSome).symm (by decide +kernel)
    (Option.some_get samplePackingDrop_isSome).symm
  · have hsame : ∀ ino < samplePackingDropped.world.nextIno,
        (samplePackingDropped.world.inode ino).contents = encodeArchive sampleMembers := by
      decide +kernel
    exact absurd (hsame ino hino) hother
  · rcases hrun : (extractVerifiedUstar .sensitive snapshot sampleLimits).run ⟨.dir [], []⟩ with
      ⟨written | written, after⟩
    · obtain ⟨_, hmem, _⟩ := (hextracts []).of_error hrun
      cases hmem
    · obtain ⟨rfl, _, hunpacked⟩ := (hextracts []).of_ok hrun
      exact ⟨snapshot, after, hload, hrun, hunpacked⟩

end Prep.Core
