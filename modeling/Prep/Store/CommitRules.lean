/-
  Store/CommitRules.lean --- what `StoreTransaction::commit` ensures.

  Up to the rename nothing that anybody sees has changed.  After it only a failing call
  leads to the rollback, which takes the result back or says that it could not.
-/
import Prep.Store.DropRules

set_option autoImplicit false

namespace Prep.Store

open Prep.Machine
open Prep.Text
open Prep.Fs (Node Path)
open Prep.Io (IoError)

/-- What a commit has come to when it lets the lock go. -/
structure Concluded (σ : Setting) (a : Agent) (before : Shared) (name : Bytes)
    (id : StoreResultId) (committed : Committed) (w : World) : Prop where
  storeLock : w.storeLock = some a
  entered : w.entered = before
  sources : before.SameIn .sources w.toShared
  accounted : w.Accounted
  kept : CommitKept σ.codec (w.faulted a = true) name id before w.toShared committed.1
  name : committed.2.id = name
  held : committed.2.Held a w

/-- A result that has been renamed into its place, where nothing was. -/
def Renamed (a : Agent) (before : Shared) (id : StoreResultId) (tree : Node) (w : World) : Prop :=
  Inside a before (Function.update (before.node .results) id.hex (some tree)) w ∧
    (id.hex, tree) ∈ w.published

section CommitRules

variable {σ : Setting} {a : Agent} {P : World → Prop} {before : Shared} {name : Bytes} {ino : Nat}
  {id : StoreResultId} {entries : List (Bytes × Node)} {encoded : Bytes}

/-! ## Before the rename -/

/-- `write_result_metadata` adds the metadata to a staged directory that has none. -/
theorem meets_writeResultMetadata (hP : FillFrame σ a .staging name P)
    (hheld : ∀ w, P w → w.HeldBy a name)
    (hencoded : σ.codec.toToml (completeMetadata id) = .ok encoded) :
    σ.Meets a (fun w => P w ∧ w.node .staging name = some (.dir entries))
      (writeResultMetadata σ.codec name id).run (Ends
        (fun _ w => entries.lookup metadataName = none ∧
          P w ∧ w.node .staging name = some (withMetadata entries encoded))
        fun w => P w ∧ (w.faulted a = true ∨ entries.lookup metadataName ≠ none)) := by
  unfold writeResultMetadata
  rw [hencoded]
  refine meets_seq (meets_orIo (meets_createNew hP hheld)) (fun _ h => h)
    fun _ => Discipline.triple_of fun hnone => ?_
  refine meets_seq (meets_orIo (meets_write hP hheld hnone)) (fun _ h => ⟨h.1, .inl h.2⟩) fun _ => ?_
  have hwritten := stable_staged isStaging_staging hP.stable hheld
    fun node => node = some (withMetadata entries encoded)
  exact meets_mono (meets_quietOp _ hwritten) (fun _ _ h => ⟨hnone, h⟩)
    fun w h => ⟨h.1.1, .inl h.2⟩

/-- What an agent has of a transaction while it commits, up to the rename. -/
def Committing (a : Agent) (before : Shared) (name : Bytes) (ino : Nat) (w : World) : Prop :=
  Holding a before (before.node .results) .staging name ino w ∧ Placed a .staging name w

/-- What is staged when `commit` has the lock. -/
def Staged (a : Agent) (before : Shared) (name : Bytes) (ino : Nat) (w : World) : Prop :=
  Committing a before name ino w ∧ w.node .staging name = before.node .staging name

theorem fillFrame_committing : FillFrame σ a .staging name (Committing a before name ino) where
  stable v w hinv hrely h := by
    have hholding := stable_holding v w hinv hrely h.1
    refine ⟨hholding, h.2.imp (hrely.faulted a) fun hsome => ?_⟩
    rw [hrely.node .staging name isStaging_staging h.1.held]
    exact hsome
  inside _ h := h.1.inside.storeLock
  step w w' hstep hsome h :=
    ⟨(workFrame_holding isStaging_staging).step (σ := σ) w w' hstep h.1, .inr hsome⟩

/-- The handle is kept. -/
theorem Committing.held {w : World} (h : Committing a before name ino w) :
    StoreTransaction.Held ⟨name, some ino, false⟩ a w :=
  ⟨⟨h.1.owns, h.2⟩, fun hfinished => by cases hfinished⟩

theorem stable_stagedEntry : σ.Stable a (Staged a before name ino) :=
  stable_staged isStaging_staging fillFrame_committing.stable (fun _ h => h.1.held)
    fun node => node = before.node .staging name

theorem checks_ensureSameFilesystem (hP : σ.Stable a P) (tx : StoreTransaction) :
    σ.Checks a P (ensureSameFilesystem tx) True :=
  checks_congr (checks_seq (checks_quiet _ hP) fun _ => checks_quiet _ hP) (and_self_iff)

/-- `commit` gets to the destination just with a directory that it may publish. -/
theorem meets_prepare :
    σ.Meets a (Staged a before name ino) (prepare σ.codec ⟨name, some ino, false⟩ id).run (Ends
      (fun _ w => ∃ entries encoded, (before.node .staging name = some (.dir entries) ∧
          Committable entries ∧ σ.codec.toToml (completeMetadata id) = .ok encoded) ∧
        Committing a before name ino w ∧
        w.node .staging name = some (withMetadata entries encoded))
      fun w => Committing a before name ino w ∧ (w.faulted a = true ∨
        ∀ entries, before.node .staging name = some (.dir entries) → ¬ Committable entries)) := by
  have hstable := @stable_stagedEntry σ a before name ino
  have htop : ∀ w, Staged a before name ino w →
      w.at? ⟨.staging, name, []⟩ = before.node .staging name :=
    fun w h => (Shared.at?_top _ _ _).trans h.2
  have hprefix : ∀ w, Staged a before name ino w → w.at? ⟨.staging, name, [prefixName]⟩ =
      (before.node .staging name).bind fun tree => tree.get? [prefixName] :=
    fun w h => by rw [Shared.at?, h.2]
  refine meets_check (checks_verifyRealDirectoryWithin hstable htop _)
    (fun _ h hw => ⟨h.1, hw.imp_right fun hnot entries hdir _ => hnot ⟨_, hdir, rfl⟩⟩) fun hdir => ?_
  obtain ⟨node, hnode, hdir⟩ := hdir
  obtain ⟨entries, rfl⟩ : ∃ entries, node = .dir entries := by
    cases node with
    | dir entries => exact ⟨entries, rfl⟩
    | file | symlink | special => cases hdir
  have hchild : ((before.node .staging name).bind fun tree => tree.get? [prefixName]) =
      entries.lookup prefixName := by
    rw [hnode]
    exact Node.get?_singleton _ _
  rw [hchild] at hprefix
  have hreject : ∀ {φ : Prop}, (∀ output, entries.lookup prefixName = some output →
      validateOutputTree [] output = .ok () → φ) → ∀ w, Staged a before name ino w →
      w.faulted a = true ∨ ¬ φ → Committing a before name ino w ∧
        (w.faulted a = true ∨ ∀ entries, before.node .staging name = some (.dir entries) →
          ¬ Committable entries) := by
    refine fun hφ w h hw => ⟨h.1, hw.imp_right fun hnot other hother hcommittable => hnot ?_⟩
    cases hnode.symm.trans hother
    obtain ⟨output, hfound, haccepted⟩ := hcommittable.output
    exact hφ output hfound haccepted
  refine meets_check (checks_verifyRealDirectoryWithin hstable hprefix _)
    (hreject fun output hfound haccepted =>
      ⟨output, hfound, (validateOutputTree_eq_ok_iff.mp haccepted).1⟩) fun _ => ?_
  refine meets_check (checks_ensureSameFilesystem hstable _) (hreject fun _ _ _ => trivial) fun _ => ?_
  refine meets_check (checks_validateOutputTreeAt hstable hprefix)
    (hreject fun output hfound haccepted => ⟨output, hfound, haccepted⟩) fun houtput => ?_
  obtain ⟨output, hfound, haccepted⟩ := houtput
  refine meets_check (checks_syncOutputTree hstable hprefix hfound haccepted)
    (hreject fun _ _ _ => trivial) fun _ => ?_
  obtain ⟨encoded, hencoded, _⟩ := σ.codec.reads_back id
  have hframe := @fillFrame_committing σ a before name ino
  refine meets_seq (Discipline.Triple.pre (@meets_writeResultMetadata σ a _ name id entries encoded
    hframe (fun w h => h.1.held) hencoded) fun w _ h => ⟨h.1, h.2.trans hnode⟩)
    (fun w h => ⟨h.1, h.2.imp_right fun hroom other hother hcommittable => ?_⟩)
    fun _ => Discipline.triple_of fun hroom => ?_
  · cases hnode.symm.trans hother
    exact hroom hcommittable.room
  · have hwritten := stable_staged isStaging_staging hframe.stable (fun w h => h.1.held)
      fun node => node = some (withMetadata entries encoded)
    exact meets_mono (meets_quietOp _ hwritten)
      (fun _ _ h => ⟨entries, encoded, ⟨hnode, ⟨⟨output, hfound, haccepted⟩, hroom⟩, hencoded⟩, h⟩)
      fun w h => ⟨h.1.1, .inl h.2⟩

/-! ## What a commit has come to -/

section Concluded

variable {w : World} {tx : StoreTransaction}

theorem stable_concluded (committed : Committed) :
    σ.Stable a (Concluded σ a before name id committed) := by
  intro v w hinv hrely h
  have hstill := hrely.inside h.storeLock
  have hinside : Inside a before (v.node .results) v :=
    ⟨h.storeLock, h.entered, fun _ => rfl, h.sources⟩
  have hnext := stable_inside _ _ v w hinv hrely hinside
  refine ⟨hnext.storeLock, hnext.entered, hnext.sources, fun hex node hnode => ?_, ?_, h.name,
    stable_txHeld _ v w hinv hrely h.held⟩
  · rw [hstill.entered, hstill.published, hstill.remains]
    exact h.accounted hex node ((hstill.results hex).symm.trans hnode)
  · exact h.kept.congr hstill.results (hrely.faulted a)

theorem Inside.concluded {e : StoreError} (h : Inside a before (before.node .results) w)
    (hreason : w.faulted a = true ∨
      (∀ entries, before.node .staging name = some (.dir entries) → ¬ Committable entries) ∨
      ∃ tree, before.node .results id.hex = some tree ∧ ¬ ValidResult σ.codec id tree)
    (hname : tx.id = name) (hheld : tx.Held a w) :
    Concluded σ a before name id (.error e, tx) w :=
  ⟨h.storeLock, h.entered, h.sources, h.accounted, ⟨.inl h.results, hreason⟩, hname, hheld⟩

theorem Remaining.concluded {failure rollback : StoreError}
    (h : Remaining a before (before.node .results) id.hex w) (hfault : w.faulted a = true)
    (hname : tx.id = name) (hheld : tx.Held a w) :
    Concluded σ a before name id (.error (rollbackFailed id failure rollback), tx) w := by
  obtain ⟨⟨node, hinside⟩, hleft⟩ := h
  refine ⟨hinside.storeLock, hinside.entered, hinside.sources, fun hex tree htree => ?_,
    ⟨.inr ⟨hfault, ⟨failure, rollback, rfl⟩, fun hex hne => ?_⟩, .inl hfault⟩, hname, hheld⟩
  · rcases eq_or_ne hex id.hex with rfl | hne
    · exact .inr (hleft tree htree)
    · refine .inl ?_
      rw [hinside.entered, ← htree, hinside.results, Function.update_of_ne hne]
  · exact (hinside.results hex).trans (Function.update_of_ne hne ..)

end Concluded

/-! ## After the rename -/

theorem stable_renamed (tree : Node) : σ.Stable a (Renamed a before id tree) :=
  stable_undisturbed (stable_inside _ _) (fun _ h => h.storeLock) fun _ _ _ hstill h => by
    rw [hstill.published]
    exact h

theorem leaseFrame_renamed (tree : Node) :
    LeaseFrame σ a name (Renamed a before id tree) where
  stable := stable_renamed tree
  inside _ h := h.1.storeLock
  step _ _ hstep h := ⟨h.1.leaseStep hstep, by rw [hstep.published]; exact h.2⟩

/-- `rollback_published_result` takes a result back, or leaves what is left of it. -/
theorem meets_rollbackPublishedResult {tree : Node} (hclient : σ.clients a = .transaction)
    (hbefore : before.node .results id.hex = none) (htree : tree.isDir = true)
    (hP : σ.Stable a P) (hstep : ∀ w w', WorkStep .results id.hex w w' → P w → P w') :
    σ.Meets a (fun w => (Renamed a before id tree w ∧ w.faulted a = true) ∧ P w)
      (rollbackPublishedResult id).run (Ends
        (fun _ w => Inside a before (before.node .results) w ∧ w.faulted a = true ∧ P w)
        fun w => Remaining a before (before.node .results) id.hex w ∧ w.faulted a = true ∧ P w) := by
  have hframe := (stable_faulted (σ := σ) (a := a) a).and hP
  have hrenamed := ((@stable_renamed σ a before id tree).and (stable_faulted a)).and hP
  have hback : Function.update (before.node .results) id.hex none = before.node .results := by
    rw [← hbefore]
    exact Function.update_eq_self ..
  refine meets_check (@checks_validateResultDirectory σ a _ (resultPlace id) (some tree) hrenamed
    (fun w h => ?_) _) (fun w h _ => ⟨⟨⟨_, h.1.1.1⟩, fun found hfound => .inl ?_⟩, h.1.2, h.2⟩)
    fun _ => ?_
  · refine (Shared.at?_top _ _ _).trans ((h.1.1.1.results id.hex).trans ?_)
    exact Function.update_self ..
  · rw [h.1.1.1.results, Function.update_self] at hfound
    exact Option.some.inj hfound ▸ h.1.1.2
  · have hremove := @meets_rollBack σ a _ before (before.node .results) id.hex hclient hbefore
      hframe fun w w' hw h => ⟨hw.faulted a h.1, hstep w w' hw h.2⟩
    refine meets_seq (meets_orIo (Discipline.Triple.pre hremove fun w _ h => ?_)) (fun _ h => h)
      fun _ => ?_
    · refine ⟨⟨⟨some tree, fun found hfound => ?_, h.1.1.1⟩, h.1.2⟩, h.1.2, h.2⟩
      exact Option.some.inj hfound ▸ htree
    · rw [hback]
      refine meets_mono (meets_quietOp _ ((stable_inside before _).and hframe)) (fun _ _ h => h)
        fun w h => ⟨⟨⟨none, ?_⟩, fun found hfound => ?_⟩, h.1.2⟩
      · rw [hback]
        exact h.1.1
      · rw [h.1.1.results, hbefore] at hfound
        cases hfound

/-- `finish_lease` leaves a transaction without its lease. -/
theorem meets_finishLease (finished : Bool) (hP : LeaseFrame σ a name P)
    (hclear : ∀ w, P w → w.Cleared a name) :
    σ.Meets a (fun w => P w ∧ w.lease (leaseFile name) = some ⟨ino, some a⟩)
      (finishLease ⟨name, some ino, finished⟩)
      fun result w => result.2 = ⟨name, none, finished⟩ ∧
        Ends (fun _ => P) (Failed a P) result.1 w := by
  refine Discipline.Triple.bind (meets_releaseAndRemoveLockFile hP hclear) fun result => ?_
  cases result with
  | ok _ =>
      exact Discipline.triple_ret (stable_unheld _ hP.stable hP.inside) fun _ _ h => ⟨rfl, h.1⟩
  | error e => exact Discipline.triple_ret (stable_failed hP.stable) fun _ _ h => ⟨rfl, h⟩

/-- `fail_after_publish` of a transaction that has its lease. -/
theorem meets_failAfterPublish {tree : Node} (failure : StoreError)
    (hclient : σ.clients a = .transaction) (hbefore : before.node .results id.hex = none)
    (htree : tree.isDir = true) :
    σ.Meets a (fun w => (Renamed a before id tree w ∧ w.faulted a = true) ∧ Owns a name ino w)
      (failAfterPublish ⟨name, some ino, false⟩ id failure true)
      (Concluded σ a before name id) := by
  have hrollback := @meets_rollbackPublishedResult σ a _ before id tree hclient hbefore htree
    (stable_owns name ino) fun w w' hw h => h.workStep hw
  refine Discipline.Triple.bind hrollback fun rolledBack => ?_
  cases rolledBack with
  | error rollback =>
      refine Discipline.triple_ret (stable_remaining.and ((stable_faulted a).and
        (stable_owns name ino))) fun w _ h => ?_
      exact h.1.concluded h.2.1 rfl ⟨⟨h.2.2, .inl h.2.1⟩, fun _ => h.2.1⟩
  | ok _ =>
      have hframe : LeaseFrame σ a name (Failed a (Inside a before (before.node .results))) :=
        (leaseFrame_inside name before _).failed
      refine Discipline.Triple.bind (Discipline.Triple.pre (meets_finishLease false hframe
        fun w h => .inl h.2) fun w _ h => ⟨⟨h.1, h.2.1⟩, h.2.2.lease⟩) fun finished => ?_
      obtain ⟨result, tx⟩ := finished
      refine Discipline.triple_of fun htx => ?_
      obtain rfl : tx = ⟨name, none, false⟩ := htx
      cases result with
      | error cleanup =>
          exact Discipline.triple_ret hframe.failed.stable fun w _ h =>
            h.1.1.concluded (.inl h.2) rfl (.inl rfl)
      | ok _ =>
          exact Discipline.triple_ret hframe.stable fun w _ h =>
            h.1.concluded (.inl h.2) rfl (.inl rfl)

/-- `fail_after_publish` of a transaction whose lease is gone. -/
theorem meets_failAfterPublish_none {tree : Node} (failure : StoreError)
    (hclient : σ.clients a = .transaction) (hbefore : before.node .results id.hex = none)
    (htree : tree.isDir = true) :
    σ.Meets a (fun w => Renamed a before id tree w ∧ w.faulted a = true)
      (failAfterPublish ⟨name, none, false⟩ id failure false)
      (Concluded σ a before name id) := by
  have hrollback := @meets_rollbackPublishedResult σ a _ before id tree hclient hbefore htree
    (Discipline.stable_const True) fun _ _ _ h => h
  refine Discipline.Triple.bind (Discipline.Triple.pre hrollback fun w _ h => ⟨h, trivial⟩)
    fun rolledBack => ?_
  have hfault := (stable_faulted (σ := σ) (a := a) a).and (Discipline.stable_const True)
  cases rolledBack with
  | error rollback =>
      exact Discipline.triple_ret (stable_remaining.and hfault) fun w _ h =>
        h.1.concluded h.2.1 rfl (.inl rfl)
  | ok _ =>
      exact Discipline.triple_ret ((stable_inside _ _).and hfault) fun w _ h =>
        h.1.concluded (.inl h.2.1) rfl (.inl rfl)

/-! ## Publication -/

/-- A result that is already there stays, and the staged one is removed. -/
theorem meets_discardRedundant (operation : String) {tree : Node}
    (hfound : before.node .results id.hex = some tree)
    (hentries : before.node .staging name = some (.dir entries))
    (hcommittable : Committable entries) :
    σ.Meets a (fun w => Holding a before (before.node .results) .staging name ino w ∧
        (w.node .staging name).isSome = true)
      (discardRedundant σ.codec ⟨name, some ino, false⟩ id operation)
      (Concluded σ a before name id) := by
  have hframe := @workFrame_holding σ a before (before.node .results) .staging name ino
    isStaging_staging
  have hstaged := stable_staged isStaging_staging hframe.stable (fun w h => h.held)
    fun node => node.isSome = true
  refine Discipline.Triple.bind (@checks_validateExistingResult σ a _ (some tree) id hstaged
    fun w h => (h.1.inside.results _).trans hfound) fun validated => ?_
  cases validated with
  | error e =>
      refine Discipline.triple_ret (hstaged.and ((stable_faulted a).or
        (Discipline.stable_const _))) fun w _ h => ?_
      refine h.1.1.inside.concluded (h.2.imp_right fun hnot => .inr ?_) rfl
        (Committing.held ⟨h.1.1, .inr h.1.2⟩)
      exact ⟨tree, hfound, fun hvalid => hnot ⟨tree, rfl, hvalid⟩⟩
  | ok _ =>
      refine Discipline.triple_of fun hvalid => ?_
      obtain ⟨found, htree, hvalid⟩ := hvalid
      obtain rfl := Option.some.inj htree
      refine Discipline.Triple.bind (Discipline.Triple.pre (@meets_removeDirAll σ a _ .staging name
        True isStaging_staging hframe fun w h => h.held) fun w _ h => ⟨h.1, fun _ => h.2⟩)
        fun removed => ?_
      cases removed with
      | error source =>
          have hnone := stable_staged isStaging_staging hframe.stable (fun w h => h.held)
            fun node => node = none
          refine Discipline.triple_ret (stable_gone hframe.stable hnone True) fun w _ h => ?_
          have hfault := h.2.resolve_right fun hgone => hgone.1 trivial
          exact h.1.inside.concluded (.inl hfault) rfl (Committing.held ⟨h.1, .inl hfault⟩)
      | ok _ =>
          have hgone : LeaseFrame σ a name fun w => Inside a before (before.node .results) w ∧
              w.Drew a name ∧ w.node .staging name = none :=
            ⟨(stable_inside before _).and (stable_unstaged .staging name isStaging_staging),
              fun w h => h.1.storeLock, fun w w' hstep h => ⟨h.1.leaseStep hstep,
                hstep.drawn a name h.2.1, (Shared.node_congr hstep.area _ _).trans h.2.2⟩⟩
          refine Discipline.Triple.bind (Discipline.Triple.pre (@meets_finishLease σ a _ name ino
            false hgone.cleared fun w h => h.2) fun w _ h => ?_) fun finished => ?_
          · exact ⟨⟨⟨h.1.inside, h.1.owns.drew, h.2⟩, h.1.sole.cleared (.inr h.2)⟩, h.1.owns.lease⟩
          · obtain ⟨result, tx⟩ := finished
            refine Discipline.triple_of fun htx => ?_
            obtain rfl : tx = ⟨name, none, false⟩ := htx
            cases result with
            | error e =>
                exact Discipline.triple_ret (stable_failed hgone.cleared.stable) fun w _ h =>
                  h.1.1.1.concluded (.inl h.2) rfl (.inr h.1.1.2)
            | ok _ =>
                refine Discipline.triple_ret hgone.cleared.stable fun w _ h => ?_
                exact ⟨h.1.1.storeLock, h.1.1.entered, h.1.1.sources, h.1.1.accounted,
                  ⟨rfl, h.1.1.results, ⟨tree, hfound, hvalid⟩, entries, hentries, hcommittable⟩, rfl,
                  .inl rfl⟩

/-- The steps of `commit` after the rename. -/
theorem meets_confirm (hclient : σ.clients a = .transaction)
    (hbefore : before.node .results id.hex = none)
    (hstaged : before.node .staging name = some (.dir entries))
    (hcommittable : Committable entries)
    (hencoded : σ.codec.toToml (completeMetadata id) = .ok encoded) :
    σ.Meets a (fun w => (Renamed a before id (withMetadata entries encoded) w ∧
        w.Cleared a name) ∧ Owns a name ino w)
      (confirm σ.codec ⟨name, some ino, false⟩ id) (Concluded σ a before name id) := by
  have hvalid := hcommittable.validResult hencoded
  have hframe := (@leaseFrame_renamed σ a before name id (withMetadata entries encoded)).cleared
  have hrenamed := hframe.stable.and (stable_owns name ino)
  refine Discipline.Triple.bind (@checks_validateExistingResult σ a _
    (some (withMetadata entries encoded)) id hrenamed fun w h => ?_) fun validated => ?_
  · rw [h.1.1.1.results, Function.update_self]
  cases validated with
  | error failure =>
      refine Discipline.Triple.pre (meets_failAfterPublish failure hclient hbefore hvalid.isDir)
        fun w _ h => ⟨⟨h.1.1.1, h.2.resolve_right ?_⟩, h.1.2⟩
      exact not_not.mpr ⟨_, rfl, hvalid⟩
  | ok _ =>
      refine Discipline.triple_of fun _ => ?_
      refine Discipline.Triple.bind (Discipline.Triple.pre (@meets_finishLease σ a _ name ino false
        hframe fun w h => h.2) fun w _ h => ⟨h.1, h.2.lease⟩) fun finished => ?_
      obtain ⟨result, tx⟩ := finished
      refine Discipline.triple_of fun htx => ?_
      obtain rfl : tx = ⟨name, none, false⟩ := htx
      cases result with
      | error failure =>
          exact Discipline.Triple.pre (meets_failAfterPublish_none failure hclient hbefore
            hvalid.isDir) fun w _ h => ⟨h.1.1, h.2⟩
      | ok _ =>
          have hdone := @stable_renamed σ a before id (withMetadata entries encoded)
          refine Discipline.Triple.bind (Discipline.Triple.pre (meets_quietOp _ hdone)
            fun w _ h => h.1) fun synced => ?_
          cases synced with
          | error failure =>
              exact meets_failAfterPublish_none failure hclient hbefore hvalid.isDir
          | ok _ =>
              refine Discipline.triple_ret hdone fun w _ h => ?_
              refine ⟨h.1.storeLock, h.1.entered, h.1.sources, fun hex node hnode => ?_,
                ⟨rfl, hbefore, entries, encoded, hstaged, hcommittable, hencoded, fun hex => ?_⟩,
                rfl, .inl rfl⟩
              · rcases eq_or_ne hex id.hex with rfl | hne
                · rw [h.1.results, Function.update_self] at hnode
                  exact .inr (.inl (Option.some.inj hnode ▸ h.2))
                · refine .inl ?_
                  rw [h.1.entered, ← hnode, h.1.results, Function.update_of_ne hne]
              · rw [h.1.results, Function.update_apply]

/-- The steps of `commit` from the look at the destination on. -/
theorem meets_publish (hclient : σ.clients a = .transaction) (hclaimed : before.HeldBy a name)
    (hstaged : before.node .staging name = some (.dir entries))
    (hcommittable : Committable entries)
    (hencoded : σ.codec.toToml (completeMetadata id) = .ok encoded) :
    σ.Meets a (fun w => Holding a before (before.node .results) .staging name ino w ∧
        w.node .staging name = some (withMetadata entries encoded))
      (publish σ.codec ⟨name, some ino, false⟩ id) (Concluded σ a before name id) := by
  have hstable := @stable_holding σ a before (before.node .results) .staging name ino
  have hready := stable_staged isStaging_staging hstable (fun w h => h.held)
    fun node => node = some (withMetadata entries encoded)
  have hat : ∀ w, Holding a before (before.node .results) .staging name ino w →
      (w.at? (resultPlace id)).isSome = (before.node .results id.hex).isSome :=
    fun w h => by rw [resultPlace, Shared.at?_top, h.inside.results]
  have hfailed : ∀ w (e : StoreError), Holding a before (before.node .results) .staging name ino w →
      w.faulted a = true → Concluded σ a before name id (.error e, ⟨name, some ino, false⟩) w :=
    fun w e h hfault =>
      h.inside.concluded (.inl hfault) rfl (Committing.held ⟨h, .inl hfault⟩)
  refine Discipline.Triple.bind (meets_nodeExists hready fun w h => hat w h.1) fun exists? => ?_
  cases exists? with
  | error e =>
      exact Discipline.triple_ret (stable_failed hready) fun w _ h => hfailed w e h.1.1 h.2
  | ok exists? =>
      refine Discipline.triple_of fun hexists => ?_
      cases hfound : before.node .results id.hex with
      | some tree =>
          rw [hexists, hfound]
          exact Discipline.Triple.pre (meets_discardRedundant _ hfound hstaged hcommittable)
            fun w _ h => ⟨h.1, by rw [h.2]; rfl⟩
      | none =>
          rw [hexists, hfound]
          refine Discipline.Triple.bind (meets_rename hclient rfl hclaimed hfound hstaged
            hcommittable hencoded) fun renamed => ?_
          cases renamed with
          | ok _ =>
              exact Discipline.Triple.pre (meets_confirm hclient hfound hstaged hcommittable
                hencoded) fun w _ h => ⟨⟨⟨h.1.1.inside, h.2⟩, h.1.1.sole.cleared (.inr h.1.2)⟩,
                  h.1.1.owns⟩
          | error source =>
              -- a rename that fails leaves the destination as it was
              refine Discipline.Triple.bind (meets_nodeExists (stable_failed hstable)
                fun w h => hat w h.1) fun exists? => ?_
              cases exists? with
              | error e =>
                  exact Discipline.triple_ret (stable_failed (stable_failed hstable))
                    fun w _ h => hfailed w e h.1.1 h.2
              | ok exists? =>
                  refine Discipline.triple_of fun hexists => ?_
                  rw [hexists, hfound]
                  exact Discipline.triple_ret (stable_failed hstable) fun w _ h =>
                    hfailed w _ h.1 h.2

/-- What `commit` does under the lock. -/
theorem meets_commitLocked (hclient : σ.clients a = .transaction)
    (hclaimed : before.HeldBy a name) :
    σ.Meets a (Staged a before name ino) (do
      match ← (prepare σ.codec ⟨name, some ino, false⟩ id).run with
      | .error e => return (.error e, ⟨name, some ino, false⟩)
      | .ok () => publish σ.codec ⟨name, some ino, false⟩ id) (Concluded σ a before name id) := by
  refine Discipline.Triple.bind meets_prepare fun prepared => ?_
  cases prepared with
  | error e =>
      exact Discipline.triple_ret (fillFrame_committing.stable.and ((stable_faulted a).or
        (Discipline.stable_const _))) fun w _ h =>
          h.1.1.inside.concluded (h.2.imp_right .inl) rfl h.1.held
  | ok _ =>
      refine Discipline.triple_exists fun entries => Discipline.triple_exists fun encoded => ?_
      exact Discipline.triple_of fun h => Discipline.Triple.pre
        (meets_publish hclient hclaimed h.1 h.2.1 h.2.2) fun _ _ hw => ⟨hw.1.1, hw.2⟩

/-- `StoreTransaction::commit` keeps its contract, and ends with the drop of its transaction. -/
theorem meets_commit (hclient : σ.clients a = .transaction) :
    σ.Meets a (Handed a .staging name ino) (commit σ.codec ⟨name, some ino, false⟩ id)
      fun _ _ => True := by
  have hhanded := @stable_handed σ a .staging isStaging_staging name ino
  have hheld := fun committed : Committed => @stable_txHeld σ a committed.2
  have htrue : σ.Stable a fun _ => True := Discipline.stable_const True
  have hdrop : ∀ committed : Committed, σ.Meets a (committed.2.Held a) (do
      dropTransaction committed.2
      return committed.1) fun _ _ => True := fun committed =>
    Discipline.Triple.bind (meets_dropTransaction committed.2) fun _ =>
      Discipline.triple_ret htrue fun _ _ _ => trivial
  refine Discipline.Triple.bind (meets_lockStore
    (Q := fun before w => before.HeldBy a name ∧ Staged a before name ino w)
    hhanded (fun _ => (Discipline.stable_const _).and stable_stagedEntry)
    fun w _ h => ⟨⟨ino, h.owns.lease⟩, ⟨holding_enter isStaging_staging h, h.placed⟩, rfl⟩)
    fun locked => ?_
  cases locked with
  | error e =>
      exact Discipline.Triple.pre (hdrop (.error e, ⟨name, some ino, false⟩)) fun _ _ h =>
        ⟨h.1, fun hfinished => by cases hfinished⟩
  | ok _ =>
      refine Discipline.triple_exists fun before => ?_
      refine Discipline.triple_of fun hclaimed => ?_
      refine Discipline.Triple.bind (meets_unlocking (meets_commitLocked hclient hclaimed)
        stable_concluded
        hheld (fun committed w _ h => ⟨h.storeLock, h.accounted, ?_⟩)
        fun committed w visits h => h.held.leave visits) hdrop
      rw [h.entered]
      exact ⟨h.sources, hclaimed, h.kept⟩

end CommitRules

end Prep.Store
