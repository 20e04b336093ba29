/-
  Store/DropRules.lean --- what the drop of a transaction and of a source stage ensures.

  A handle that has its lease lets it go.  A handle without one is finished, or nothing is
  staged under its identifier any more.
-/
import Prep.Store.CheckRules

set_option autoImplicit false

namespace Prep.Store

open Prep.Machine
open Prep.Text
open Prep.Fs (Node Path)
open Prep.Io (IoError)

/-- What an agent has of a transaction when it gets to its drop. -/
def StoreTransaction.Held (tx : StoreTransaction) (a : Agent) (w : World) : Prop :=
  match tx.lease with
  | some ino => Handed a .staging tx.id ino w ∧ (tx.finished = true → w.faulted a = true)
  | none => tx.finished = true ∨ w.Drew a tx.id ∧ w.node .staging tx.id = none

section DropRules

variable {σ : Setting} {a : Agent} {P : World → Prop} {before : Shared} {id : Bytes} {ino : Nat}

theorem stable_txHeld (tx : StoreTransaction) : σ.Stable a (tx.Held a) := by
  unfold StoreTransaction.Held
  cases tx.lease with
  | some ino =>
      exact (stable_handed isStaging_staging tx.id ino).and
        (Discipline.Stable.imp _ (stable_faulted a))
  | none => exact (Discipline.stable_const _).or (stable_unstaged .staging tx.id isStaging_staging)

/-- A handle is kept when the lock is let go. -/
theorem StoreTransaction.Held.leave {tx : StoreTransaction} {w : World} (h : tx.Held a w)
    (visits : List Visit) : tx.Held a { w with storeLock := none, visits := visits } := by
  obtain ⟨id, lease, finished⟩ := tx
  cases lease with
  | some ino => exact ⟨⟨⟨h.1.owns.drew, h.1.owns.lease⟩, h.1.placed⟩, h.2⟩
  | none => exact h

/-- The lock is taken with what the agent holds. -/
theorem holding_enter {area : Area} (harea : area.isStaging = true) {w : World}
    (h : Handed a area id ino w) : Holding a w.toShared (w.toShared.node .results) area id ino
      { w with storeLock := some a, entered := w.toShared } where
  inside := ⟨rfl, rfl, fun _ => rfl, fun _ => rfl⟩
  owns := ⟨h.owns.drew, h.owns.lease⟩
  sole := Placed.sole h.placed harea rfl

/-- A handle is closed outside the lock after a failure only. -/
theorem meets_closeOutside {file : Bytes} (hP : σ.Stable a P)
    (hfault : ∀ w, P w → w.faulted a = true) :
    σ.Meets a P (perform (.closeLease file ino)) fun _ _ => True :=
  meets_closeLease hP (Discipline.stable_const True) (fun w h => .inr (hfault w h))
    fun _ _ => trivial

/-- A lease that the agent holds is let go, whether it could be removed or not. -/
theorem meets_releaseHeld {area : Area} :
    σ.Meets a (fun w => Holding a before (before.node .results) area id ino w ∧ w.Cleared a id)
      (do
        let _ ← releaseAndRemoveLockFile (leaseFile id) ino
        return ()) fun _ => Inside a before (before.node .results) := by
  have hframe := (@leaseFrame_inside σ a id before (before.node .results)).cleared
  have hrelease := Discipline.Triple.conseq
    (@meets_releaseAndRemoveLockFile σ a _ id ino hframe fun w h => h.2)
    (fun w _ (h : Holding a before (before.node .results) area id ino w ∧ w.Cleared a id) =>
      ⟨⟨h.1.inside, h.2⟩, h.1.owns.lease⟩)
    fun result w _ h => (show Inside a before (before.node .results) w by
      cases result <;> exact h.1.1)
  exact Discipline.Triple.bind hrelease fun _ =>
    Discipline.triple_ret (stable_inside _ _) fun _ _ h => h

/-- The lease goes with the transaction, whether its directory could be removed or not. -/
theorem meets_dropHeld {area : Area} (harea : area.isStaging = true) :
    σ.Meets a (Holding a before (before.node .results) area id ino) (do
      let _ ← perform (.removeDirAll area id)
      let _ ← releaseAndRemoveLockFile (leaseFile id) ino
      return ()) fun _ => Inside a before (before.node .results) := by
  have hremove := Discipline.Triple.conseq (@meets_removeDirAll σ a _ area id False harea
    (@workFrame_holding σ a before (before.node .results) area id ino harea) fun w h => h.held)
    (fun w _ (h : Holding a before (before.node .results) area id ino w) => ⟨h, False.elim⟩)
    fun result w _ h => (show Holding a before (before.node .results) area id ino w ∧
      w.Cleared a id by
        cases result with
        | ok _ => exact ⟨h.1, h.1.sole.cleared (.inr h.2)⟩
        | error _ => exact ⟨h.1, h.1.sole.cleared (h.2.imp_right fun h => h.2)⟩)
  exact Discipline.Triple.bind hremove fun _ => meets_releaseHeld

/-- What is done under the lock leaves the results and the sources. -/
theorem meets_unlockingSame (before : Shared) {act : Act Unit} {outcome : Outcome}
    (hact : σ.Meets a P act fun _ => Inside a before (before.node .results))
    (houtcome : ∀ faulted before after, before.SameIn .sources after →
      before.SameIn .results after →
        Visit.Kept σ.codec σ.config faulted ⟨a, outcome, before, after⟩) :
    σ.Meets a P (unlocking act fun _ => outcome) fun _ _ => True :=
  meets_unlocking hact (fun _ => stable_inside _ _) (fun _ => Discipline.stable_const True)
    (fun _ _ _ h => ⟨h.storeLock, h.accounted, houtcome _ _ _ h.same.1 h.same.2⟩)
    fun _ _ _ _ => trivial

/-! ## Transactions -/

/-- `Drop for StoreTransaction`. -/
theorem meets_dropTransaction (tx : StoreTransaction) :
    σ.Meets a (tx.Held a) (dropTransaction tx) fun _ _ => True := by
  obtain ⟨id, lease, finished⟩ := tx
  have hheld := @stable_txHeld σ a ⟨id, lease, finished⟩
  cases finished with
  | true =>
      cases lease with
      | some ino => exact meets_closeOutside hheld fun w h => h.2 rfl
      | none => exact Discipline.triple_ret hheld fun _ _ _ => trivial
  | false =>
      cases lease with
      | some ino =>
          have hholding : ∀ before : Shared,
              σ.Stable a (Holding a before (before.node .results) .staging id ino) :=
            fun _ => stable_holding
          refine Discipline.Triple.bind (meets_lockStore hheld hholding
            fun w _ h => holding_enter isStaging_staging h.1) fun locked => ?_
          cases locked with
          | error e => exact meets_closeOutside (stable_failed hheld) fun w h => h.2
          | ok _ =>
              exact Discipline.triple_exists fun before =>
                meets_unlockingSame before (meets_dropHeld isStaging_staging)
                  fun _ _ _ hsources hresults => ⟨hsources, hresults⟩
      | none =>
          have hgone : ∀ before : Shared, σ.Stable a fun w =>
              Inside a before (before.node .results) w ∧ w.Drew a id ∧ w.node .staging id = none :=
            fun before => (stable_inside _ _).and (stable_unstaged .staging id isStaging_staging)
          refine Discipline.Triple.bind (meets_lockStore hheld hgone fun w _ h => ?_) fun locked => ?_
          · obtain ⟨hdrew, hnone⟩ := h.resolve_left Bool.false_ne_true
            exact ⟨⟨rfl, rfl, fun _ => rfl, fun _ => rfl⟩, hdrew, hnone⟩
          · cases locked with
            | error e => exact Discipline.triple_ret (stable_failed hheld) fun _ _ _ => trivial
            | ok _ =>
                refine Discipline.triple_exists fun before => meets_unlockingSame before ?_
                  fun _ _ _ hsources hresults => ⟨hsources, hresults⟩
                refine Discipline.Triple.bind (meets_removeDirAll_none isStaging_staging
                  (hgone before) (fun w h => h.1.storeLock) fun w h => h.2.2) fun _ => ?_
                exact Discipline.triple_ret (hgone before) fun _ _ h => h.1

/-! ## Source stages -/

/-- `Drop for UnverifiedSourceStage`. -/
theorem meets_dropStage (id : Bytes) (ino : Nat) :
    σ.Meets a (Handed a .sourceStaging id ino) (dropStage ⟨id, some ino, false⟩)
      fun _ _ => True := by
  have hhanded := @stable_handed σ a .sourceStaging isStaging_sourceStaging id ino
  have hstaged : ∀ before : Shared, σ.Stable a fun w =>
      (Holding a before (before.node .results) .sourceStaging id ino w ∧
        w.node .sourceStaging id = before.node .sourceStaging id) ∧
      (w.faulted a = true ∨ (before.node .sourceStaging id).isSome = true) := fun before =>
    (stable_staged isStaging_sourceStaging stable_holding (fun w h => h.held)
      fun node => node = before.node .sourceStaging id).and
        ((stable_faulted a).or (Discipline.stable_const _))
  refine Discipline.Triple.bind (meets_lockStore hhanded hstaged
    fun w _ h => ⟨⟨holding_enter isStaging_sourceStaging h, rfl⟩, h.placed⟩) fun locked => ?_
  cases locked with
  | error e => exact meets_closeOutside (stable_failed hhanded) fun w h => h.2
  | ok _ =>
      refine Discipline.triple_exists fun before => meets_unlockingSame before ?_
        fun _ _ _ hsources hresults => ⟨hsources, hresults⟩
      refine Discipline.Triple.bind (checks_verifyRealDirectoryWithin (hstaged before)
        (fun w h => (Shared.at?_top _ _ _).trans h.1.2) _) fun verified => ?_
      cases verified with
      | ok _ =>
          exact Discipline.Triple.pre (meets_dropHeld isStaging_sourceStaging)
            fun w _ h => h.2.1.1
      | error e =>
          -- a directory that cannot be verified stays, and the lease goes all the same
          refine Discipline.Triple.pre meets_releaseHeld fun w hinv h => ⟨h.1.1.1, .inl ?_⟩
          refine h.2.elim (fun hfault => hfault) fun hnot => h.1.2.resolve_right fun hsome => hnot ?_
          obtain ⟨node, hnode⟩ := Option.isSome_iff_exists.mp hsome
          exact ⟨node, hnode, (hinv.stagedValid .sourceStaging _ node isStaging_sourceStaging
            (h.1.1.2.trans hnode)).2⟩

end DropRules

end Prep.Store
