/-
  Store/OpRules.lean --- what the shared pieces of the operations ensure.

  Looking at results and staged trees, taking and letting go of the store lock, and the
  life of a lease.
-/
import Prep.Store.CallRules

set_option autoImplicit false

namespace Prep.Store

open Prep.Machine
open Prep.Text
open Prep.Fs (Node Path)
open Prep.Io (IoError)

section OpRules

variable {σ : Setting} {a : Agent} {α : Type} {P : World → Prop}

/-! ## The store lock -/

theorem meets_quietOp {operation : String} {path : Path} (c : Quiet) (hP : σ.Stable a P) :
    σ.Meets a P (orIo operation path (perform (.quiet c))).run (Ends (fun _ => P) (Failed a P)) :=
  meets_orIo (meets_quiet c hP)

theorem meets_verifyDirectories (hP : σ.Stable a P) (paths : List Path) :
    σ.Meets a P (verifyDirectories paths).run (Ends (fun _ => P) (Failed a P)) := by
  induction paths with
  | nil => exact meets_mono (meets_return hP ()) (fun _ _ h => h.2) fun _ h => h
  | cons path rest ih =>
      refine meets_seq (meets_quietOp _ hP) (fun _ h => h) fun _ => ?_
      exact meets_seq (meets_quietOp _ hP) (fun _ h => h) fun _ => ih

theorem meets_verifyLayout (hP : σ.Stable a P) :
    σ.Meets a P verifyLayout.run (Ends (fun _ => P) (Failed a P)) :=
  meets_seq (meets_quietOp _ hP) (fun _ h => h) fun _ => meets_verifyDirectories hP _

theorem meets_openLockFile (hP : σ.Stable a P) :
    σ.Meets a P openLockFile.run (Ends (fun _ => P) (Failed a P)) := by
  refine meets_seq (meets_quietOp _ hP) (fun _ h => h) fun _ => ?_
  refine meets_seq (meets_quietOp _ hP) (fun _ h => h) fun _ => ?_
  exact meets_seq (meets_quietOp _ hP) (fun _ h => h) fun _ => meets_quietOp _ hP

theorem meets_lockStore {Q : Shared → World → Prop} (hP : σ.Stable a P)
    (hQ : ∀ before, σ.Stable a (Q before))
    (henter : ∀ w, Inv σ.codec σ.config w → P w →
      Q w.toShared { w with storeLock := some a, entered := w.toShared }) :
    σ.Meets a P lockStore.run (Ends (fun _ w => ∃ before, Q before w) (Failed a P)) := by
  refine meets_seq (meets_verifyLayout hP) (fun _ h => h) fun _ => ?_
  refine meets_seq (meets_openLockFile hP) (fun _ h => h) fun _ => ?_
  exact meets_orIo (meets_lockStoreCall hP hQ henter)

/-- What is done under the lock, up to where the lock is let go. -/
theorem meets_unlocking {act : Act α} {outcome : α → Outcome} {Q R : α → World → Prop}
    (h : σ.Meets a P act Q) (hQ : ∀ x, σ.Stable a (Q x)) (hR : ∀ x, σ.Stable a (R x))
    (hkept : ∀ x w, Inv σ.codec σ.config w → Q x w →
      Guard σ.codec σ.config σ.clients a (.unlockStore (outcome x)) w)
    (hleave : ∀ x w visits, Q x w → R x { w with storeLock := none, visits := visits }) :
    σ.Meets a P (unlocking act outcome) R := by
  refine Discipline.Triple.bind h fun x => ?_
  refine Discipline.Triple.bind (meets_unlockStore (hQ x) (hR x) (hkept x) (hleave x)) fun _ => ?_
  exact Discipline.triple_ret (hR x) fun _ _ hx => hx

/-- An operation under the store lock. -/
theorem meets_locked {op : Op α} {outcome : Except StoreError α → Outcome}
    {Q : Shared → World → Prop} {R S : Except StoreError α → World → Prop}
    (hP : σ.Stable a P) (hQ : ∀ before, σ.Stable a (Q before))
    (henter : ∀ w, Inv σ.codec σ.config w → P w →
      Q w.toShared { w with storeLock := some a, entered := w.toShared })
    (hop : ∀ before, σ.Meets a (Q before) op.run R) (hR : ∀ result, σ.Stable a (R result))
    (hS : ∀ result, σ.Stable a (S result))
    (hkept : ∀ result w, Inv σ.codec σ.config w → R result w →
      Guard σ.codec σ.config σ.clients a (.unlockStore (outcome result)) w)
    (hleave : ∀ result w visits, R result w →
      S result { w with storeLock := none, visits := visits })
    (hfailed : ∀ e w, Failed a P w → S (.error e) w) :
    σ.Meets a P (locked op outcome).run S := by
  refine Discipline.Triple.bindE (meets_lockStore hP hQ henter) (fun _ => ?_)
    fun e w _ h => hfailed e w h
  refine Discipline.triple_exists fun before => ?_
  exact meets_unlocking (hop before) hR hS hkept hleave

/-! ## Leases -/

/-- A lease that is there is found again, or a call has failed. -/
theorem meets_verifyOpenFileIdentity {file : Bytes} {ino : Nat} (hP : σ.Stable a P)
    (hlock : ∀ w, P w → w.storeLock = some a) (hlease : ∀ w, P w → w.LeaseIs file ino) :
    σ.Meets a P (verifyOpenFileIdentity file ino).run (Ends (fun _ => P) (Failed a P)) := by
  refine @meets_seq σ a _ _ P _ _ _ _ (fun found w => found = ino ∧ P w) _
    (meets_orIo (meets_mono (meets_statLease file hP hlock) ?_ ?_)) (fun _ h => h) fun found => ?_
  · rintro found w ⟨hw, holder, hfound⟩
    obtain ⟨holder', hino⟩ := hlease w hw
    cases hfound.symm.trans hino
    exact ⟨rfl, hw⟩
  · rintro w ⟨hw, hfault | hnone⟩
    · exact ⟨hw, hfault⟩
    · obtain ⟨holder, hino⟩ := hlease w hw
      cases hnone.symm.trans hino
  · refine Discipline.triple_of fun hfound => ?_
    refine meets_seq (meets_quietOp _ hP) (fun _ h => h) fun _ => ?_
    rw [if_neg (not_not.mpr hfound)]
    exact meets_mono (meets_return hP ()) (fun _ _ h => h.2) fun _ h => h

/-- A lease file that is there is opened. -/
theorem meets_openExistingLockFile {file : Bytes} (hP : σ.Stable a P)
    (hlock : ∀ w, P w → w.storeLock = some a) :
    σ.Meets a P (openExistingLockFile file).run (Ends (fun ino w => P w ∧ w.LeaseIs file ino)
      fun w => P w ∧ (w.faulted a = true ∨ w.lease file = none)) := by
  refine meets_seq (meets_orIo (meets_statLease file hP hlock)) (fun _ h => h) fun _ => ?_
  refine Discipline.Triple.pre ?_ fun _ _ h => h.1
  refine meets_seq (meets_orIo (meets_openLease file hP hlock)) (fun _ h => h) fun ino => ?_
  have hleased := stable_leaseIs file hP hlock ino
  refine meets_seq (meets_verifyOpenFileIdentity hleased (fun w h => hlock w h.1) fun w h => h.2)
    (fun w h => ⟨h.1.1, .inl h.2⟩) fun _ => ?_
  exact meets_mono (meets_return hleased ino) (fun _ _ h => h.1 ▸ h.2) fun _ h => h

/-- A lease that the agent holds is removed, and its handle is closed on every way out. -/
theorem meets_releaseAndRemoveLockFile {id : Bytes} {ino : Nat} (hP : LeaseFrame σ a id P)
    (hclear : ∀ w, P w → w.Cleared a id) :
    σ.Meets a (fun w => P w ∧ w.lease (leaseFile id) = some ⟨ino, some a⟩)
      (releaseAndRemoveLockFile (leaseFile id) ino)
      (Ends (fun _ w => P w ∧ w.lease (leaseFile id) = none) (Failed a P)) := by
  have hheld := hP.stable.and (stable_leased (leaseFile id) ino)
  have hnone := stable_unheld (leaseFile id) hP.stable hP.inside
  have hremove : σ.Meets a (fun w => P w ∧ w.lease (leaseFile id) = some ⟨ino, some a⟩)
      (do
        verifyOpenFileIdentity (leaseFile id) ino
        orIo "remove lock file" (leasePath (leaseFile id)) (perform (.removeLease (leaseFile id)))
        orIo "unlock removed lock file" (leasePath (leaseFile id))
          (perform (.unlockLease (leaseFile id) ino)) : Op Unit).run
      (Ends (fun _ w => P w ∧ w.lease (leaseFile id) = none) (Failed a P)) := by
    refine meets_seq (meets_verifyOpenFileIdentity hheld (fun w h => hP.inside w h.1)
      fun w h => ⟨_, h.2⟩) (fun w h => ⟨h.1.1, h.2⟩) fun _ => ?_
    refine meets_seq (meets_orIo (meets_removeLease hP hclear)) (fun _ h => h) fun _ => ?_
    exact meets_orIo (meets_mono (meets_unlockLease hnone (fun w h => hP.inside w h.1)
      fun w h => h.2) (fun _ _ h => h) fun w h => ⟨h.1.1, h.2⟩)
  refine Discipline.Triple.bind hremove fun result => ?_
  cases result with
  | ok _ =>
      refine Discipline.Triple.bind (meets_closeLease hnone hnone
        (fun w h => .inl (hP.inside w h.1)) fun w h => ?_) fun _ =>
          Discipline.triple_ret hnone fun _ _ h => h
      rw [release_of_none h.2]
      exact h
  | error e =>
      have hfailed := stable_failed hP.stable
      refine Discipline.Triple.bind (meets_closeLease hfailed hfailed
        (fun w h => .inl (hP.inside w h.1)) fun w h => ?_) fun _ =>
          Discipline.triple_ret hfailed fun _ _ h => h
      have hstep := leaseStep_release id w a ino
      exact ⟨hP.step w _ hstep h.1, hstep.faulted a h.2⟩

end OpRules

end Prep.Store
