/-
  Store/BeginRules.lean --- what `Store::begin` and `Store::begin_unverified_source` ensure.

  An attempt that fails leaves the leases and the staged directories as it has found them,
  but for leases of its own that it could not remove.  So a lease that is new was new when
  the lock was taken, and nothing was staged under its identifier.
-/
import Prep.Store.OpRules

set_option autoImplicit false

namespace Prep.Store

open Prep.Machine
open Prep.Text
open Prep.Fs (Node Path)
open Prep.Io (IoError)

/-- Nothing has been staged since the lock was taken, and no lease is gone besides one. -/
structure Seeking (a : Agent) (before : Shared) (besides : Option Bytes) (w : World) : Prop where
  inside : Inside a before (before.node .results) w
  staged : ∀ area id, w.StagedIn area id ↔ before.StagedIn area id
  leases : ∀ file, some file ≠ besides → w.lease file = none → before.lease file = none

/-- An agent has a lease, and what is staged under its identifier is staged in one area. -/
structure Placing (a : Agent) (before : Shared) (area : Area) (id : Bytes) (ino : Nat) (w : World) :
    Prop where
  inside : Inside a before (before.node .results) w
  owns : Owns a id ino w
  once : before.Paired → ∀ other, w.StagedIn other id → other = area

section Begin

variable {σ : Setting} {a : Agent} {before : Shared} {area : Area} {id : Bytes} {ino : Nat}
  {w : World}

theorem stable_seeking (besides : Option Bytes) : σ.Stable a (Seeking a before besides) := by
  intro v w hinv hrely h
  have hstill := hrely.inside h.inside.storeLock
  refine ⟨stable_inside _ _ v w hinv hrely h.inside, fun area id => ?_, fun file hne hnone => ?_⟩
  · exact (hstill.staged area id).trans (h.staged area id)
  · refine h.leases file hne (Option.isNone_iff_eq_none.mp ?_)
    rw [← Option.not_isSome, Bool.not_eq_true', Bool.eq_false_iff, ne_eq, ← hstill.lease_isSome file,
      hnone]
    exact Bool.false_ne_true

theorem leaseFrame_seeking : LeaseFrame σ a id (Seeking a before (some (leaseFile id))) where
  stable := stable_seeking _
  inside _ h := h.inside.storeLock
  step w w' hstep h := by
    refine ⟨h.inside.leaseStep hstep, fun area other => ?_, fun file hne hnone => ?_⟩
    · rw [Shared.StagedIn, Shared.node_congr hstep.area]
      exact h.staged area other
    · refine h.leases file hne ?_
      rw [← hstep.lease file fun heq => hne (congrArg some heq)]
      exact hnone

theorem Seeking.besides (h : Seeking a before none w) (file : Bytes) :
    Seeking a before (some file) w :=
  ⟨h.inside, h.staged, fun other _ => h.leases other (Option.some_ne_none other)⟩

/-- A lease that was not there may be gone again. -/
theorem Seeking.back (hfresh : before.lease (leaseFile id) = none)
    (h : Seeking a before (some (leaseFile id)) w) : Seeking a before none w := by
  refine ⟨h.inside, h.staged, fun file _ hnone => ?_⟩
  rcases eq_or_ne file (leaseFile id) with rfl | hne
  · exact hfresh
  · exact h.leases file (fun heq => hne (Option.some.inj heq)) hnone

theorem Seeking.placing (hfresh : before.lease (leaseFile id) = none)
    (h : Seeking a before (some (leaseFile id)) w) (howns : Owns a id ino w) :
    Placing a before area id ino w := by
  refine ⟨h.inside, howns, fun hpaired other hstaged => ?_⟩
  have hlease := hpaired.lease other id ((h.staged other id).mp hstaged)
  rw [hfresh] at hlease
  cases hlease

/-- Nothing is staged under an identifier whose lease was not there. -/
theorem Seeking.cleared (hfresh : before.lease (leaseFile id) = none)
    (h : Seeking a before (some (leaseFile id)) w) : w.Cleared a id := by
  refine .inr fun hpaired area hstaged => ?_
  rw [h.inside.entered] at hpaired
  have hlease := hpaired.lease area id ((h.staged area id).mp hstaged)
  rw [hfresh] at hlease
  cases hlease

theorem workFrame_placing (harea : area.isStaging = true) :
    WorkFrame σ a area id (Placing a before area id ino) where
  stable v w hinv hrely h := by
    refine ⟨stable_inside _ _ v w hinv hrely h.inside, stable_owns id ino v w hinv hrely h.owns,
      fun hpaired other hstaged => h.once hpaired other ?_⟩
    exact ((hrely.inside h.inside.storeLock).staged other id).mp hstaged
  inside _ h := h.inside.storeLock
  step w w' hstep h := by
    refine ⟨h.inside.workStep harea hstep, h.owns.workStep hstep, fun hpaired other hstaged => ?_⟩
    by_contra hne
    refine hne (h.once hpaired other ?_)
    rw [Shared.StagedIn, ← hstep.node other id fun heq => hne (Prod.mk.inj heq).1]
    exact hstaged

/-! ## A new lease -/

theorem meets_createNewLockFile (id : Bytes) :
    σ.Meets a (fun w => Seeking a before none w ∧ w.Drew a id) (createNewLockFile (leaseFile id)).run
      (Ends (fun ino w => before.lease (leaseFile id) = none ∧
          (Seeking a before (some (leaseFile id)) w ∧ w.Drew a id) ∧
          w.lease (leaseFile id) = some ⟨ino, none⟩)
        (Seeking a before none)) := by
  have hseeking := (@stable_seeking σ a before none).and (stable_drew id)
  have hframe : LeaseFrame σ a id
      fun w => Seeking a before (some (leaseFile id)) w ∧ w.Drew a id :=
    ⟨leaseFrame_seeking.stable.and (stable_drew id), fun w h => h.1.inside.storeLock,
      fun w w' hstep h => ⟨leaseFrame_seeking.step (σ := σ) w w' hstep h.1, hstep.drawn a id h.2⟩⟩
  refine meets_seq (meets_orIo (meets_createLease hseeking hframe
    (fun w h => ⟨⟨h.1.besides _, h.2⟩, h.2⟩)
    fun w h hnone => h.1.leases _ (Option.some_ne_none _) hnone)) (fun _ h => h.1) fun ino => ?_
  refine Discipline.triple_of fun hfresh => ?_
  have hmade := stable_free (leaseFile id) hframe.stable hframe.inside ino
  refine meets_seq (meets_verifyOpenFileIdentity hmade (fun w h => hframe.inside w h.1)
    fun w h => ⟨none, h.2⟩) (fun w h => h.1.1.1.back hfresh) fun _ => ?_
  exact meets_mono (meets_return hmade ino) (fun _ _ h => ⟨hfresh, h.1 ▸ h.2⟩) fun _ h => h

/-- What an attempt has come to when it has looked for a lease. -/
def NewLease (a : Agent) (before : Shared) :
    Option (Except StoreError (Bytes × Nat)) → World → Prop
  | none, w => Seeking a before none w
  | some (.error _), w => Inside a before (before.node .results) w
  | some (.ok (id, ino)), w => before.lease (leaseFile id) = none ∧
      Seeking a before (some (leaseFile id)) w ∧ Owns a id ino w

theorem meets_newLease (operation : String) :
    σ.Meets a (Seeking a before none) (newLease operation) (NewLease a before) := by
  have hdraw : ∀ (w : World) (drawn : List (Agent × Bytes)), Seeking a before none w →
      (∀ b id, w.Drew b id → (b, id) ∈ drawn) →
        Seeking a before none { w with drawn := drawn } := fun w drawn h _ =>
    ⟨⟨h.inside.storeLock, h.inside.entered, h.inside.results, h.inside.sources⟩, h.staged,
      h.leases⟩
  refine Discipline.Triple.bind (meets_transactionId (stable_seeking none) hdraw) fun id => ?_
  refine Discipline.Triple.bind (meets_createNewLockFile id) fun result => ?_
  rcases result with e | ino
  · -- a lease that is there already is no reason to give up
    split
    · exact Discipline.triple_ret (stable_seeking none) fun _ _ h => h
    · exact Discipline.triple_ret (stable_seeking none) fun _ _ h => h.inside
    · rename_i ino' heq
      cases heq
  · refine Discipline.triple_of fun hfresh => ?_
    have hframe : LeaseFrame σ a id
        fun w => Seeking a before (some (leaseFile id)) w ∧ w.Drew a id :=
      ⟨leaseFrame_seeking.stable.and (stable_drew id), fun w h => h.1.inside.storeLock,
        fun w w' hstep h => ⟨leaseFrame_seeking.step (σ := σ) w w' hstep h.1, hstep.drawn a id h.2⟩⟩
    refine Discipline.Triple.bind (Discipline.Triple.pre (meets_lockLease hframe)
      fun w _ h => ⟨h.1, none, h.2⟩) fun result => ?_
    rcases result with source | _
    · have hinside := @stable_inside σ a before (before.node .results)
      refine Discipline.Triple.bind (meets_closeLease (stable_failed hframe.stable) hinside
        (fun w h => .inl (hframe.inside w h.1)) fun w h => ?_) fun _ =>
          Discipline.triple_ret hinside fun _ _ h => h
      exact h.1.1.inside.leaseStep (leaseStep_release id w a ino)
    · exact Discipline.triple_ret (hframe.stable.and (stable_leased _ ino)) fun w _ h =>
        ⟨hfresh, h.1.1, h.1.2, h.2⟩

/-- The lease of an attempt that has failed is given back. -/
theorem meets_giveBack (hfresh : before.lease (leaseFile id) = none) :
    σ.Meets a (fun w => Seeking a before (some (leaseFile id)) w ∧ Owns a id ino w)
      (releaseAndRemoveLockFile (leaseFile id) ino) fun _ => Seeking a before none := by
  refine Discipline.Triple.conseq (meets_releaseAndRemoveLockFile leaseFrame_seeking
    fun w h => h.cleared hfresh) (fun w _ h => ⟨h.1, h.2.lease⟩) fun result w _ h => ?_
  cases result with
  | ok _ => exact h.1.back hfresh
  | error e => exact h.1.back hfresh

/-- A directory is staged under a new lease. -/
theorem meets_createStaged (harea : area.isStaging = true)
    (hfresh : before.lease (leaseFile id) = none) :
    σ.Meets a (fun w => Seeking a before (some (leaseFile id)) w ∧ Owns a id ino w)
      (perform (.createDir ⟨area, id, []⟩)) (Ends
        (fun _ w => Placing a before area id ino w ∧ w.node area id = some (.dir []))
        fun w => Seeking a before (some (leaseFile id)) w ∧ Owns a id ino w) := by
  refine meets_createDir harea ((stable_seeking _).and (stable_owns id ino))
    (workFrame_placing harea) (fun w h => ⟨ino, h.owns.lease⟩)
    (fun w h => h.1.placing hfresh h.2) fun w h => ⟨h.owns.drew, ?_⟩
  rw [h.inside.entered]
  exact h.once

/-! ## Attempts -/

/-- A handle that `make` makes has been begun: its lease is new, and its directory is there. -/
def Begun {δ : Type} (make : Bytes → Nat → δ) (a : Agent) (before : Shared) (area : Area)
    (handle : δ) (w : World) : Prop :=
  ∃ id ino, handle = make id ino ∧ Placing a before area id ino w ∧ (w.node area id).isSome = true

/-- What an attempt has come to. -/
def Attempted {δ : Type} (make : Bytes → Nat → δ) (a : Agent) (before : Shared) (area : Area) :
    Option (Except StoreError δ) → World → Prop
  | none, w => Seeking a before none w
  | some (.error _), w => Inside a before (before.node .results) w
  | some (.ok handle), w => Begun make a before area handle w

section Attempts

variable {δ : Type} {make : Bytes → Nat → δ}

theorem stable_begun (harea : area.isStaging = true) (handle : δ) :
    σ.Stable a (Begun make a before area handle) :=
  Discipline.stable_exists fun _ => Discipline.stable_exists fun ino =>
    (Discipline.stable_const _).and (stable_staged harea (workFrame_placing harea).stable
      (fun _ h => ⟨ino, h.owns.lease⟩) fun node => node.isSome = true)

/-- One attempt, and what is done when it has found its identifier taken. -/
theorem meets_attempt (harea : area.isStaging = true) {operation : String}
    {again : Act (Except StoreError δ)}
    {create : Bytes → Nat → Act (Option (Except StoreError δ))}
    {next : Option (Except StoreError (Bytes × Nat)) → Act (Except StoreError δ)}
    {last : Option (Except StoreError δ) → Act (Except StoreError δ)}
    (hnone : next none = again) (herror : ∀ e, next (some (.error e)) = .ret (.error e))
    (hok : ∀ id ino, next (some (.ok (id, ino))) = create id ino >>= last)
    (hlast : last none = again ∧ ∀ result, last (some result) = .ret result)
    (hagain : σ.Meets a (Seeking a before none) again
      (Ends (Begun make a before area) (Inside a before (before.node .results))))
    (hcreate : ∀ id ino, before.lease (leaseFile id) = none →
      σ.Meets a (fun w => Seeking a before (some (leaseFile id)) w ∧ Owns a id ino w)
        (create id ino) (Attempted make a before area)) :
    σ.Meets a (Seeking a before none) (newLease operation >>= next)
      (Ends (Begun make a before area) (Inside a before (before.node .results))) := by
  have hinside := @stable_inside σ a before (before.node .results)
  refine Discipline.Triple.bind (meets_newLease operation) fun lease => ?_
  rcases lease with _ | e | ⟨id, ino⟩
  · rw [hnone]
    exact hagain
  · rw [herror]
    exact Discipline.triple_ret hinside fun _ _ h => h
  · rw [hok]
    refine Discipline.triple_of fun hfresh => ?_
    refine Discipline.Triple.bind (hcreate id ino hfresh) fun attempt => ?_
    rcases attempt with _ | e | handle
    · rw [hlast.1]
      exact hagain
    · rw [hlast.2]
      exact Discipline.triple_ret hinside fun _ _ h => h
    · rw [hlast.2]
      exact Discipline.triple_ret (stable_begun harea handle) fun _ _ h => h

theorem seeking_enter :
    Seeking a w.toShared none { w with storeLock := some a, entered := w.toShared } :=
  ⟨⟨rfl, rfl, fun _ => rfl, fun _ => rfl⟩, fun _ _ => Iff.rfl, fun _ _ h => h⟩

/-- What is handed out is the agent's own when the lock has been let go. -/
theorem meets_begun (harea : area.isStaging = true) {op : Op δ}
    {outcome : Except StoreError δ → Outcome}
    (hop : ∀ before, σ.Meets a (Seeking a before none) op.run
      (Ends (Begun make a before area) (Inside a before (before.node .results))))
    (houtcome : ∀ result faulted before after, before.SameIn .sources after →
      before.SameIn .results after →
        Visit.Kept σ.codec σ.config faulted ⟨a, outcome result, before, after⟩) :
    σ.Meets a (fun _ => True) (locked op outcome).run (Ends
      (fun handle w => ∃ id ino, handle = make id ino ∧ Handed a area id ino w)
      fun _ => True) := by
  have htrue : σ.Stable a fun _ => True := Discipline.stable_const True
  have hhanded : ∀ handle : δ,
      σ.Stable a fun w => ∃ id ino, handle = make id ino ∧ Handed a area id ino w :=
    fun handle => Discipline.stable_exists fun id => Discipline.stable_exists fun ino =>
      (Discipline.stable_const _).and (stable_handed harea id ino)
  have hleave : ∀ result (before : Shared) w, Inside a before (before.node .results) w →
      Guard σ.codec σ.config σ.clients a (.unlockStore (outcome result)) w :=
    fun result before w h => ⟨h.storeLock, h.accounted, houtcome _ _ _ _ h.same.1 h.same.2⟩
  refine meets_locked htrue (fun before => stable_seeking none) (fun w _ _ => seeking_enter)
    (R := Ends (fun handle w => ∃ before, Begun make a before area handle w)
      fun w => ∃ before : Shared, Inside a before (before.node .results) w)
    (fun before => meets_mono (hop before) (fun _ _ h => ⟨before, h⟩) fun w h => ⟨before, h⟩)
    (stable_ends (fun handle => Discipline.stable_exists fun before => stable_begun harea handle)
      (Discipline.stable_exists fun before => stable_inside before _))
    (stable_ends hhanded htrue) ?_ ?_ fun _ _ _ => trivial
  · intro result w _ h
    rcases result with e | handle
    · obtain ⟨before, h⟩ := h
      exact hleave _ before w h
    · obtain ⟨before, id, ino, _, h, _⟩ := h
      exact hleave _ before w h.inside
  · intro result w visits h
    rcases result with e | handle
    · trivial
    · obtain ⟨before, id, ino, hhandle, h, hsome⟩ := h
      exact ⟨id, ino, hhandle, ⟨h.owns.drew, h.owns.lease⟩, .inr hsome⟩

end Attempts

/-! ## Transactions -/

theorem meets_createStaging (hfresh : before.lease (leaseFile id) = none) :
    σ.Meets a (fun w => Seeking a before (some (leaseFile id)) w ∧ Owns a id ino w)
      (createStaging ⟨id, some ino, false⟩ ino)
      (Attempted (fun id ino => ⟨id, some ino, false⟩) a before .staging) := by
  have hinside := @stable_inside σ a before (before.node .results)
  refine Discipline.Triple.bind (meets_createStaged isStaging_staging hfresh) fun result => ?_
  rcases result with source | _
  · refine Discipline.Triple.bind (meets_giveBack hfresh) fun _ => ?_
    split
    · exact Discipline.triple_ret (stable_seeking none) fun _ _ h => h
    · exact Discipline.triple_ret (stable_seeking none) fun _ _ h => h.inside
  · have hframe := @workFrame_placing σ a before .staging id ino isStaging_staging
    refine Discipline.Triple.bind (meets_createDir_below isStaging_staging hframe
      (fun w h => ⟨ino, h.owns.lease⟩) fun w h => ⟨h.owns.drew, ?_⟩) fun result => ?_
    · rw [h.inside.entered]
      exact h.once
    · rcases result with source | _
      · -- a removal that fails here leaves the directory, and the lease goes all the same
        have hremove := Discipline.Triple.post (@meets_removeDirAll σ a _ .staging id False
          isStaging_staging hframe.failed fun w h => ⟨ino, h.1.owns.lease⟩)
          fun result w _ h => (show Failed a (Placing a before .staging id ino) w by
            cases result <;> exact h.1)
        refine Discipline.Triple.bind (Discipline.Triple.pre hremove fun w _ h =>
          ⟨h, False.elim⟩) fun _ => ?_
        have hrelease := Discipline.Triple.conseq (@meets_releaseAndRemoveLockFile σ a _ id ino
          (@leaseFrame_inside σ a id before (before.node .results)).failed fun w h => .inl h.2)
          (fun w _ (h : Failed a (Placing a before .staging id ino) w) =>
            ⟨⟨h.1.inside, h.2⟩, h.1.owns.lease⟩)
          fun result w _ h => (show Inside a before (before.node .results) w by
            cases result <;> exact h.1.1)
        exact Discipline.Triple.bind hrelease fun _ =>
          Discipline.triple_ret hinside fun _ _ h => h
      · exact Discipline.triple_ret (stable_staged isStaging_staging hframe.stable
          (fun w h => ⟨ino, h.owns.lease⟩) fun node => node.isSome = true)
          fun w _ h => ⟨id, ino, rfl, h⟩

/-- Some attempt has begun, or all have failed. -/
theorem meets_beginAttempts (count : Nat) :
    σ.Meets a (Seeking a before none) (beginAttempts count).run
      (Ends (Begun (fun id ino => ⟨id, some ino, false⟩) a before .staging)
        (Inside a before (before.node .results))) := by
  induction count with
  | zero => exact meets_throw (stable_seeking none) _ fun _ h => h.inside
  | succ count ih =>
      exact meets_attempt isStaging_staging rfl (fun _ => rfl) (fun _ _ => rfl)
        ⟨rfl, fun _ => rfl⟩ ih fun _ _ => meets_createStaging

/-- What `Store::begin` hands out is the agent's own. -/
theorem meets_begin : σ.Meets a (fun _ => True) begin.run (Ends
    (fun tx w => ∃ id ino, tx = ⟨id, some ino, false⟩ ∧ Handed a .staging id ino w)
    fun _ => True) :=
  meets_begun isStaging_staging (fun _ => meets_beginAttempts 128)
    fun _ _ _ _ hsources hresults => ⟨hsources, hresults⟩

/-! ## Source stages -/

theorem meets_createSourceStaging (hfresh : before.lease (leaseFile id) = none) :
    σ.Meets a (fun w => Seeking a before (some (leaseFile id)) w ∧ Owns a id ino w)
      (createSourceStaging ⟨id, some ino, false⟩ ino)
      (Attempted (fun id ino => ⟨id, some ino, false⟩) a before .sourceStaging) := by
  refine Discipline.Triple.bind (meets_createStaged isStaging_sourceStaging hfresh) fun result => ?_
  rcases result with source | _
  · refine Discipline.Triple.bind (meets_giveBack hfresh) fun released => ?_
    rcases released with e | _
    · exact Discipline.triple_ret (stable_seeking none) fun _ _ h => h.inside
    · dsimp only
      split
      · exact Discipline.triple_ret (stable_seeking none) fun _ _ h => h
      · exact Discipline.triple_ret (stable_seeking none) fun _ _ h => h.inside
  · have hframe := @workFrame_placing σ a before .sourceStaging id ino isStaging_sourceStaging
    exact Discipline.triple_ret
      (stable_staged isStaging_sourceStaging hframe.stable (fun w h => ⟨ino, h.owns.lease⟩)
        fun node => node = some (.dir []))
      fun w _ h => ⟨id, ino, rfl, h.1, by rw [h.2]; rfl⟩

theorem meets_beginUnverifiedSourceAttempts (count : Nat) :
    σ.Meets a (Seeking a before none) (beginUnverifiedSourceAttempts count).run
      (Ends (Begun (fun id ino => ⟨id, some ino, false⟩) a before .sourceStaging)
        (Inside a before (before.node .results))) := by
  induction count with
  | zero => exact meets_throw (stable_seeking none) _ fun _ h => h.inside
  | succ count ih =>
      exact meets_attempt isStaging_sourceStaging rfl (fun _ => rfl) (fun _ _ => rfl)
        ⟨rfl, fun _ => rfl⟩ ih fun _ _ => meets_createSourceStaging

/-- What `Store::begin_unverified_source` hands out is the agent's own. -/
theorem meets_beginUnverifiedSource : σ.Meets a (fun _ => True) beginUnverifiedSource.run (Ends
    (fun stage w => ∃ id ino, stage = ⟨id, some ino, false⟩ ∧ Handed a .sourceStaging id ino w)
    fun _ => True) :=
  meets_begun isStaging_sourceStaging (fun _ => meets_beginUnverifiedSourceAttempts 128)
    fun _ _ _ _ hsources hresults => ⟨hsources, hresults⟩

end Begin

end Prep.Store
