/-
  Store/RecoveryRules.lean --- what `Store::recover_abandoned` ensures.

  Recovery works on one identifier at a time.  What it has not come to yet is as it was
  when the lock was taken, and what it has left behind is held by somebody.
-/
import Prep.Store.CheckRules

set_option autoImplicit false

namespace Prep.Store

open Prep.Machine
open Prep.Text
open Prep.Fs (Node Path)
open Prep.Io (IoError)

/-! ## Identifiers -/

section Identifiers

variable {id : Bytes}

theorem mem_transactionId (h : validTransactionId id = true) {byte : UInt8} (hmem : byte ∈ id) :
    isAsciiAlphanumeric byte = true ∨ byte = 45 := by
  unfold validTransactionId at h
  rw [Bool.and_eq_true, List.all_eq_true] at h
  have hbyte := h.2 byte hmem
  rwa [Bool.or_eq_true, beq_iff_eq] at hbyte

theorem isAscii_of_isAsciiAlphanumeric (byte : UInt8) :
    isAsciiAlphanumeric byte = true → isAscii byte = true := by
  revert byte
  decide +kernel

/-- An identifier is text. -/
theorem utf8_transactionId (h : validTransactionId id = true) : Utf8.valid id = true := by
  refine Utf8.valid_of_isAscii (List.all_eq_true.mpr fun byte hmem => ?_)
  rcases mem_transactionId h hmem with hbyte | rfl
  · exact isAscii_of_isAsciiAlphanumeric byte hbyte
  · rfl

theorem ne_nil_of_validTransactionId (h : validTransactionId id = true) : id ≠ [] := by
  rintro rfl
  cases h

/-- The name of a lease is an identifier and its extension. -/
theorem splitOn_leaseFile (h : validTransactionId id = true) :
    (leaseFile id).splitOn 46 = [id, ascii "lock"] := by
  have hdot : (46 : UInt8) ∉ id := fun hmem => by
    rcases mem_transactionId h hmem with hbyte | hbyte <;> cases hbyte
  exact List.splitOn_append_cons_self_of_not_mem hdot _

theorem fileExtension_leaseFile (h : validTransactionId id = true) :
    fileExtension (leaseFile id) = some (ascii "lock") := by
  unfold fileExtension
  rw [splitOn_leaseFile h]
  exact if_neg fun hempty => ne_nil_of_validTransactionId h hempty.2

theorem fileStem_leaseFile (h : validTransactionId id = true) : fileStem (leaseFile id) = id := by
  unfold fileStem
  rw [fileExtension_leaseFile h]
  dsimp only
  rw [leaseFile, List.length_append, Nat.sub_sub]
  exact List.take_left' (Nat.add_sub_cancel ..).symm

end Identifiers

/-! ## What recovery has come to -/

/-- A lease that another agent, alive at the time, held when the lock was taken. -/
def HeldAtEntry (config : Config) (a : Agent) (before : Shared) (file : Bytes) : Prop :=
  ∃ ino b, b ≠ a ∧ before.lease file = some ⟨ino, some b⟩ ∧ before.dead (config.process b) = false

/-- What has been staged is pending, or held.  `busy` is the lease that is worked on. -/
structure Recovering (σ : Setting) (a : Agent) (before : Shared) (pending : Area → Bytes → Prop)
    (busy : Option Bytes) (w : World) : Prop where
  inside : Inside a before (before.node .results) w
  dead : ∀ process, before.dead process = true → w.dead process = true
  mine : ∀ file ino, some file ≠ busy → w.lease file ≠ some ⟨ino, some a⟩
  staged : ∀ area id, w.StagedIn area id → before.StagedIn area id
  leases : ∀ file lease, some file ≠ busy → w.lease file = some lease →
    before.lease file = some lease ∨ ∃ ino b, b ≠ a ∧ before.lease file = some ⟨ino, some b⟩ ∧
      lease = ⟨ino, none⟩ ∧ w.faulted b = true
  paired : before.Paired → ∀ area id, some (leaseFile id) ≠ busy → w.StagedIn area id →
    (w.lease (leaseFile id)).isSome = true
  left : before.Paired → ∀ area id, some (leaseFile id) ≠ busy → w.StagedIn area id →
    pending area id ∨ HeldAtEntry σ.config a before (leaseFile id)
  there : ∀ area id, pending area id → w.StagedIn area id

/-- What a recovery that ends with an error owes. -/
def RecoveryFailed (a : Agent) (before : Shared) (w : World) : Prop :=
  Inside a before (before.node .results) w ∧ (w.faulted a = true ∨ ¬ before.Paired)

section Recovering

variable {σ : Setting} {a : Agent} {before : Shared} {pending : Area → Bytes → Prop}
  {busy : Option Bytes} {area : Area} {id : Bytes} {ino : Nat} {w : World}

theorem Recovering.congr {pending' : Area → Bytes → Prop} (h : Recovering σ a before pending busy w)
    (hiff : ∀ area id, pending area id ↔ pending' area id) :
    Recovering σ a before pending' busy w := by
  rwa [show pending' = pending from funext fun area => funext fun id =>
    (propext (hiff area id)).symm]

theorem stable_recovering : σ.Stable a (Recovering σ a before pending busy) := by
  intro v w hinv hrely h
  have hstill := hrely.inside h.inside.storeLock
  refine {
    inside := stable_inside _ _ v w hinv hrely h.inside
    dead := fun process hdead => hrely.dead process (h.dead process hdead)
    mine := fun file ino hne hmine => h.mine file ino hne ((hrely.lease file ino).mp hmine)
    staged := fun area id hstaged => h.staged area id ((hstill.staged area id).mp hstaged)
    leases := fun file lease hne hlease => ?_
    paired := fun hpaired area id hne hstaged => ?_
    left := fun hpaired area id hne hstaged =>
      h.left hpaired area id hne ((hstill.staged area id).mp hstaged)
    there := fun area id hpending => (hstill.staged area id).mpr (h.there area id hpending) }
  · rcases hstill.leases file with heq | ⟨ino, b, hb, hheld, hfree, hfault⟩
    · refine (h.leases file lease hne (heq ▸ hlease)).imp_right ?_
      rintro ⟨ino, b, hb, hheld, hlease, hfault⟩
      exact ⟨ino, b, hb, hheld, hlease, hrely.faulted b hfault⟩
    · cases hfree.symm.trans hlease
      rcases h.leases file _ hne hheld with hbefore | ⟨_, _, _, _, hfalse, _⟩
      · exact .inr ⟨ino, b, hb, hbefore, rfl, hfault⟩
      · cases hfalse
  · rw [hstill.lease_isSome]
    exact h.paired hpaired area id hne ((hstill.staged area id).mp hstaged)

/-- Work on one lease. -/
theorem Recovering.takeUp (h : Recovering σ a before pending none w) (file : Bytes) :
    Recovering σ a before pending (some file) w where
  inside := h.inside
  dead := h.dead
  mine file ino _ := h.mine file ino (Option.some_ne_none file)
  staged := h.staged
  leases file lease _ := h.leases file lease (Option.some_ne_none file)
  paired hpaired area id _ := h.paired hpaired area id (Option.some_ne_none _)
  left hpaired area id _ := h.left hpaired area id (Option.some_ne_none _)
  there := h.there

/-- Without what is worked on. -/
theorem Recovering.without (h : Recovering σ a before pending none w) (area : Area) (id : Bytes) :
    Recovering σ a before (fun other name => pending other name ∧ (other, name) ≠ (area, id))
      (some (leaseFile id)) w where
  inside := h.inside
  dead := h.dead
  mine := (h.takeUp _).mine
  staged := h.staged
  leases := (h.takeUp _).leases
  paired := (h.takeUp _).paired
  left hpaired other name hne hstaged := ((h.takeUp _).left hpaired other name hne hstaged).imp_left
    fun hpending => ⟨hpending, fun heq => hne (by rw [(Prod.mk.inj heq).2])⟩
  there other name hpending := h.there other name hpending.1

theorem leaseFrame_recovering :
    LeaseFrame σ a id (Recovering σ a before pending (some (leaseFile id))) where
  stable := stable_recovering
  inside _ h := h.inside.storeLock
  step w w' hstep h := by
    have hne : ∀ {file : Bytes}, some file ≠ some (leaseFile id) → w'.lease file = w.lease file :=
      fun hne => hstep.lease _ fun heq => hne (congrArg some heq)
    have hstaged : ∀ area name, w'.StagedIn area name ↔ w.StagedIn area name := fun area name => by
      rw [Shared.StagedIn, Shared.StagedIn, Shared.node_congr hstep.area]
    exact {
      inside := h.inside.leaseStep hstep
      dead := fun process hdead => by rw [hstep.dead]; exact h.dead process hdead
      mine := fun file ino hfile => by rw [hne hfile]; exact h.mine file ino hfile
      staged := fun area name h' => h.staged area name ((hstaged area name).mp h')
      leases := fun file lease hfile hlease => by
        refine (h.leases file lease hfile (hne hfile ▸ hlease)).imp_right ?_
        rintro ⟨ino, b, hb, hheld, hlease, hfault⟩
        exact ⟨ino, b, hb, hheld, hlease, hstep.faulted b hfault⟩
      paired := fun hpaired area name hfile h' => by
        rw [hne hfile]
        exact h.paired hpaired area name hfile ((hstaged area name).mp h')
      left := fun hpaired area name hfile h' =>
        h.left hpaired area name hfile ((hstaged area name).mp h')
      there := fun area name hpending => (hstaged area name).mpr (h.there area name hpending) }

/-- A staged directory that was there when the lock was taken, and is not pending any more. -/
theorem workFrame_recovering (harea : area.isStaging = true) (hhere : before.StagedIn area id)
    (hpending : ¬ pending area id) :
    WorkFrame σ a area id (Recovering σ a before pending (some (leaseFile id))) where
  stable := stable_recovering
  inside _ h := h.inside.storeLock
  step w w' hstep h := by
    have hlease : ∀ file, w'.lease file = w.lease file := Shared.lease_congr hstep.leases
    have hstaged : ∀ other name, (other, name) ≠ (area, id) →
        (w'.StagedIn other name ↔ w.StagedIn other name) := fun other name hne => by
      rw [Shared.StagedIn, Shared.StagedIn, hstep.node other name hne]
    have hother : ∀ {other : Area} {name : Bytes}, some (leaseFile name) ≠ some (leaseFile id) →
        (other, name) ≠ (area, id) := fun hne heq => hne (by rw [(Prod.mk.inj heq).2])
    refine {
      inside := h.inside.workStep harea hstep
      dead := fun process hdead => by rw [hstep.dead]; exact h.dead process hdead
      mine := fun file ino hfile => by rw [hlease]; exact h.mine file ino hfile
      staged := fun other name h' => ?_
      leases := fun file lease hfile hheld => ?_
      paired := fun hpaired other name hfile h' => by
        rw [hlease]
        exact h.paired hpaired other name hfile ((hstaged other name (hother hfile)).mp h')
      left := fun hpaired other name hfile h' =>
        h.left hpaired other name hfile ((hstaged other name (hother hfile)).mp h')
      there := fun other name hleft => ?_ }
    · rcases eq_or_ne (other, name) (area, id) with heq | hne
      · obtain ⟨rfl, rfl⟩ := Prod.mk.inj heq
        exact hhere
      · exact h.staged other name ((hstaged other name hne).mp h')
    · refine (h.leases file lease hfile (hlease file ▸ hheld)).imp_right ?_
      rintro ⟨ino, b, hb, hheld, hlease, hfault⟩
      exact ⟨ino, b, hb, hheld, hlease, hstep.faulted b hfault⟩
    · refine (hstaged other name fun heq => ?_).mpr (h.there other name hleft)
      obtain ⟨rfl, rfl⟩ := Prod.mk.inj heq
      exact hpending hleft

/-- Work on a lease is over when it is gone, with all that was staged under it. -/
theorem Recovering.removed (h : Recovering σ a before pending (some (leaseFile id)) w)
    (hlease : w.lease (leaseFile id) = none)
    (hstaged : before.Paired → ∀ area, ¬ w.StagedIn area id) :
    Recovering σ a before pending none w where
  inside := h.inside
  dead := h.dead
  mine file ino _ hmine := by
    rcases eq_or_ne file (leaseFile id) with rfl | hne
    · cases hlease.symm.trans hmine
    · exact h.mine file ino (fun heq => hne (Option.some.inj heq)) hmine
  staged := h.staged
  leases file lease _ hfound := by
    rcases eq_or_ne file (leaseFile id) with rfl | hne
    · cases hlease.symm.trans hfound
    · exact h.leases file lease (fun heq => hne (Option.some.inj heq)) hfound
  paired hpaired area name _ h' := by
    rcases eq_or_ne name id with rfl | hne
    · exact absurd h' (hstaged hpaired area)
    · exact h.paired hpaired area name
        (fun heq => hne (leaseFile_injective (Option.some.inj heq))) h'
  left hpaired area name _ h' := by
    rcases eq_or_ne name id with rfl | hne
    · exact absurd h' (hstaged hpaired area)
    · exact h.left hpaired area name
        (fun heq => hne (leaseFile_injective (Option.some.inj heq))) h'
  there := h.there

/-- Somebody has the lock of a lease that is not worked on. -/
theorem Recovering.heldAtEntry (h : Recovering σ a before pending none w) {file : Bytes} {b : Agent}
    (hheld : w.lease file = some ⟨ino, some b⟩) (halive : w.dead (σ.config.process b) = false) :
    HeldAtEntry σ.config a before file := by
  refine ⟨ino, b, fun heq => ?_, ?_, ?_⟩
  · exact h.mine file ino (Option.some_ne_none file) (heq ▸ hheld)
  · rcases h.leases file _ (Option.some_ne_none file) hheld with hbefore | ⟨_, _, _, _, hfalse, _⟩
    · exact hbefore
    · cases hfalse
  · exact Bool.eq_false_iff.mpr fun hdead => Bool.eq_false_iff.mp halive (h.dead _ hdead)

/-! ## Staged entries -/

section Staged

variable {P : World → Prop}

/-- Who has the store lock knows what is staged. -/
theorem stable_stagedIn (hP : σ.Stable a P) (hlock : ∀ w, P w → w.storeLock = some a)
    (ψ : (Area → Bytes → Prop) → Prop) : σ.Stable a fun w => P w ∧ ψ w.StagedIn :=
  stable_undisturbed hP hlock fun v w _ hstill h => by
    rwa [show w.StagedIn = v.StagedIn from funext fun area => funext fun id =>
      propext (hstill.staged area id)]

theorem LeaseFrame.stagedIn (h : LeaseFrame σ a id P) (ψ : (Area → Bytes → Prop) → Prop) :
    LeaseFrame σ a id fun w => P w ∧ ψ w.StagedIn where
  stable := stable_stagedIn h.stable h.inside ψ
  inside w hw := h.inside w hw.1
  step w w' hstep hw := by
    refine ⟨h.step w w' hstep hw.1, ?_⟩
    have hsame : w'.StagedIn = w.StagedIn := funext fun area => funext fun id => by
      rw [Shared.StagedIn, Shared.StagedIn, Shared.node_congr hstep.area]
    rw [hsame]
    exact hw.2

theorem WorkFrame.leased (h : WorkFrame σ a area id P) (file : Bytes) (ino : Nat) :
    WorkFrame σ a area id fun w => P w ∧ w.lease file = some ⟨ino, some a⟩ where
  stable := h.stable.and (stable_leased file ino)
  inside w hw := h.inside w hw.1
  step w w' hstep hw :=
    ⟨h.step w w' hstep hw.1, (Shared.lease_congr hstep.leases file).trans hw.2⟩

variable (harea : area.isStaging = true) (hP : σ.Stable a P)
  (hhere : ∀ w, P w → w.StagedIn area id)

include harea hP hhere

/-- A staged entry is a directory with the name of an identifier. -/
theorem meets_readStaged : σ.Meets a P (read ⟨area, id, []⟩) (Ends
    (fun node w => (node.isDir = true ∧ validTransactionId id = true) ∧ P w) (Failed a P)) := by
  refine Discipline.Triple.post (meets_read (ψ := False)
    (φ := fun node => node.isDir = true ∧ validTransactionId id = true) _ hP
    (fun w node hinv hw hnode => ?_) fun w _ hw hnone => ?_) fun result w _ h => ?_
  · rw [Shared.at?_top] at hnode
    exact (hinv.stagedValid area id node harea hnode).symm
  · rw [Shared.at?_top] at hnone
    have hsome := (hhere w hw).2
    rw [hnone] at hsome
    cases hsome
  · cases result with
    | ok node => exact h
    | error e => exact ⟨h.1, h.2.elim (fun h => h.1) fun h => h.1.elim⟩

theorem meets_verifyStaged (label : String) :
    σ.Meets a P (verifyRealDirectoryWithin ⟨area, id, []⟩ label).run
      (Ends (fun _ => P) (Failed a P)) := by
  refine meets_seq (Q := fun _ => P) (meets_seq (meets_orIo (meets_readStaged harea hP hhere))
    (fun _ h => h) fun node => Discipline.triple_of fun hnode => ?_) (fun _ h => h) fun _ => ?_
  · rw [if_pos hnode.1]
    exact meets_mono (meets_return hP ()) (fun _ _ h => h.2) fun _ h => h
  · refine meets_orIo (meets_mono (meets_canonicalize (ψ := False) _ hP fun w _ hw hnone => ?_)
      (fun _ _ h => h) fun w h => ⟨h.1, h.2.resolve_right not_false⟩)
    rw [Shared.at?_top] at hnone
    have hsome := (hhere w hw).2
    rw [hnone] at hsome
    cases hsome

end Staged

/-! ## Staging roots -/

theorem Recovering.failed (h : Recovering σ a before pending busy w) (hfault : w.faulted a = true) :
    RecoveryFailed a before w :=
  ⟨h.inside, .inl hfault⟩

theorem stable_recoveryFailed : σ.Stable a (RecoveryFailed a before) :=
  (stable_inside _ _).and ((stable_faulted a).or (Discipline.stable_const _))

/-- An entry that nobody holds goes with its lease. -/
theorem meets_removeAbandoned (harea : area.isStaging = true) (hhere : before.StagedIn area id)
    (hpending : pending area id) :
    σ.Meets a (fun w => Recovering σ a before pending none w ∧ w.LeaseIs (leaseFile id) ino)
      (removeAbandoned area id ino) (Ends
        (fun _ => Recovering σ a before
          (fun other name => pending other name ∧ (other, name) ≠ (area, id)) none)
        (RecoveryFailed a before)) := by
  have hstart := stable_leaseIs (leaseFile id) (@stable_recovering σ a before pending none)
    (fun w h => h.inside.storeLock) ino
  have hframe := (@leaseFrame_recovering σ a before
    (fun other name => pending other name ∧ (other, name) ≠ (area, id)) id).stagedIn
      fun staged => staged area id
  refine Discipline.Triple.bind (meets_tryLockLease hstart hframe
    (fun w h => ⟨⟨h.1.without area id, h.1.there area id hpending⟩, h.2⟩)
    fun w b h hheld halive => h.1.heldAtEntry hheld halive) fun locked => ?_
  rcases locked with source | _ | _
  · exact Discipline.triple_ret (stable_failed hstart) fun w _ h => h.1.1.failed h.2
  · refine Discipline.triple_of fun hheld => ?_
    refine Discipline.triple_ret hstart fun w _ h => ?_
    exact { h.1 with
      left := fun hpaired other name hne hstaged => by
        rcases eq_or_ne (other, name) (area, id) with heq | hother
        · obtain ⟨rfl, rfl⟩ := Prod.mk.inj heq
          exact .inr hheld
        · exact (h.1.left hpaired other name hne hstaged).imp_left fun hleft => ⟨hleft, hother⟩
      there := fun other name hleft => h.1.there other name hleft.1 }
  · have hwork := (@workFrame_recovering σ a before
      (fun other name => pending other name ∧ (other, name) ≠ (area, id)) area id harea hhere
      fun hleft => hleft.2 rfl).leased (leaseFile id) ino
    refine Discipline.Triple.bind (Discipline.Triple.pre (meets_removeDirAll (φ := True) harea hwork
      fun w h => ⟨ino, h.2⟩) fun w _ h => ⟨⟨h.1.1, h.2⟩, fun _ => h.1.2.2⟩) fun removed => ?_
    cases removed with
    | error source =>
        have hnone := stable_staged harea hwork.stable (fun w h => ⟨ino, h.2⟩)
          fun node => node = none
        refine Discipline.Triple.bind (meets_closeLease (stable_gone hwork.stable hnone True)
          (@stable_recoveryFailed σ a before)
          (fun w h => .inl (hwork.inside w h.1)) fun w h => ?_) fun _ =>
            Discipline.triple_ret stable_recoveryFailed fun _ _ h => h
        have hstep := leaseStep_release id w a ino
        exact ⟨h.1.1.inside.leaseStep hstep, .inl (hstep.faulted a
          (h.2.resolve_right fun hgone => hgone.1 trivial))⟩
    | ok _ =>
        have hgone := (@leaseFrame_recovering σ a before
          (fun other name => pending other name ∧ (other, name) ≠ (area, id)) id).stagedIn
            fun staged => ¬ staged area id
        have honly : ∀ w, Recovering σ a before (fun other name => pending other name ∧
            (other, name) ≠ (area, id)) (some (leaseFile id)) w → ¬ w.StagedIn area id →
              before.Paired → ∀ other, ¬ w.StagedIn other id := fun w h hnot hpaired other hstaged =>
          hnot (hpaired.once other area id (h.staged other id hstaged) hhere ▸ hstaged)
        refine Discipline.Triple.bind (Discipline.Triple.pre (@meets_releaseAndRemoveLockFile σ a _
          id ino hgone fun w h => .inr fun hpaired => honly w h.1 h.2 (h.1.inside.entered ▸ hpaired))
          fun w _ h => ⟨⟨h.1.1, fun hstaged => ?_⟩, h.1.2⟩) fun released => ?_
        · have hsome := hstaged.2
          rw [h.2] at hsome
          cases hsome
        · cases released with
          | error e =>
              exact Discipline.triple_ret (stable_failed hgone.stable) fun w _ h => h.1.1.failed h.2
          | ok _ =>
              exact Discipline.triple_ret (stable_unheld _ hgone.stable hgone.inside)
                fun w _ h => h.1.1.removed h.2 (honly w h.1.1 h.1.2)

/-- One entry of the loop of `recover_staging_root`. -/
theorem meets_recoverEntry (harea : area.isStaging = true) (hhere : before.StagedIn area id)
    (hpending : pending area id) :
    σ.Meets a (Recovering σ a before pending none) (recoverEntry area id).run (Ends
      (fun _ => Recovering σ a before
        (fun other name => pending other name ∧ (other, name) ≠ (area, id)) none)
      (RecoveryFailed a before)) := by
  have hstable := @stable_recovering σ a before pending none
  have hstaged : ∀ w, Recovering σ a before pending none w → w.StagedIn area id :=
    fun w h => h.there area id hpending
  have hfailed : ∀ w, Failed a (Recovering σ a before pending none) w → RecoveryFailed a before w :=
    fun w h => h.1.failed h.2
  refine meets_seq (meets_quietOp _ hstable) hfailed fun _ => ?_
  refine meets_seq (meets_orIo (meets_readStaged harea hstable hstaged)) hfailed
    fun node => Discipline.triple_of fun hnode => ?_
  rw [hnode.1, utf8_transactionId hnode.2, hnode.2]
  refine meets_seq (meets_verifyStaged harea hstable hstaged _) hfailed fun _ => ?_
  refine meets_seq (meets_openExistingLockFile hstable fun w h => h.inside.storeLock)
    (fun w h => ⟨h.1.inside, h.2.imp_right fun hnone hpaired => ?_⟩)
    fun ino => meets_removeAbandoned harea hhere hpending
  have hsome := h.1.paired hpaired area id (Option.some_ne_none _) (hstaged w h.1)
  rw [hnone] at hsome
  cases hsome

/-- The loop of `recover_staging_root` deals with every entry. -/
theorem meets_recoverEntries (harea : area.isStaging = true) (names : List Bytes)
    (hnodup : names.Nodup) (recovered : Nat) (hhere : ∀ name ∈ names, before.StagedIn area name)
    (hpending : ∀ name ∈ names, pending area name) :
    σ.Meets a (Recovering σ a before pending none) (recoverEntries area recovered names).run (Ends
      (fun _ => Recovering σ a before
        (fun other name => pending other name ∧ ¬ (other = area ∧ name ∈ names)) none)
      (RecoveryFailed a before)) := by
  induction names generalizing pending recovered with
  | nil =>
      refine meets_mono (meets_return stable_recovering recovered) (fun _ _ h => h.2.congr
        fun other name => ?_) fun _ h => h
      exact (and_iff_left fun hmem => List.not_mem_nil hmem.2).symm
  | cons name rest ih =>
      obtain ⟨hname, hrest⟩ := List.nodup_cons.mp hnodup
      refine meets_seq (meets_recoverEntry harea (hhere name List.mem_cons_self)
        (hpending name List.mem_cons_self)) (fun _ h => h) fun removed => ?_
      refine meets_mono (ih hrest _ (fun other hmem => hhere other (List.mem_cons_of_mem _ hmem))
        fun other hmem => ⟨hpending other (List.mem_cons_of_mem _ hmem), fun heq => ?_⟩)
        (fun _ _ h => h.congr fun other first => ?_) fun _ h => h
      · exact hname ((Prod.mk.inj heq).2 ▸ hmem)
      · rw [and_assoc, ← not_or, List.mem_cons, and_or_left, Prod.mk.injEq]

/-- `recover_staging_root` deals with all that is staged in its area. -/
theorem meets_recoverStagingRoot (harea : area.isStaging = true)
    (hpending : ∀ name, before.StagedIn area name → pending area name) :
    σ.Meets a (Recovering σ a before pending none) (recoverStagingRoot area).run (Ends
      (fun _ => Recovering σ a before (fun other name => pending other name ∧ other ≠ area) none)
      (RecoveryFailed a before)) := by
  refine meets_seq (meets_orIo (meets_readNames harea stable_recovering
    fun w h => h.inside.storeLock)) (fun w h => h.1.failed h.2)
    fun names => Discipline.triple_of fun hnodup => ?_
  refine Discipline.Triple.pre (Discipline.triple_of (φ := ∀ name,
    (name ∈ names ↔ pending area name) ∧ (name ∈ names → before.StagedIn area name))
    fun hnames => ?_) fun w _ h => ⟨fun name => ⟨⟨fun hmem => ?_, fun hleft => ?_⟩, fun hmem => ?_⟩, h.1⟩
  · refine meets_mono (meets_recoverEntries harea names hnodup 0
      (fun name hmem => (hnames name).2 hmem) fun name hmem => (hnames name).1.mp hmem)
      (fun _ _ h => h.congr fun other name => and_congr_right fun hleft => ?_) fun _ h => h
    refine not_congr (and_iff_left_of_imp fun heq => ?_)
    exact (hnames name).1.mpr (heq ▸ hleft)
  · exact hpending name (h.1.staged area name ((h.2 name).mp hmem))
  · exact (h.2 name).mpr (h.1.there area name hleft)
  · exact h.1.staged area name ((h.2 name).mp hmem)

/-! ## Leases without staged work -/

/-- Leases that have been swept are gone, or staged work has them, or somebody held them. -/
structure Sweeping (σ : Setting) (a : Agent) (before : Shared) (rest : List Bytes)
    (busy : Option Bytes) (w : World) : Prop where
  recovering : Recovering σ a before (fun _ _ => False) busy w
  there : ∀ file ∈ rest, some file ≠ busy → (w.lease file).isSome = true
  left : ∀ file, some file ≠ busy → (w.lease file).isSome = true → file ∈ rest ∨
    (∃ area id, file = leaseFile id ∧ w.StagedIn area id) ∨ HeldAtEntry σ.config a before file

section Sweeping

variable {rest : List Bytes} {P : World → Prop}

theorem stable_sweeping : σ.Stable a (Sweeping σ a before rest busy) := by
  intro v w hinv hrely h
  have hstill := hrely.inside h.recovering.inside.storeLock
  refine ⟨stable_recovering v w hinv hrely h.recovering, fun file hmem hne => ?_,
    fun file hne hsome => ?_⟩
  · exact (hstill.lease_isSome file).mpr (h.there file hmem hne)
  · refine (h.left file hne ((hstill.lease_isSome file).mp hsome)).imp_right (Or.imp_left ?_)
    rintro ⟨area, id, rfl, hstaged⟩
    exact ⟨area, id, rfl, (hstill.staged area id).mpr hstaged⟩

theorem leaseFrame_sweeping :
    LeaseFrame σ a id (Sweeping σ a before rest (some (leaseFile id))) where
  stable := stable_sweeping
  inside _ h := h.recovering.inside.storeLock
  step w w' hstep h := by
    have hne : ∀ {file : Bytes}, some file ≠ some (leaseFile id) → w'.lease file = w.lease file :=
      fun hne => hstep.lease _ fun heq => hne (congrArg some heq)
    refine ⟨leaseFrame_recovering.step (σ := σ) w w' hstep h.recovering, fun file hmem hfile => ?_,
      fun file hfile hsome => ?_⟩
    · rw [hne hfile]
      exact h.there file hmem hfile
    · refine (h.left file hfile (hne hfile ▸ hsome)).imp_right (Or.imp_left ?_)
      rintro ⟨area, id, rfl, hstaged⟩
      exact ⟨area, id, rfl, by rwa [Shared.StagedIn, Shared.node_congr hstep.area]⟩

theorem Sweeping.takeUp {file : Bytes} (h : Sweeping σ a before (file :: rest) none w) :
    Sweeping σ a before rest (some file) w := by
  refine ⟨h.recovering.takeUp file, fun other hmem _ => ?_, fun other hne hsome => ?_⟩
  · exact h.there other (List.mem_cons_of_mem _ hmem) (Option.some_ne_none other)
  · refine (h.left other (Option.some_ne_none other) hsome).imp_left fun hmem => ?_
    exact (List.mem_cons.mp hmem).resolve_left fun heq => hne (congrArg some heq)

/-- A lease that stays. -/
theorem Sweeping.kept {file : Bytes} (h : Sweeping σ a before (file :: rest) none w)
    (hkept : (∃ area id, file = leaseFile id ∧ w.StagedIn area id) ∨
      HeldAtEntry σ.config a before file) : Sweeping σ a before rest none w := by
  refine ⟨h.recovering, fun other hmem => h.there other (List.mem_cons_of_mem _ hmem),
    fun other hne hsome => ?_⟩
  rcases h.left other hne hsome with hmem | hother
  · rcases List.mem_cons.mp hmem with rfl | hmem
    · exact .inr hkept
    · exact .inl hmem
  · exact .inr hother

/-- A lease that is gone. -/
theorem Sweeping.removed (h : Sweeping σ a before rest (some (leaseFile id)) w)
    (hrest : leaseFile id ∉ rest) (hlease : w.lease (leaseFile id) = none)
    (hstaged : ∀ area, ¬ w.StagedIn area id) : Sweeping σ a before rest none w := by
  refine ⟨h.recovering.removed hlease fun _ => hstaged, fun file hmem _ => ?_,
    fun file _ hsome => ?_⟩
  · exact h.there file hmem fun heq => hrest (Option.some.inj heq ▸ hmem)
  · refine h.left file (fun heq => ?_) hsome
    rw [Option.some.inj heq, hlease] at hsome
    cases hsome

/-- Whether something is staged. -/
theorem meets_nodeStaged (harea : area.isStaging = true) (hP : σ.Stable a P)
    (hlock : ∀ w, P w → w.storeLock = some a) :
    σ.Meets a P (nodeExists ⟨area, id, []⟩).run
      (Ends (fun exists? w => P w ∧ (exists? = true ↔ w.StagedIn area id)) (Failed a P)) := by
  have hthere : ∀ w, P w ∧ w.StagedIn area id → (w.at? ⟨area, id, []⟩).isSome = true :=
    fun w h => by rw [Shared.at?_top]; exact h.2.2
  have hgone : ∀ w, P w ∧ ¬ w.StagedIn area id → (w.at? ⟨area, id, []⟩).isSome = false :=
    fun w h => by
      rw [Shared.at?_top]
      exact Bool.eq_false_iff.mpr fun hsome => h.2 ⟨harea, hsome⟩
  refine Discipline.triple_split (fun w => w.StagedIn area id) ?_ ?_
  · exact meets_mono (meets_nodeExists (stable_stagedIn hP hlock fun staged => staged area id)
      hthere) (fun _ _ h => ⟨h.2.1, iff_of_true h.1 h.2.2⟩) fun _ h => ⟨h.1.1, h.2⟩
  · exact meets_mono (meets_nodeExists (stable_stagedIn hP hlock fun staged => ¬ staged area id)
      hgone) (fun _ _ h => ⟨h.2.1, iff_of_false (Bool.eq_false_iff.mp h.1) h.2.2⟩)
      fun _ h => ⟨h.1.1, h.2⟩

/-- A lease that nobody holds goes. -/
theorem meets_removeUnlocked (hrest : leaseFile id ∉ rest) :
    σ.Meets a (fun w => (Sweeping σ a before (leaseFile id :: rest) none w ∧
        ∀ area, ¬ w.StagedIn area id) ∧ w.LeaseIs (leaseFile id) ino)
      (removeUnlocked (leaseFile id) ino)
      (Ends (fun _ => Sweeping σ a before rest none) (RecoveryFailed a before)) := by
  have hunstaged := stable_stagedIn (@stable_sweeping σ a before none (leaseFile id :: rest))
    (fun w h => h.recovering.inside.storeLock) fun staged => ∀ area, ¬ staged area id
  have hstart := stable_leaseIs (leaseFile id) hunstaged
    (fun w h => h.1.recovering.inside.storeLock) ino
  have hframe := (@leaseFrame_sweeping σ a before id rest).stagedIn
    fun staged => ∀ area, ¬ staged area id
  refine Discipline.Triple.bind (meets_tryLockLease hstart hframe
    (fun w h => ⟨⟨h.1.1.takeUp, h.1.2⟩, h.2⟩)
    fun w b h hheld halive => h.1.1.recovering.heldAtEntry hheld halive) fun locked => ?_
  rcases locked with source | _ | _
  · exact Discipline.triple_ret (stable_failed hstart) fun w _ h => h.1.1.1.recovering.failed h.2
  · refine Discipline.triple_of fun hheld => ?_
    exact Discipline.triple_ret hstart fun w _ h => h.1.1.kept (.inr hheld)
  · refine meets_mono (meets_releaseAndRemoveLockFile hframe fun w h => .inr fun _ => h.2)
      (fun _ w h => ?_) fun w h => ?_
    · exact h.1.1.removed hrest h.2 h.1.2
    · exact h.1.1.recovering.failed h.2

/-- One entry of the loop of `remove_orphaned_unlocked_leases`. -/
theorem meets_removeOrphan {file : Bytes} (hrest : file ∉ rest) :
    σ.Meets a (Sweeping σ a before (file :: rest) none) (removeOrphan file).run
      (Ends (fun _ => Sweeping σ a before rest none) (RecoveryFailed a before)) := by
  have hstable := @stable_sweeping σ a before none (file :: rest)
  have hlock : ∀ w, Sweeping σ a before (file :: rest) none w → w.storeLock = some a :=
    fun w h => h.recovering.inside.storeLock
  refine Discipline.Triple.pre (Discipline.triple_of (φ := ∃ id, file = leaseFile id ∧
    validTransactionId id = true) fun hfile => ?_) fun w hinv h => ⟨?_, h⟩
  · obtain ⟨id, rfl, hid⟩ := hfile
    refine meets_seq (meets_quietOp _ hstable) (fun w h => h.1.recovering.failed h.2) fun _ => ?_
    rw [fileExtension_leaseFile hid, fileStem_leaseFile hid, utf8_transactionId hid, hid]
    rw [if_neg (not_not.mpr rfl), Bool.not_true, if_neg Bool.false_ne_true,
      if_neg Bool.false_ne_true]
    have hfailed : ∀ ψ : (Area → Bytes → Prop) → Prop, ∀ w, Failed a (fun w =>
        Sweeping σ a before (leaseFile id :: rest) none w ∧ ψ w.StagedIn) w →
          RecoveryFailed a before w := fun ψ w h => h.1.1.recovering.failed h.2
    have hstays : ∀ area, σ.Meets a (fun w => Sweeping σ a before (leaseFile id :: rest) none w ∧
        w.StagedIn area id) (pure () : Op Unit).run
          (Ends (fun _ => Sweeping σ a before rest none) (RecoveryFailed a before)) :=
      fun area => meets_mono (meets_return (stable_stagedIn hstable hlock
        fun staged => staged area id) ()) (fun _ _ h => h.2.1.kept (.inl ⟨area, id, rfl, h.2.2⟩))
        fun _ h => h
    refine meets_seq (meets_nodeStaged isStaging_staging hstable hlock)
      (fun w h => h.1.recovering.failed h.2) fun exists? => ?_
    cases exists? with
    | true => exact Discipline.Triple.pre (hstays .staging) fun w _ h => ⟨h.1, h.2.mp rfl⟩
    | false =>
        refine Discipline.Triple.pre (P := fun w => Sweeping σ a before (leaseFile id :: rest) none w ∧
          ¬ w.StagedIn .staging id) ?_ fun w _ h =>
            ⟨h.1, fun hstaged => Bool.false_ne_true (h.2.mpr hstaged)⟩
        have hunstaged := stable_stagedIn hstable hlock fun staged => ¬ staged .staging id
        refine meets_seq (meets_nodeStaged isStaging_sourceStaging hunstaged
          fun w h => hlock w h.1) (hfailed fun staged => ¬ staged .staging id) fun exists? => ?_
        cases exists? with
        | true =>
            exact Discipline.Triple.pre (hstays .sourceStaging) fun w _ h => ⟨h.1.1, h.2.mp rfl⟩
        | false =>
            refine Discipline.Triple.pre (P := fun w =>
              Sweeping σ a before (leaseFile id :: rest) none w ∧ ∀ area, ¬ w.StagedIn area id) ?_
              fun w _ h => ⟨h.1.1, fun area hstaged => ?_⟩
            · have hnowhere := stable_stagedIn hstable hlock fun staged => ∀ area, ¬ staged area id
              refine meets_seq (meets_openExistingLockFile hnowhere fun w h => hlock w h.1)
                (fun w h => ?_) fun ino => meets_removeUnlocked hrest
              refine h.1.1.recovering.failed (h.2.resolve_right fun hnone => ?_)
              have hsome := h.1.1.there _ List.mem_cons_self (Option.some_ne_none _)
              rw [hnone] at hsome
              cases hsome
            · cases area with
              | staging => exact h.1.2 hstaged
              | sourceStaging => exact Bool.false_ne_true (h.2.mpr hstaged)
              | sources | results => cases hstaged.1
  · exact hinv.leaseValid file (h.there file List.mem_cons_self (Option.some_ne_none file))

/-- The loop of `remove_orphaned_unlocked_leases` deals with every lease. -/
theorem meets_removeOrphans (files : List Bytes) (hnodup : files.Nodup) :
    σ.Meets a (Sweeping σ a before files none) (removeOrphans files).run
      (Ends (fun _ => Sweeping σ a before [] none) (RecoveryFailed a before)) := by
  induction files with
  | nil => exact meets_mono (meets_return stable_sweeping ()) (fun _ _ h => h.2) fun _ h => h
  | cons file rest ih =>
      obtain ⟨hfile, hrest⟩ := List.nodup_cons.mp hnodup
      exact meets_seq (meets_removeOrphan hfile) (fun _ h => h) fun _ => ih hrest

/-- `remove_orphaned_unlocked_leases` comes after the staging roots. -/
theorem meets_removeOrphanedUnlockedLeases :
    σ.Meets a (Recovering σ a before (fun _ _ => False) none) removeOrphanedUnlockedLeases.run
      (Ends (fun _ => Sweeping σ a before [] none) (RecoveryFailed a before)) := by
  refine meets_seq (meets_orIo (meets_readLeases stable_recovering fun w h => h.inside.storeLock))
    (fun w h => h.1.failed h.2) fun files => Discipline.triple_of fun hnodup => ?_
  exact Discipline.Triple.pre (meets_removeOrphans files hnodup) fun w _ h =>
    ⟨h.1, fun file hmem _ => (h.2 file).mp hmem, fun file _ hsome => .inl ((h.2 file).mpr hsome)⟩

/-- What a recovery owes that has dealt with everything. -/
theorem Sweeping.recoveryKept (h : Sweeping σ a before [] none w) (count : Nat) :
    RecoveryKept σ.config w.faulted a before w.toShared (.ok count) := by
  have hsince : ∀ file, (w.lease file).isSome = true → HeldAtEntry σ.config a before file →
      HeldSince σ.config w.faulted a before w.toShared file := by
    rintro file hsome ⟨ino, holder, hne, hheld, halive⟩
    obtain ⟨lease, hlease⟩ := Option.isSome_iff_exists.mp hsome
    refine ⟨ino, holder, hne, hheld, halive, ?_⟩
    rcases h.recovering.leases file lease (Option.some_ne_none file) hlease with
      hsame | ⟨ino', holder', _, hheld', rfl, hfault⟩
    · cases hheld.symm.trans hsame
      exact .inl hlease
    · cases hheld.symm.trans hheld'
      exact .inr ⟨hlease, hfault⟩
  refine fun hpaired => ⟨fun area id hstaged => hsince _ ?_ ?_, fun file hsome => ?_⟩
  · exact h.recovering.paired hpaired area id (Option.some_ne_none _) hstaged
  · exact (h.recovering.left hpaired area id (Option.some_ne_none _) hstaged).resolve_left not_false
  · rcases h.left file (Option.some_ne_none file) hsome with hmem | hstaged | hheld
    · cases hmem
    · exact .inl hstaged
    · exact .inr (hsince file hsome hheld)

end Sweeping

/-! ## Recovery -/

theorem recovering_enter (hmine : ∀ file ino, w.lease file ≠ some ⟨ino, some a⟩) :
    Recovering σ a w.toShared w.toShared.StagedIn none
      { w with storeLock := some a, entered := w.toShared } where
  inside := ⟨rfl, rfl, fun _ => rfl, fun _ => rfl⟩
  dead _ h := h
  mine file ino _ := hmine file ino
  staged _ _ h := h
  leases _ _ _ h := .inl h
  paired hpaired area id _ hstaged := hpaired.lease area id hstaged
  left _ _ _ _ hstaged := .inl hstaged
  there _ _ h := h

/-- The body of `Store::recover_abandoned`. -/
theorem meets_recoverAll :
    σ.Meets a (Recovering σ a before before.StagedIn none) (do
      let results ← recoverStagingRoot .staging
      let sources ← recoverStagingRoot .sourceStaging
      removeOrphanedUnlockedLeases
      return results + sources : Op Nat).run
      (Ends (fun _ => Sweeping σ a before [] none) (RecoveryFailed a before)) := by
  refine meets_seq (meets_recoverStagingRoot isStaging_staging fun _ h => h) (fun _ h => h)
    fun results => ?_
  refine meets_seq (meets_recoverStagingRoot isStaging_sourceStaging
    fun _ h => ⟨h, fun heq => by cases heq⟩) (fun _ h => h) fun sources => ?_
  refine meets_seq (Discipline.Triple.pre meets_removeOrphanedUnlockedLeases fun w _ h => ?_)
    (fun _ h => h) fun _ =>
      meets_mono (meets_return stable_sweeping _) (fun _ _ h => h.2) fun _ h => h
  refine h.congr fun area id => iff_of_false ?_ not_false
  rintro ⟨⟨hstaged, hstaging⟩, hsource⟩
  cases area with
  | staging => exact hstaging rfl
  | sourceStaging => exact hsource rfl
  | sources | results => cases hstaged.1

/-- `Store::recover_abandoned` of an agent without a lease keeps its contract. -/
theorem meets_recoverAbandoned :
    σ.Meets a (fun w => ∀ file ino, w.lease file ≠ some ⟨ino, some a⟩) recoverAbandoned.run
      fun _ _ => True := by
  have htrue : σ.Stable a fun _ => True := Discipline.stable_const True
  refine meets_locked (Discipline.stable_forall fun file => Discipline.stable_forall fun ino =>
      stable_unleased file ino) (fun before => stable_recovering)
    (fun w _ hmine => recovering_enter hmine)
    (R := Ends (fun _ w => ∃ before, Sweeping σ a before [] none w)
      fun w => ∃ before, RecoveryFailed a before w)
    (fun before => meets_mono meets_recoverAll (fun _ _ h => ⟨before, h⟩) fun w h => ⟨before, h⟩)
    (stable_ends (fun _ => Discipline.stable_exists fun before => stable_sweeping)
      (Discipline.stable_exists fun before => stable_recoveryFailed)) (fun _ => htrue) ?_
    (fun _ _ _ _ => trivial) fun _ _ _ => trivial
  intro result w _ h
  rcases result with e | count
  · obtain ⟨before, hinside, hreason⟩ := h
    refine ⟨hinside.storeLock, hinside.accounted, hinside.same.1, hinside.same.2, ?_⟩
    rw [hinside.entered]
    exact hreason
  · obtain ⟨before, h⟩ := h
    have hinside := h.recovering.inside
    refine ⟨hinside.storeLock, hinside.accounted, hinside.same.1, hinside.same.2, ?_⟩
    rw [hinside.entered]
    exact h.recoveryKept count

end Recovering

end Prep.Store
