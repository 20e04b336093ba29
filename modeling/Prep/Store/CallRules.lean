/-
  Store/CallRules.lean --- what one call of an agent of a store ensures.

  One rule for each call, with the assertion that the call leaves alone as a parameter.
-/
import Prep.Store.Rules

set_option autoImplicit false

namespace Prep.Store

open Prep.Machine
open Prep.Text
open Prep.Fs (Node Path)
open Prep.Io (IoError)

section CallRules

variable {σ : Setting} {a : Agent} {P : World → Prop} {w : World}

/-- A call that fails, or goes through at once. -/
theorem meets_mayFail {c : Call} {Q : Answer c → World → Prop} (fail : Nat → Answer c)
    (act : World → Option (Reply (Answer c) World))
    (hrespond : ∀ w choice reply, respond σ.config a c choice w = some reply →
      (∃ code, reply = .done (fail code) (w.fault a)) ∨ act w = some reply)
    (hP : σ.Stable a P) (hQ : ∀ x, σ.Stable a (Q x))
    (hguard : ∀ w, Inv σ.codec σ.config w → P w → Guard σ.codec σ.config σ.clients a c w)
    (hfail : ∀ code w, Failed a P w → Q (fail code) w)
    (hact : ∀ w reply, Inv σ.codec σ.config w → P w → act w = some reply →
      ∃ x w', reply = .done x w' ∧ Q x w') :
    σ.Meets a P (perform c) Q := by
  refine Discipline.triple_call hP hQ fun w hinv _ hw => ⟨hguard w hinv hw, ?_⟩
  intro choice reply hreply
  rcases hrespond w choice reply hreply with ⟨code, rfl⟩ | hdone
  · exact ⟨fail code, _, rfl, hfail code _ (failed_fault hP hinv hw)⟩
  · exact hact w reply hinv hw hdone

/-! ## Calls that look -/

theorem meets_quiet (c : Quiet) (hP : σ.Stable a P) :
    σ.Meets a P (perform (.quiet c)) (Ends (fun _ => P) (Failed a P)) := by
  refine meets_mayFail (fun code => .error (.other code)) (fun w => some (.done (.ok ()) w))
    (fun w choice reply => mayFail_eq_some) hP (stable_ends (fun _ => hP) (stable_failed hP))
    (fun _ _ _ => trivial) (fun _ _ h => h) fun w reply _ hw hact => ?_
  cases hact
  exact ⟨.ok (), w, rfl, hw⟩

/-- What is read is there; what is not read is not there, or a call has failed. -/
theorem meets_read (place : Place) (hP : σ.Stable a P) {φ : Node → Prop} {ψ : Prop}
    (hsome : ∀ w node, Inv σ.codec σ.config w → P w → w.at? place = some node → φ node)
    (hnone : ∀ w, Inv σ.codec σ.config w → P w → w.at? place = none → ψ) :
    σ.Meets a P (read place) fun
      | .ok node, w => φ node ∧ P w
      | .error e, w => P w ∧ (w.faulted a = true ∧ (∃ code, e = .other code) ∨ ψ ∧ e = .notFound) := by
  refine meets_mayFail (fun code => .error (.other code)) _
    (fun w choice reply => mayFail_eq_some) hP (fun result => ?_) (fun _ _ _ => trivial)
    (fun code w h => ⟨h.1, .inl ⟨h.2, code, rfl⟩⟩) fun w reply hinv hw hact => ?_
  · cases result with
    | ok node => exact (Discipline.stable_const _).and hP
    | error e =>
        exact hP.and (((stable_faulted a).and (Discipline.stable_const _)).or
          (Discipline.stable_const _))
  · split at hact
    · rename_i node hnode
      cases hact
      exact ⟨.ok node, w, rfl, hsome w node hinv hw hnode, hw⟩
    · rename_i hnode
      cases hact
      exact ⟨.error .notFound, w, rfl, hw, .inr ⟨hnone w hinv hw hnode, rfl⟩⟩

theorem meets_canonicalize (place : Place) (hP : σ.Stable a P) {ψ : Prop}
    (hnone : ∀ w, Inv σ.codec σ.config w → P w → w.at? place = none → ψ) :
    σ.Meets a P (canonicalize place)
      (Ends (fun _ => P) fun w => P w ∧ (w.faulted a = true ∨ ψ)) := by
  refine meets_mayFail (fun code => .error (.other code)) _
    (fun w choice reply => mayFail_eq_some) hP
    (stable_ends (fun _ => hP) (hP.and ((stable_faulted a).or (Discipline.stable_const _))))
    (fun _ _ _ => trivial) (fun _ _ h => ⟨h.1, .inl h.2⟩) fun w reply hinv hw hact => ?_
  split at hact
  · cases hact
    exact ⟨.ok (), w, rfl, hw⟩
  · rename_i hnode
    cases hact
    exact ⟨.error .notFound, w, rfl, hw, .inr (hnone w hinv hw hnode)⟩

/-- The names in a staging area, while nobody else has the store lock. -/
theorem meets_readNames {area : Area} (harea : area.isStaging = true) (hP : σ.Stable a P)
    (hlock : ∀ w, P w → w.storeLock = some a) :
    σ.Meets a P (perform (.readNames area)) (Ends
      (fun names w => names.Nodup ∧ P w ∧ ∀ name, name ∈ names ↔ w.StagedIn area name)
      (Failed a P)) := by
  have hstable : ∀ names : List Bytes,
      σ.Stable a fun w => P w ∧ ∀ name, name ∈ names ↔ w.StagedIn area name :=
    fun names => stable_undisturbed hP hlock fun v w _ hstill h name =>
      (h name).trans (hstill.staged area name).symm
  refine meets_mayFail (fun code => .error (.other code)) _
    (fun w choice reply => mayFail_eq_some) hP
    (stable_ends (fun names => (Discipline.stable_const _).and (hstable names)) (stable_failed hP))
    (fun _ _ _ => trivial) (fun _ _ h => h) fun w reply _ hw hact => ?_
  cases hact
  refine ⟨.ok (w.area area).keys, w, rfl, AList.keys_nodup _, hw, fun name => ?_⟩
  rw [Shared.StagedIn, Shared.node, AList.lookup_isSome, AList.mem_keys]
  exact (and_iff_right harea).symm

/-- The lease files, while nobody else has the store lock. -/
theorem meets_readLeases (hP : σ.Stable a P) (hlock : ∀ w, P w → w.storeLock = some a) :
    σ.Meets a P (perform .readLeases) (Ends
      (fun files w => files.Nodup ∧ P w ∧ ∀ file, file ∈ files ↔ (w.lease file).isSome = true)
      (Failed a P)) := by
  have hstable : ∀ files : List Bytes,
      σ.Stable a fun w => P w ∧ ∀ file, file ∈ files ↔ (w.lease file).isSome = true :=
    fun files => stable_undisturbed hP hlock fun v w _ hstill h file =>
      (h file).trans (hstill.lease_isSome file).symm
  refine meets_mayFail (fun code => .error (.other code)) _
    (fun w choice reply => mayFail_eq_some) hP
    (stable_ends (fun files => (Discipline.stable_const _).and (hstable files)) (stable_failed hP))
    (fun _ _ _ => trivial) (fun _ _ h => h) fun w reply _ hw hact => ?_
  cases hact
  refine ⟨.ok w.leases.keys, w, rfl, AList.keys_nodup _, hw, fun file => ?_⟩
  rw [Shared.lease, AList.lookup_isSome, AList.mem_keys]

/-! ## Leases -/

/-- The file of a lease by name, while nobody else has the store lock. -/
theorem meets_statLease (file : Bytes) (hP : σ.Stable a P)
    (hlock : ∀ w, P w → w.storeLock = some a) :
    σ.Meets a P (perform (.statLease file)) (Ends
      (fun ino w => P w ∧ w.LeaseIs file ino)
      (fun w => P w ∧ (w.faulted a = true ∨ w.lease file = none))) := by
  refine meets_mayFail (fun code => .error (.other code)) _
    (fun w choice reply => mayFail_eq_some) hP
    (stable_ends (stable_leaseIs file hP hlock) (stable_noLease file hP hlock))
    (fun _ _ _ => trivial) (fun _ _ h => ⟨h.1, .inl h.2⟩) fun w reply _ hw hact => ?_
  split at hact
  · rename_i lease hlease
    cases hact
    exact ⟨.ok lease.ino, w, rfl, hw, lease.holder, hlease⟩
  · rename_i hlease
    cases hact
    exact ⟨.error .notFound, w, rfl, hw, .inr hlease⟩

theorem meets_openLease (file : Bytes) (hP : σ.Stable a P)
    (hlock : ∀ w, P w → w.storeLock = some a) :
    σ.Meets a P (perform (.openLease file)) (Ends
      (fun ino w => P w ∧ w.LeaseIs file ino)
      (fun w => P w ∧ (w.faulted a = true ∨ w.lease file = none))) := by
  refine meets_mayFail (fun code => .error (.other code)) _
    (fun w choice reply => mayFail_eq_some) hP
    (stable_ends (stable_leaseIs file hP hlock) (stable_noLease file hP hlock))
    (fun _ _ _ => trivial) (fun _ _ h => ⟨h.1, .inl h.2⟩) fun w reply _ hw hact => ?_
  split at hact
  · rename_i lease hlease
    cases hact
    exact ⟨.ok lease.ino, w, rfl, hw, lease.holder, hlease⟩
  · rename_i hlease
    cases hact
    exact ⟨.error .notFound, w, rfl, hw, .inr hlease⟩

/-- An identifier that nobody alive has drawn. -/
theorem meets_transactionId (hP : σ.Stable a P)
    (hdraw : ∀ w drawn, P w → (∀ b id, w.Drew b id → (b, id) ∈ drawn) →
      P { w with drawn := drawn }) :
    σ.Meets a P (perform .transactionId) fun id w => P w ∧ w.Drew a id := by
  refine Discipline.triple_call hP (fun id => hP.and (stable_drew id)) fun w _ _ hw =>
    ⟨trivial, fun choice reply hrespond => ?_⟩
  cases choice with
  | stamp stamp =>
      have hreply : respond σ.config a .transactionId (.stamp stamp) w = some reply := hrespond
      unfold respond at hreply
      dsimp only at hreply
      split at hreply
      · cases hreply
      · cases hreply
        refine ⟨_, _, rfl, ?_, List.mem_cons_self⟩
        exact hdraw w _ hw fun b id hdrew => List.mem_cons_of_mem _ hdrew
  | proceed | fault | delete | fill | command => cases hrespond

/-- A lease is made where there is none.  `φ` is what its absence tells. -/
theorem meets_createLease {id : Bytes} {P' : World → Prop} {φ : Prop} (hP' : σ.Stable a P')
    (hP : LeaseFrame σ a id P) (hframe : ∀ w, P' w → P w ∧ w.Drew a id)
    (hφ : ∀ w, P' w → w.lease (leaseFile id) = none → φ) :
    σ.Meets a P' (perform (.createLease (leaseFile id))) (Ends
      (fun ino w => φ ∧ P w ∧ w.lease (leaseFile id) = some ⟨ino, none⟩) P') := by
  refine meets_mayFail (fun code => .error (.other code)) _
    (fun w choice reply => mayFail_eq_some) hP'
    (stable_ends (fun ino => (Discipline.stable_const φ).and
      (stable_free (leaseFile id) hP.stable hP.inside ino)) hP')
    (fun w _ hw => ⟨hP.inside w (hframe w hw).1, id, rfl, (hframe w hw).2⟩)
    (fun _ _ h => h.1) fun w reply _ hw hact => ?_
  split at hact
  · cases hact
    exact ⟨.error .alreadyExists, w, rfl, hw⟩
  · rename_i hfree
    cases hact
    refine ⟨.ok w.nextIno, _, rfl, hφ w hw hfree, ?_, ?_⟩
    · exact hP.step w _ (leaseStep_createLease id w) (hframe w hw).1
    · exact (World.lease_setLease ..).trans (if_pos rfl)

/-- The lock of a lease that nobody alive has. -/
theorem meets_lockLease {id : Bytes} {ino : Nat} (hP : LeaseFrame σ a id P) :
    σ.Meets a (fun w => P w ∧ w.LeaseIs (leaseFile id) ino) (perform (.lockLease (leaseFile id) ino))
      (Ends (fun _ w => P w ∧ w.lease (leaseFile id) = some ⟨ino, some a⟩) (Failed a P)) := by
  refine meets_mayFail (fun code => .error (.other code)) _
    (fun w choice reply => mayFail_eq_some) (stable_leaseIs _ hP.stable hP.inside ino)
    (stable_ends (fun _ => hP.stable.and (stable_leased _ ino)) (stable_failed hP.stable))
    (fun w _ hw => hP.inside w hw.1) (fun _ _ h => ⟨h.1.1, h.2⟩) fun w reply _ hw hact => ?_
  obtain ⟨hw, holder, hlease⟩ := hw
  have hfound : w.leases.lookup (leaseFile id) = some ⟨ino, holder⟩ := hlease
  rw [hfound] at hact
  dsimp only at hact
  rw [if_neg (not_not.mpr rfl)] at hact
  split at hact
  · cases hact
    refine ⟨.ok (), _, rfl, hP.step w _ (leaseStep_setLease id w _) hw, ?_⟩
    exact (World.lease_setLease ..).trans (if_pos rfl)
  · cases hact

/-- The lock of a lease, if nobody alive has it.  `φ` is what it tells that somebody has. -/
theorem meets_tryLockLease {id : Bytes} {ino : Nat} {P' : World → Prop} {φ : Prop}
    (hP' : σ.Stable a P') (hP : LeaseFrame σ a id P)
    (hframe : ∀ w, P' w → P w ∧ w.LeaseIs (leaseFile id) ino)
    (hφ : ∀ w b, P' w → w.lease (leaseFile id) = some ⟨ino, some b⟩ →
      w.dead (σ.config.process b) = false → φ) :
    σ.Meets a P' (perform (.tryLockLease (leaseFile id) ino)) fun
      | .ok true, w => P w ∧ w.lease (leaseFile id) = some ⟨ino, some a⟩
      | .ok false, w => φ ∧ P' w
      | .error _, w => Failed a P' w := by
  refine meets_mayFail (fun code => .error (.other code)) _
    (fun w choice reply => mayFail_eq_some) hP' (fun result => ?_)
    (fun w _ hw => hP.inside w (hframe w hw).1) (fun _ _ h => h) fun w reply _ hw hact => ?_
  · rcases result with e | _ | _
    · exact stable_failed hP'
    · exact (Discipline.stable_const φ).and hP'
    · exact hP.stable.and (stable_leased _ ino)
  · obtain ⟨hP'w, holder, hlease⟩ := hframe w hw
    have hfound : w.leases.lookup (leaseFile id) = some ⟨ino, holder⟩ := hlease
    rw [hfound] at hact
    dsimp only at hact
    rw [if_neg (not_not.mpr rfl)] at hact
    split at hact
    · cases hact
      refine ⟨.ok true, _, rfl, hP.step w _ (leaseStep_setLease id w _) hP'w, ?_⟩
      exact (World.lease_setLease ..).trans (if_pos rfl)
    · rename_i hfree
      cases hact
      refine ⟨.ok false, w, rfl, ?_, hw⟩
      cases holder with
      | none => exact absurd rfl hfree
      | some b => exact hφ w b hw hlease (Bool.not_eq_true _ ▸ hfree)

/-- A lease that the agent holds is removed. -/
theorem meets_removeLease {id : Bytes} {ino : Nat} (hP : LeaseFrame σ a id P)
    (hclear : ∀ w, P w → w.Cleared a id) :
    σ.Meets a (fun w => P w ∧ w.lease (leaseFile id) = some ⟨ino, some a⟩)
      (perform (.removeLease (leaseFile id)))
      (Ends (fun _ w => P w ∧ w.lease (leaseFile id) = none) (Failed a P)) := by
  refine meets_mayFail (fun code => .error (.other code)) _
    (fun w choice reply => mayFail_eq_some) (hP.stable.and (stable_leased _ ino))
    (stable_ends (fun _ => stable_unheld _ hP.stable hP.inside) (stable_failed hP.stable))
    (fun w _ hw => ⟨hP.inside w hw.1, fun lease hlease => ?_, fun other heq => ?_⟩)
    (fun _ _ h => ⟨h.1.1, h.2⟩) fun w reply _ hw hact => ?_
  · cases hw.2.symm.trans hlease
    rfl
  · rw [← leaseFile_injective heq]
    exact hclear w hw.1
  · split at hact
    · cases hact
      refine ⟨.ok (), _, rfl, hP.step w _ (leaseStep_eraseLease id w) hw.1, ?_⟩
      exact (World.lease_eraseLease ..).trans (if_pos rfl)
    · rename_i hnone
      cases hnone.symm.trans hw.2

/-- The lock of a lease is let go by name, when it is gone already. -/
theorem meets_unlockLease {file : Bytes} {ino : Nat} (hP : σ.Stable a P)
    (hlock : ∀ w, P w → w.storeLock = some a) (hnone : ∀ w, P w → w.lease file = none) :
    σ.Meets a P (perform (.unlockLease file ino)) (Ends (fun _ => P) (Failed a P)) := by
  refine meets_mayFail (fun code => .error (.other code)) _
    (fun w choice reply => mayFail_eq_some) hP (stable_ends (fun _ => hP) (stable_failed hP))
    (fun w _ hw => .inl (hlock w hw)) (fun _ _ h => h) fun w reply _ hw hact => ?_
  cases hact
  refine ⟨.ok (), _, rfl, ?_⟩
  rw [release_of_none (hnone w hw)]
  exact hw

/-- The handle of a lease is closed. -/
theorem meets_closeLease {file : Bytes} {ino : Nat} {Q : World → Prop} (hP : σ.Stable a P)
    (hQ : σ.Stable a Q) (hallowed : ∀ w, P w → w.storeLock = some a ∨ w.faulted a = true)
    (hclose : ∀ w, P w → Q (w.release a file ino)) :
    σ.Meets a P (perform (.closeLease file ino)) fun _ => Q := by
  refine Discipline.triple_call hP (fun _ => hQ) fun w _ _ hw =>
    ⟨hallowed w hw, fun choice reply hrespond => ?_⟩
  cases choice with
  | proceed =>
      cases hrespond
      exact ⟨(), _, rfl, hclose w hw⟩
  | fault | stamp | delete | fill | command => cases hrespond

/-! ## The store lock -/

/-- What was shared when the lock was taken stays at hand. -/
theorem meets_lockStoreCall {Q : Shared → World → Prop} (hP : σ.Stable a P)
    (hQ : ∀ before, σ.Stable a (Q before))
    (henter : ∀ w, Inv σ.codec σ.config w → P w →
      Q w.toShared { w with storeLock := some a, entered := w.toShared }) :
    σ.Meets a P (perform .lockStore) (Ends (fun _ w => ∃ before, Q before w) (Failed a P)) := by
  refine meets_mayFail (fun code => .error (.other code)) _
    (fun w choice reply => mayFail_eq_some) hP
    (stable_ends (fun _ => Discipline.stable_exists hQ) (stable_failed hP))
    (fun _ _ _ => trivial) (fun _ _ h => h) fun w reply hinv hw hact => ?_
  split at hact
  · cases hact
    exact ⟨.ok (), _, rfl, w.toShared, henter w hinv hw⟩
  · cases hact

/-- The lock is let go when the visit has kept its contract. -/
theorem meets_unlockStore {outcome : Outcome} {Q : World → Prop} (hP : σ.Stable a P)
    (hQ : σ.Stable a Q)
    (hkept : ∀ w, Inv σ.codec σ.config w → P w →
      Guard σ.codec σ.config σ.clients a (.unlockStore outcome) w)
    (hleave : ∀ w visits, P w → Q { w with storeLock := none, visits := visits }) :
    σ.Meets a P (perform (.unlockStore outcome)) fun _ => Q := by
  refine Discipline.triple_call hP (fun _ => hQ) fun w hinv _ hw =>
    ⟨hkept w hinv hw, fun choice reply hrespond => ?_⟩
  cases choice with
  | proceed =>
      cases hrespond
      exact ⟨(), _, rfl, hleave w _ hw⟩
  | fault | stamp | delete | fill | command => cases hrespond

/-! ## Staged directories -/

theorem isStaging_staging : Area.isStaging .staging = true := rfl

theorem isStaging_sourceStaging : Area.isStaging .sourceStaging = true := rfl

/-- What is staged under a lease that the agent holds stays. -/
theorem stable_staged {area : Area} {id : Bytes} (harea : area.isStaging = true)
    (hP : σ.Stable a P) (hheld : ∀ w, P w → w.HeldBy a id) (φ : Option Node → Prop) :
    σ.Stable a fun w => P w ∧ φ (w.node area id) := by
  rintro v w hinv hrely ⟨hv, hnode⟩
  refine ⟨hP v w hinv hrely hv, ?_⟩
  rw [hrely.node area id harea (hheld v hv)]
  exact hnode

/-- A staged directory is made where there is none. -/
theorem meets_createDir {area : Area} {id : Bytes} {P' : World → Prop}
    (harea : area.isStaging = true) (hP' : σ.Stable a P') (hP : WorkFrame σ a area id P)
    (hheld : ∀ w, P w → w.HeldBy a id) (hframe : ∀ w, P' w → P w)
    (hguard : ∀ w, P w → w.Drew a id ∧
      (w.entered.Paired → ∀ other, w.StagedIn other id → other = area)) :
    σ.Meets a P' (perform (.createDir ⟨area, id, []⟩))
      (Ends (fun _ w => P w ∧ w.node area id = some (.dir [])) P') := by
  refine meets_mayFail (fun code => .error (.other code)) _
    (fun w choice reply => mayFail_eq_some) hP'
    (stable_ends (fun _ => stable_staged harea hP.stable hheld fun node => node = some (.dir []))
      hP')
    (fun w _ hw => ⟨hP.inside w (hframe w hw), harea, hheld w (hframe w hw),
      hguard w (hframe w hw)⟩)
    (fun _ _ h => h.1) fun w reply _ hw hact => ?_
  cases hact
  unfold createAt
  split
  · exact ⟨_, _, rfl, hw⟩
  · rw [if_pos rfl]
    refine ⟨_, _, rfl, hP.step w _ (workStep_setNode area id w _) (hframe w hw), ?_⟩
    rw [World.node_setNode, if_pos ⟨rfl, rfl⟩]

/-- A directory is made in a staged directory that is empty. -/
theorem meets_createDir_below {area : Area} {id name : Bytes} (harea : area.isStaging = true)
    (hP : WorkFrame σ a area id P) (hheld : ∀ w, P w → w.HeldBy a id)
    (hguard : ∀ w, P w → w.Drew a id ∧
      (w.entered.Paired → ∀ other, w.StagedIn other id → other = area)) :
    σ.Meets a (fun w => P w ∧ w.node area id = some (.dir []))
      (perform (.createDir ⟨area, id, [name]⟩))
      (Ends (fun _ w => P w ∧ (w.node area id).isSome = true) (Failed a P)) := by
  have hstable := stable_staged harea hP.stable hheld fun node => node = some (.dir [])
  have hsome := stable_staged harea hP.stable hheld fun node => node.isSome = true
  refine meets_mayFail (fun code => .error (.other code)) _
    (fun w choice reply => mayFail_eq_some) hstable
    (stable_ends (fun _ => hsome) (stable_failed hP.stable))
    (fun w _ hw => ⟨hP.inside w hw.1, harea, hheld w hw.1, hguard w hw.1⟩)
    (fun _ w h => ⟨h.1.1, h.2⟩) fun w reply _ hw hact => ?_
  cases hact
  have hat : ∀ below, w.at? ⟨area, id, below⟩ = (Node.dir []).get? below := fun below => by
    rw [Shared.at?, hw.2, Option.bind_some]
  have hnone : w.at? ⟨area, id, [name]⟩ = none := (hat _).trans rfl
  have hparent : w.at? ⟨area, id, [name].dropLast⟩ = some (.dir []) := (hat _).trans rfl
  unfold createAt
  rw [hnone]
  dsimp only
  rw [if_neg (List.cons_ne_nil _ _), hw.2, hparent]
  refine ⟨_, _, rfl, hP.step w _ (workStep_setNode area id w _) hw.1, ?_⟩
  rw [World.node_setNode, if_pos ⟨rfl, rfl⟩]
  rfl

/-- What one step of removing a tree does. -/
theorem removeStep_cases {area : Area} {id : Bytes} {choice : Choice}
    {reply : Reply (Except IoError Unit) World}
    (h : removeStep a w area id choice = some reply) :
    (∃ code, reply = .done (.error (.other code)) ((w.cutShort area id).fault a)) ∨
    (w.node area id = none ∧ reply = .done (.error .notFound) w) ∨
    (w.node area id = some (.dir []) ∧ reply = .done (.ok ()) (w.eraseNode area id)) ∨
    (∃ node, w.node area id = some node ∧ node.isDir = false ∧
      reply = .done (.error (.other 20)) w) ∨
    ∃ node below, w.node area id = some node ∧
      reply = .more (w.setNode area id (node.removeAt below)) := by
  unfold removeStep at h
  split at h
  · cases h
    exact .inl ⟨_, rfl⟩
  · split at h
    · rename_i hnode
      cases h
      exact .inr (.inl ⟨hnode, rfl⟩)
    · rename_i hnode
      cases h
      exact .inr (.inr (.inl ⟨hnode, rfl⟩))
    · cases h
    · rename_i node hempty hdir hnode
      cases h
      refine .inr (.inr (.inr (.inl ⟨node, hnode, ?_, rfl⟩)))
      cases node with
      | dir entries => exact absurd rfl (hdir entries)
      | file | symlink | special => rfl
  · split at h
    · rename_i node hnode
      split at h
      · cases h
        exact .inr (.inr (.inr (.inr ⟨node, _, hnode, rfl⟩)))
      · cases h
    · cases h
  · cases h

theorem stable_gone {area : Area} {id : Bytes} (hP : σ.Stable a P)
    (hnone : σ.Stable a fun w => P w ∧ w.node area id = none) (φ : Prop) :
    σ.Stable a fun w => P w ∧ (w.faulted a = true ∨ ¬ φ ∧ w.node area id = none) := by
  rintro v w hinv hrely ⟨hv, hgone⟩
  refine ⟨hP v w hinv hrely hv, hgone.imp (hrely.faulted a) fun h => ⟨h.1, ?_⟩⟩
  exact (hnone v w hinv hrely ⟨hv, h.2⟩).2

/-- A staged directory of a lease that the agent holds is removed.  `φ` is reason to know
that it is there. -/
theorem meets_removeDirAll {area : Area} {id : Bytes} {φ : Prop} (harea : area.isStaging = true)
    (hP : WorkFrame σ a area id P) (hheld : ∀ w, P w → w.HeldBy a id) :
    σ.Meets a (fun w => P w ∧ (φ → (w.node area id).isSome = true))
      (perform (.removeDirAll area id)) (Ends (fun _ w => P w ∧ w.node area id = none)
        fun w => P w ∧ (w.faulted a = true ∨ ¬ φ ∧ w.node area id = none)) := by
  have hstable := stable_staged harea hP.stable hheld fun node => φ → node.isSome = true
  have hnone := stable_staged harea hP.stable hheld fun node => node = none
  have hend : ∀ result : Except IoError Unit, σ.Stable a
      (Ends (fun _ w => P w ∧ w.node area id = none)
        (fun w => P w ∧ (w.faulted a = true ∨ ¬ φ ∧ w.node area id = none)) result) :=
    stable_ends (fun _ => hnone) (stable_gone hP.stable hnone φ)
  refine Discipline.triple_perform hstable hend
    (fun w _ _ hw => ⟨hP.inside w hw.1, .inl ⟨harea, .inl (hheld w hw.1)⟩⟩)
    (fun w choice w' _ hw hrespond => ?_) fun w choice result w' hinv _ hw hrespond => ?_
  · rcases removeStep_cases hrespond with ⟨_, h⟩ | ⟨_, h⟩ | ⟨_, h⟩ | ⟨_, _, _, h⟩ | ⟨node, below, _, h⟩
    · cases h
    · cases h
    · cases h
    · cases h
    · cases h
      refine ⟨hP.step w _ (workStep_setNode area id w _) hw.1, fun _ => ?_⟩
      rw [World.node_setNode, if_pos ⟨rfl, rfl⟩]
      rfl
  · rcases removeStep_cases hrespond with
      ⟨code, h⟩ | ⟨hnone, h⟩ | ⟨_, h⟩ | ⟨node, hnode, hfile, h⟩ | ⟨_, _, _, h⟩
    · rw [cutShort_staging harea] at h
      cases h
      have hfault := failed_fault hP.stable hinv hw.1
      exact ⟨hfault.1, .inl hfault.2⟩
    · cases h
      refine ⟨hw.1, .inr ⟨fun hφ => ?_, hnone⟩⟩
      have hsome := hw.2 hφ
      rw [hnone] at hsome
      cases hsome
    · cases h
      refine ⟨hP.step w _ (workStep_eraseNode area id w) hw.1, ?_⟩
      rw [World.node_eraseNode, if_pos ⟨rfl, rfl⟩]
    · have hdir := (hinv.stagedValid area id node harea hnode).2
      rw [hfile] at hdir
      cases hdir
    · cases h

/-- Nothing is removed where nothing is staged. -/
theorem meets_removeDirAll_none {area : Area} {id : Bytes} (harea : area.isStaging = true)
    (hP : σ.Stable a P) (hlock : ∀ w, P w → w.storeLock = some a)
    (hnone : ∀ w, P w → w.node area id = none) :
    σ.Meets a P (perform (.removeDirAll area id)) fun _ => P := by
  refine Discipline.triple_perform hP (fun _ => hP)
    (fun w _ _ hw => ⟨hlock w hw, .inl ⟨harea, .inr (hnone w hw)⟩⟩)
    (fun w choice w' _ hw hrespond => ?_) fun w choice result w' hinv _ hw hrespond => ?_
  · rcases removeStep_cases hrespond with
      ⟨_, h⟩ | ⟨_, h⟩ | ⟨_, h⟩ | ⟨_, _, _, h⟩ | ⟨node, below, hnode, h⟩
    · cases h
    · cases h
    · cases h
    · cases h
    · cases (hnone w hw).symm.trans hnode
  · rcases removeStep_cases hrespond with
      ⟨code, h⟩ | ⟨_, h⟩ | ⟨hnode, h⟩ | ⟨node, hnode, _, h⟩ | ⟨_, _, _, h⟩
    · rw [cutShort_staging harea] at h
      cases h
      exact (failed_fault hP hinv hw).1
    · cases h
      exact hw
    · cases (hnone w hw).symm.trans hnode
    · cases (hnone w hw).symm.trans hnode
    · cases h

/-! ## Results -/

/-- A result has been renamed into its place and is being taken back. -/
def RollingBack (a : Agent) (before : Shared) (results : Bytes → Option Node) (hex : Bytes)
    (w : World) : Prop :=
  ∃ node : Option Node, (∀ tree, node = some tree → tree.isDir = true) ∧
    Inside a before (Function.update results hex node) w

/-- A result has not been taken back: it is whole, or what a removal has left of it. -/
def Remaining (a : Agent) (before : Shared) (results : Bytes → Option Node) (hex : Bytes)
    (w : World) : Prop :=
  (∃ node, Inside a before (Function.update results hex node) w) ∧
    ∀ tree, w.node .results hex = some tree → (hex, tree) ∈ w.published ∨ (hex, tree) ∈ w.remains

section RollBack

variable {before : Shared} {results : Bytes → Option Node} {hex : Bytes}

theorem stable_rollingBack : σ.Stable a (RollingBack a before results hex) :=
  Discipline.stable_exists fun _ => (Discipline.stable_const _).and (stable_inside before _)

theorem stable_remaining : σ.Stable a (Remaining a before results hex) := by
  refine stable_undisturbed (Discipline.stable_exists fun node => stable_inside before _)
    (fun w h => ?_) fun v w _ hstill h tree htree => ?_
  · obtain ⟨node, h⟩ := h
    exact h.storeLock
  · rw [hstill.published, hstill.remains]
    exact h tree ((hstill.results hex).symm.trans htree)

theorem RollingBack.setNode (h : RollingBack a before results hex w) {node : Node}
    (hdir : node.isDir = true) : RollingBack a before results hex (w.setNode .results hex node) := by
  obtain ⟨_, _, hinside⟩ := h
  refine ⟨_, fun tree htree => ?_, hinside.resultStep (workStep_setNode .results hex w node)⟩
  rw [World.node_setNode, if_pos ⟨rfl, rfl⟩] at htree
  exact Option.some.inj htree ▸ hdir

/-- What is left of a result when its removal fails is remembered. -/
theorem RollingBack.cutShort (h : RollingBack a before results hex w) :
    Remaining a before results hex ((w.cutShort .results hex).fault a) := by
  obtain ⟨_, _, hinside⟩ := h
  refine ⟨⟨_, hinside.resultStep (workStep_cutShort .results hex w a)⟩, fun tree htree => .inr ?_⟩
  have hfound : w.node .results hex = some tree := by
    rw [← htree]
    unfold World.cutShort
    split <;> rfl
  have hcut : w.cutShort .results hex = { w with remains := (hex, tree) :: w.remains } := by
    unfold World.cutShort
    rw [hfound]
  rw [hcut]
  exact List.mem_cons_self

/-- A result that was not there when the lock was taken is taken back, node by node. -/
theorem meets_rollBack (hclient : σ.clients a = .transaction)
    (hbefore : before.node .results hex = none) (hP : σ.Stable a P)
    (hstep : ∀ w w', WorkStep .results hex w w' → P w → P w') :
    σ.Meets a (fun w => (RollingBack a before results hex w ∧ w.faulted a = true) ∧ P w)
      (perform (.removeDirAll .results hex))
      (Ends (fun _ w => Inside a before (Function.update results hex none) w ∧ P w)
        fun w => Remaining a before results hex w ∧ P w) := by
  have hpre := (@stable_rollingBack σ a before results hex |>.and (stable_faulted a)).and hP
  refine Discipline.triple_perform hpre
    (stable_ends (fun _ => (stable_inside before _).and hP) (stable_remaining.and hP))
    (fun w _ _ hw => ?_) (fun w choice w' _ hw hrespond => ?_)
    fun w choice result w' _ _ hw hrespond => ?_
  · obtain ⟨⟨⟨node, _, hinside⟩, hfault⟩, _⟩ := hw
    refine ⟨hinside.storeLock, .inr ⟨rfl, hclient, hfault, ?_⟩⟩
    rw [hinside.entered]
    exact hbefore
  · rcases removeStep_cases hrespond with ⟨_, h⟩ | ⟨_, h⟩ | ⟨_, h⟩ | ⟨_, _, _, h⟩ | ⟨node, below, hnode, h⟩
    · cases h
    · cases h
    · cases h
    · cases h
    · cases h
      have hwork := workStep_setNode .results hex w (node.removeAt below)
      refine ⟨⟨hw.1.1.setNode ?_, hw.1.2⟩, hstep w _ hwork hw.2⟩
      obtain ⟨⟨⟨old, hdir, hinside⟩, _⟩, _⟩ := hw
      have hold : old = some node := by
        rw [← hnode, hinside.results hex, Function.update_self]
      exact (isDir_modifyAt (isDir_dropEntry _) _ _).trans (hdir node hold)
  · obtain ⟨⟨hback, _⟩, hframe⟩ := hw
    rcases removeStep_cases hrespond with
      ⟨code, h⟩ | ⟨hnone, h⟩ | ⟨_, h⟩ | ⟨node, hnode, hfile, h⟩ | ⟨_, _, _, h⟩
    · cases h
      exact ⟨hback.cutShort, hstep w _ (workStep_cutShort .results hex w a) hframe⟩
    · cases h
      obtain ⟨node, _, hinside⟩ := hback
      exact ⟨⟨⟨node, hinside⟩, fun tree htree => by cases hnone.symm.trans htree⟩, hframe⟩
    · cases h
      have hwork := workStep_eraseNode .results hex w
      obtain ⟨node, _, hinside⟩ := hback
      have hgone : (w.eraseNode .results hex).node .results hex = none := by
        rw [World.node_eraseNode, if_pos ⟨rfl, rfl⟩]
      refine ⟨?_, hstep w _ hwork hframe⟩
      have hdone := hinside.resultStep hwork
      rw [hgone] at hdone
      exact hdone
    · obtain ⟨old, hdir, hinside⟩ := hback
      have hold : old = some node := by
        rw [← hnode, hinside.results hex, Function.update_self]
      rw [hdir node hold] at hfile
      cases hfile
    · cases h

end RollBack

/-! ## Metadata -/

section Metadata

variable {id : Bytes} {entries : List (Bytes × Node)}

theorem at?_staged {node : Node} (hnode : w.node .staging id = some node) (below : Path) :
    w.at? ⟨.staging, id, below⟩ = node.get? below := by
  rw [Shared.at?, hnode, Option.bind_some]

/-- The metadata is made in a staged directory that has none. -/
theorem meets_createNew (hP : FillFrame σ a .staging id P) (hheld : ∀ w, P w → w.HeldBy a id) :
    σ.Meets a (fun w => P w ∧ w.node .staging id = some (.dir entries))
      (perform (.createNew ⟨.staging, id, [metadataName]⟩)) (Ends
        (fun _ w => entries.lookup metadataName = none ∧
          P w ∧ w.node .staging id = some (withMetadata entries []))
        fun w => P w ∧ (w.faulted a = true ∨ entries.lookup metadataName ≠ none)) := by
  have hstable := stable_staged isStaging_staging hP.stable hheld
    fun node => node = some (.dir entries)
  have hmade := stable_staged isStaging_staging hP.stable hheld
    fun node => node = some (withMetadata entries [])
  refine meets_mayFail (fun code => .error (.other code)) _
    (fun w choice reply => mayFail_eq_some) hstable
    (stable_ends (fun _ => (Discipline.stable_const _).and hmade)
      (hP.stable.and ((stable_faulted a).or (Discipline.stable_const _))))
    (fun w _ hw => ⟨rfl, hheld w hw.1, List.cons_ne_nil _ _⟩) (fun _ w h => ⟨h.1.1, .inl h.2⟩)
    fun w reply _ hw hact => ?_
  cases hact
  have hmeta : w.at? ⟨.staging, id, [metadataName]⟩ = entries.lookup metadataName :=
    (at?_staged hw.2 _).trans (Node.get?_singleton _ _)
  have hparent : w.at? ⟨.staging, id, [metadataName].dropLast⟩ = some (.dir entries) :=
    (at?_staged hw.2 _).trans (Node.get?_nil _)
  unfold createAt
  rw [hmeta]
  cases hlookup : entries.lookup metadataName with
  | some node => exact ⟨_, _, rfl, hw.1, .inr (Option.some_ne_none node)⟩
  | none =>
      dsimp only
      rw [if_neg (List.cons_ne_nil _ _), hw.2, hparent]
      refine ⟨_, _, rfl, rfl, hP.setNode hw.1 _, ?_⟩
      rw [World.node_setNode, if_pos ⟨rfl, rfl⟩]
      rfl

/-- Bytes go to the end of the metadata. -/
theorem modifyAt_withMetadata (hnone : entries.lookup metadataName = none) (bytes : Bytes) :
    (withMetadata entries []).modifyAt (Node.appendContents bytes) [metadataName] =
      withMetadata entries bytes := by
  have hother : ∀ entry ∈ entries, entry.1 ≠ metadataName := fun entry hmem heq => by
    have hne := List.lookup_eq_none_iff.mp hnone entry hmem
    rw [heq, bne_self_eq_false] at hne
    cases hne
  rw [withMetadata, Node.modifyAt, List.map_append, withMetadata]
  refine congrArg Node.dir (congrArg₂ _ ?_ ?_)
  · exact (List.map_congr_left fun entry hmem => if_neg (hother entry hmem)).trans
      (List.map_id' entries)
  · rw [List.map_singleton, if_pos rfl]
    rfl

/-- The metadata is written. -/
theorem meets_write {encoded : Bytes} (hP : FillFrame σ a .staging id P)
    (hheld : ∀ w, P w → w.HeldBy a id) (hnone : entries.lookup metadataName = none) :
    σ.Meets a (fun w => P w ∧ w.node .staging id = some (withMetadata entries []))
      (perform (.write ⟨.staging, id, [metadataName]⟩ encoded)) (Ends
        (fun _ w => P w ∧ w.node .staging id = some (withMetadata entries encoded))
        (Failed a P)) := by
  have hstable := stable_staged isStaging_staging hP.stable hheld
    fun node => node = some (withMetadata entries [])
  have hwritten := stable_staged isStaging_staging hP.stable hheld
    fun node => node = some (withMetadata entries encoded)
  have happend : ∀ w, w.node .staging id = some (withMetadata entries []) → ∀ bytes,
      appendAt w ⟨.staging, id, [metadataName]⟩ bytes =
        w.setNode .staging id (withMetadata entries bytes) := fun w hnode bytes => by
    unfold appendAt
    rw [hnode]
    dsimp only
    rw [modifyAt_withMetadata hnone]
  refine Discipline.triple_call hstable
    (stable_ends (fun _ => hwritten) (stable_failed hP.stable)) fun w hinv _ hw =>
    ⟨⟨isStaging_staging, hheld w hw.1, List.cons_ne_nil _ _⟩, fun choice reply hrespond => ?_⟩
  have hset := fun bytes => hP.setNode hw.1 (withMetadata entries bytes)
  cases choice with
  | proceed =>
      cases hrespond
      refine ⟨.ok (), _, rfl, ?_⟩
      rw [happend w hw.2]
      refine ⟨hset encoded, ?_⟩
      rw [World.node_setNode, if_pos ⟨rfl, rfl⟩]
  | fault code done =>
      cases hrespond
      refine ⟨.error (.other code), _, rfl, ?_⟩
      rw [happend w hw.2]
      refine ⟨hP.step _ _ (workStep_fault .staging id _ a) ?_ (hset _), Function.update_self ..⟩
      show ((w.setNode .staging id _).node .staging id).isSome = true
      rw [World.node_setNode, if_pos ⟨rfl, rfl⟩]
      rfl
  | stamp | delete | fill | command => cases hrespond

end Metadata

/-! ## Publication -/

/-- An agent has a lease of its own. -/
structure Owns (a : Agent) (id : Bytes) (ino : Nat) (w : World) : Prop where
  drew : w.Drew a id
  lease : w.lease (leaseFile id) = some ⟨ino, some a⟩

theorem stable_owns (id : Bytes) (ino : Nat) : σ.Stable a (Owns a id ino) :=
  fun v w hinv hrely h => ⟨stable_drew id v w hinv hrely h.drew,
    stable_leased (leaseFile id) ino v w hinv hrely h.lease⟩

theorem Owns.workStep {area : Area} {id other : Bytes} {ino : Nat} {w' : World}
    (h : Owns a id ino w) (hstep : WorkStep area other w w') : Owns a id ino w' where
  drew := by
    rw [World.Drew, hstep.drawn]
    exact h.drew
  lease := (Shared.lease_congr hstep.leases _).trans h.lease

/-- What a handle stands for: the lease and the staged directory. -/
structure Handed (a : Agent) (area : Area) (id : Bytes) (ino : Nat) (w : World) : Prop where
  owns : Owns a id ino w
  placed : Placed a area id w

theorem stable_handed {area : Area} (harea : area.isStaging = true) (id : Bytes) (ino : Nat) :
    σ.Stable a (Handed a area id ino) := by
  intro v w hinv hrely h
  refine ⟨stable_owns id ino v w hinv hrely h.owns, h.placed.imp (hrely.faulted a) fun hsome => ?_⟩
  rw [hrely.node area id harea ⟨ino, h.owns.lease⟩]
  exact hsome

/-- An agent that has the store lock, a lease of its own, and what is staged under it. -/
structure Holding (a : Agent) (before : Shared) (results : Bytes → Option Node) (area : Area)
    (id : Bytes) (ino : Nat) (w : World) : Prop where
  inside : Inside a before results w
  owns : Owns a id ino w
  sole : Sole a area id w

section Holding

variable {before : Shared} {results : Bytes → Option Node} {area : Area} {name : Bytes} {ino : Nat}

theorem stable_holding : σ.Stable a (Holding a before results area name ino) := by
  intro v w hinv hrely h
  obtain ⟨hinside, hsole⟩ := stable_sole (stable_inside before results)
    (fun w h => h.storeLock) v w hinv hrely ⟨h.inside, h.sole⟩
  exact ⟨hinside, stable_owns name ino v w hinv hrely h.owns, hsole⟩

theorem workFrame_holding (harea : area.isStaging = true) :
    WorkFrame σ a area name (Holding a before results area name ino) :=
  ⟨stable_holding, fun _ h => h.inside.storeLock, fun _ _ hstep h =>
    ⟨h.inside.workStep harea hstep, h.owns.workStep hstep, h.sole.workStep hstep⟩⟩

theorem Holding.held (h : Holding a before results area name ino w) : w.HeldBy a name :=
  ⟨ino, h.owns.lease⟩

/-- The staged directory becomes the result. -/
theorem meets_rename {id : StoreResultId} {entries : List (Bytes × Node)} {encoded : Bytes}
    (hclient : σ.clients a = .transaction) (hsame : results = before.node .results)
    (hclaimed : before.HeldBy a name) (hfree : results id.hex = none)
    (hbefore : before.node .staging name = some (.dir entries))
    (hcommittable : Committable entries)
    (hencoded : σ.codec.toToml (completeMetadata id) = .ok encoded) :
    σ.Meets a (fun w => Holding a before results .staging name ino w ∧
        w.node .staging name = some (withMetadata entries encoded))
      (perform (.rename name id.hex)) (Ends
        (fun _ w => (Holding a before (Function.update results id.hex
            (some (withMetadata entries encoded))) .staging name ino w ∧
          w.node .staging name = none) ∧ (id.hex, withMetadata entries encoded) ∈ w.published)
        (Failed a (Holding a before results .staging name ino))) := by
  have hstaged := stable_staged isStaging_staging
    (@stable_holding σ a before results .staging name ino) (fun w h => h.held)
    fun node => node = some (withMetadata entries encoded)
  have hdone : ∀ results', σ.Stable a fun w => (Holding a before results' .staging name ino w ∧
      w.node .staging name = none) ∧ (id.hex, withMetadata entries encoded) ∈ w.published :=
    fun results' => stable_undisturbed (stable_staged isStaging_staging stable_holding
      (fun w h => h.held) fun node => node = none) (fun w h => h.1.inside.storeLock)
      fun v w _ hstill h => by
        rw [hstill.published]
        exact h
  refine meets_mayFail (fun code => .error (.other code)) _
    (fun w choice reply => mayFail_eq_some) hstaged
    (stable_ends (fun _ => hdone _) (stable_failed stable_holding)) (fun w _ hw => ?_)
    (fun _ w h => ⟨h.1.1, h.2⟩) fun w reply _ hw hact => ?_
  · obtain ⟨⟨hinside, howns, _⟩, hnode⟩ := hw
    refine ⟨hinside.storeLock, hclient, ⟨ino, howns.lease⟩, (hinside.results _).trans hfree, id,
      entries, encoded, rfl, hcommittable, hencoded, ?_, hnode, fun hex => ?_, ?_⟩
    · rw [hinside.entered]
      exact hbefore
    · rw [hinside.results, hsame, hinside.entered]
    · rw [hinside.entered]
      exact hclaimed
  · obtain ⟨⟨hinside, howns, hsole⟩, hnode⟩ := hw
    rw [hnode] at hact
    dsimp only at hact
    rw [(hinside.results id.hex).trans hfree] at hact
    cases hact
    have herase := hinside.workStep isStaging_staging (workStep_eraseNode .staging name w)
    have hset := workStep_setNode .results id.hex (w.eraseNode .staging name)
      (withMetadata entries encoded)
    have hsame : Function.update results id.hex (results id.hex) = results :=
      Function.update_eq_self ..
    rw [← hsame] at herase
    have hinside' := herase.resultStep hset
    have hnew : ((w.eraseNode .staging name).setNode .results id.hex
        (withMetadata entries encoded)).node .results id.hex =
          some (withMetadata entries encoded) := by
      rw [World.node_setNode, if_pos ⟨rfl, rfl⟩]
    rw [hnew] at hinside'
    have hother : ¬ (Area.staging = Area.results ∧ name = id.hex) := fun h => by cases h.1
    have hgone : ((w.eraseNode .staging name).setNode .results id.hex
        (withMetadata entries encoded)).node .staging name = none := by
      rw [World.node_setNode, if_neg hother, World.node_eraseNode, if_pos ⟨rfl, rfl⟩]
    have hsole' := hsole.workStep (workStep_eraseNode .staging name w)
    refine ⟨.ok (), _, rfl, ⟨⟨?_, ⟨howns.drew, howns.lease⟩, ?_⟩, hgone⟩, List.mem_cons_self⟩
    · exact ⟨hinside'.storeLock, hinside'.entered, hinside'.results, hinside'.sources⟩
    · refine hsole'.imp_right fun hsole' hpaired other hstaged => hsole' hpaired other ?_
      have hnode' := hset.node other name fun heq => by
        rw [(Prod.mk.inj heq).1] at hstaged
        cases hstaged.1
      rw [Shared.StagedIn, ← hnode']
      exact hstaged

end Holding

/-! ## In the hands of a caller -/

theorem Handed.setNode {area : Area} {id : Bytes} {ino : Nat} (h : Handed a area id ino w)
    (node : Node) : Handed a area id ino (w.setNode area id node) := by
  refine ⟨⟨h.owns.drew, h.owns.lease⟩, .inr ?_⟩
  rw [World.node_setNode, if_pos ⟨rfl, rfl⟩]
  rfl

/-- A builder writes below its staged directory. -/
theorem meets_build (id : Bytes) (ino : Nat) :
    σ.Meets a (Handed a .staging id ino) (perform (.build id)) fun _ => Handed a .staging id ino := by
  have hstable := @stable_handed σ a .staging isStaging_staging id ino
  refine Discipline.triple_perform hstable (fun _ => hstable)
    (fun w _ _ hw => ⟨ino, hw.owns.lease⟩) (fun w choice w' _ hw hrespond => ?_)
    fun w choice command w' _ _ hw hrespond => ?_
  · cases choice with
    | fill entries =>
        have hreply : respond σ.config a (.build id) (.fill entries) w = some (.more w') := hrespond
        unfold respond at hreply
        dsimp only at hreply
        split at hreply
        · cases hreply
          exact hw.setNode _
        · cases hreply
    | proceed | fault | stamp | delete | command => cases hrespond
  · cases choice with
    | fill entries =>
        have hreply : respond σ.config a (.build id) (.fill entries) w = some (.done command w') :=
          hrespond
        unfold respond at hreply
        dsimp only at hreply
        split at hreply <;> cases hreply
    | command command' =>
        cases hrespond
        exact hw
    | proceed | fault | stamp | delete => cases hrespond

/-- A caller writes below its source stage. -/
theorem meets_hold (id : Bytes) (ino : Nat) :
    σ.Meets a (Handed a .sourceStaging id ino) (perform (.hold id))
      fun _ => Handed a .sourceStaging id ino := by
  have hstable := @stable_handed σ a .sourceStaging isStaging_sourceStaging id ino
  refine Discipline.triple_perform hstable (fun _ => hstable)
    (fun w _ _ hw => ⟨ino, hw.owns.lease⟩) (fun w choice w' _ hw hrespond => ?_)
    fun w choice answer w' _ _ hw hrespond => ?_
  · cases choice with
    | fill entries =>
        have hreply : respond σ.config a (.hold id) (.fill entries) w = some (.more w') := hrespond
        unfold respond at hreply
        dsimp only at hreply
        split at hreply
        · cases hreply
          exact hw.setNode _
        · cases hreply
    | proceed | fault | stamp | delete | command => cases hrespond
  · cases choice with
    | fill entries =>
        have hreply : respond σ.config a (.hold id) (.fill entries) w = some (.done answer w') :=
          hrespond
        unfold respond at hreply
        dsimp only at hreply
        split at hreply <;> cases hreply
    | proceed =>
        cases hrespond
        exact hw
    | fault | stamp | delete | command => cases hrespond

end CallRules

end Prep.Store
