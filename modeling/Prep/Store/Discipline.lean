/-
  Store/Discipline.lean --- what the agents of a store leave alone of each other's.

  The agent that has the store lock sees nothing of the others but what builders write
  below their own directories, and leases that are let go after a failure.  Outside the
  lock an agent keeps its lease and what is staged under it.
-/
import Prep.Store.Effects

set_option autoImplicit false

namespace Prep.Store

open Prep.Machine
open Prep.Text
open Prep.Fs (Node Path)
open Prep.Io (IoError)

/-! ## What the others leave alone -/

/-- What the agent that has the store lock finds as it was: only the contents of staged
directories change, and a lease is let go after a failure. -/
structure Undisturbed (a : Agent) (v w : World) : Prop where
  storeLock : w.storeLock = some a
  entered : w.entered = v.entered
  results : v.SameIn .results w.toShared
  sources : v.SameIn .sources w.toShared
  staged : ∀ area id, w.StagedIn area id ↔ v.StagedIn area id
  leases : ∀ file, w.lease file = v.lease file ∨
    ∃ ino b, b ≠ a ∧ v.lease file = some ⟨ino, some b⟩ ∧ w.lease file = some ⟨ino, none⟩ ∧
      w.faulted b = true
  published : w.published = v.published
  remains : w.remains = v.remains

/-- What the others leave of an agent's own. -/
structure Rely (a : Agent) (v w : World) : Prop where
  drawn : ∀ id, v.Drew a id → w.Drew a id
  faulted : ∀ b, v.faulted b = true → w.faulted b = true
  dead : ∀ process, v.dead process = true → w.dead process = true
  lease : ∀ file ino, w.lease file = some ⟨ino, some a⟩ ↔ v.lease file = some ⟨ino, some a⟩
  node : ∀ area id, area.isStaging = true → v.HeldBy a id → w.node area id = v.node area id
  absent : ∀ area id, area.isStaging = true → v.Drew a id → v.node area id = none →
    w.node area id = none
  inside : v.storeLock = some a → Undisturbed a v w

/-- What holds of every world. -/
structure Inv (codec : MetadataCodec) (config : Config) (w : World) : Prop where
  drawnOnce : ∀ a b id, w.Drew a id → w.Drew b id → w.dead (config.process a) = false →
    w.dead (config.process b) = false → a = b
  drawnValid : ∀ a id, w.Drew a id → validTransactionId id = true
  leaseValid : ∀ file, (w.lease file).isSome = true →
    ∃ id, file = leaseFile id ∧ validTransactionId id = true
  stagedValid : ∀ area id node, area.isStaging = true → w.node area id = some node →
    validTransactionId id = true ∧ node.isDir = true
  visits : ∀ visit ∈ w.visits, Visit.Kept codec config w.faulted visit

section Rely

variable {codec : MetadataCodec} {config : Config} {clients : Agent → Client} {a b : Agent}
  {u v w w' : World}

theorem undisturbed_refl (h : w.storeLock = some a) : Undisturbed a w w where
  storeLock := h
  entered := rfl
  results _ := rfl
  sources _ := rfl
  staged _ _ := Iff.rfl
  leases _ := .inl rfl
  published := rfl
  remains := rfl

theorem rely_refl (a : Agent) (w : World) : Rely a w w where
  drawn _ h := h
  faulted _ h := h
  dead _ h := h
  lease _ _ := Iff.rfl
  node _ _ _ _ := rfl
  absent _ _ _ _ h := h
  inside h := undisturbed_refl h

theorem Rely.held (h : Rely a v w) {id : Bytes} (hheld : v.HeldBy a id) : w.HeldBy a id := by
  obtain ⟨ino, hlease⟩ := hheld
  exact ⟨ino, (h.lease _ _).mpr hlease⟩

theorem Undisturbed.trans (h : Undisturbed a u v) (h' : Undisturbed a v w)
    (hfaulted : ∀ b, v.faulted b = true → w.faulted b = true) : Undisturbed a u w where
  storeLock := h'.storeLock
  entered := h'.entered.trans h.entered
  results name := (h'.results name).trans (h.results name)
  sources name := (h'.sources name).trans (h.sources name)
  staged area id := (h'.staged area id).trans (h.staged area id)
  leases file := by
    rcases h.leases file with heq | ⟨ino, b, hne, hheld, hfree, hfault⟩
    · rw [← heq]
      exact h'.leases file
    · refine .inr ⟨ino, b, hne, hheld, ?_, hfaulted b hfault⟩
      rcases h'.leases file with heq | ⟨_, _, _, hheld', _⟩
      · rw [heq, hfree]
      · rw [hfree] at hheld'
        cases hheld'
  published := h'.published.trans h.published
  remains := h'.remains.trans h.remains

theorem rely_trans (a : Agent) (u v w : World) (h : Rely a u v) (h' : Rely a v w) :
    Rely a u w where
  drawn id hdrew := h'.drawn id (h.drawn id hdrew)
  faulted b hfault := h'.faulted b (h.faulted b hfault)
  dead process hdead := h'.dead process (h.dead process hdead)
  lease file ino := (h'.lease file ino).trans (h.lease file ino)
  node area id harea hheld :=
    (h'.node area id harea (h.held hheld)).trans (h.node area id harea hheld)
  absent area id harea hdrew hnone :=
    h'.absent area id harea (h.drawn id hdrew) (h.absent area id harea hdrew hnone)
  inside hlock :=
    (h.inside hlock).trans (h'.inside (h.inside hlock).storeLock) h'.faulted

/-- A lease has one holder. -/
theorem held_inj {s : Shared} {id : Bytes} (h : s.HeldBy a id) (h' : s.HeldBy b id) : a = b := by
  obtain ⟨ino, hlease⟩ := h
  obtain ⟨ino', hlease'⟩ := h'
  cases hlease.symm.trans hlease'
  rfl

/-- Nobody else gets the lock of an agent that is alive. -/
theorem not_free (halive : w.dead (config.process a) = false) :
    config.free w (some a) = false := halive

theorem isStaging_ne_results {area : Area} (h : area.isStaging = true) : area ≠ .results := by
  rintro rfl
  cases h

theorem isStaging_ne_sources {area : Area} (h : area.isStaging = true) : area ≠ .sources := by
  rintro rfl
  cases h

/-- A change that touches neither the areas nor the leases. -/
theorem rely_of_same (harea : w'.area = w.area) (hleases : w'.leases = w.leases)
    (hdead : w'.dead = w.dead) (hdrawn : ∀ id, w.Drew a id → w'.Drew a id)
    (hfaulted : ∀ b, w.faulted b = true → w'.faulted b = true)
    (hinside : w.storeLock = some a → w'.storeLock = some a ∧ w'.entered = w.entered ∧
      w'.published = w.published ∧ w'.remains = w.remains) :
    Rely a w w' := by
  have hnode : ∀ area name, w'.node area name = w.node area name := fun area name => by
    rw [Shared.node, Shared.node, harea]
  have hlease : ∀ file, w'.lease file = w.lease file := fun file => by
    rw [Shared.lease, Shared.lease, hleases]
  refine ⟨hdrawn, hfaulted, fun process h => by rw [hdead]; exact h, fun file ino => ?_,
    fun area id _ _ => hnode area id, fun area id _ _ h => (hnode area id).trans h, fun hlock => ?_⟩
  · rw [hlease]
  · obtain ⟨hlock', hentered, hpublished, hremains⟩ := hinside hlock
    refine ⟨hlock', hentered, hnode .results, hnode .sources, fun area id => ?_, fun file => ?_,
      hpublished, hremains⟩
    · rw [Shared.StagedIn, Shared.StagedIn, hnode]
    · exact .inl (hlease file)

/-- A change of a lease that the agent does not hold. -/
theorem rely_of_lease {file : Bytes} {lease : Option LeaseFile} (harea : w'.area = w.area)
    (hlease : ∀ other, w'.lease other = if other = file then lease else w.lease other)
    (hdead : w'.dead = w.dead) (hdrawn : w'.drawn = w.drawn) (hfaulted : w'.faulted = w.faulted)
    (hlock : w'.storeLock = w.storeLock) (hentered : w'.entered = w.entered)
    (hother : ∀ ino, w.lease file ≠ some ⟨ino, some a⟩)
    (hother' : ∀ ino, lease ≠ some ⟨ino, some a⟩)
    (hhistory : w'.published = w.published ∧ w'.remains = w.remains)
    (hinside : w.storeLock = some a → ∃ ino b, b ≠ a ∧ w.lease file = some ⟨ino, some b⟩ ∧
      lease = some ⟨ino, none⟩ ∧ w.faulted b = true) :
    Rely a w w' := by
  have hnode : ∀ area name, w'.node area name = w.node area name := fun area name => by
    rw [Shared.node, Shared.node, harea]
  refine ⟨fun id h => ?_, fun b h => ?_, fun process h => ?_, fun other ino => ?_,
    fun area id _ _ => hnode area id, fun area id _ _ h => (hnode area id).trans h, fun hmine => ?_⟩
  · rw [World.Drew, hdrawn]
    exact h
  · rw [hfaulted]
    exact h
  · rw [hdead]
    exact h
  · rw [hlease]
    split
    · rename_i heq
      rw [heq]
      exact iff_of_false (hother' ino) (hother ino)
    · exact Iff.rfl
  · obtain ⟨ino, b, hne, hheld, rfl, hfault⟩ := hinside hmine
    refine ⟨hlock.trans hmine, hentered, hnode .results, hnode .sources, fun area id => ?_,
      fun other => ?_, hhistory.1, hhistory.2⟩
    · rw [Shared.StagedIn, Shared.StagedIn, hnode]
    · rw [hlease]
      split
      · rename_i heq
        refine .inr ⟨ino, b, hne, heq ▸ hheld, rfl, ?_⟩
        rw [hfaulted]
        exact hfault
      · exact .inl rfl

/-- A change of an entry of an area: of a staged directory whose lease the agent does not
hold, or of a result. -/
theorem rely_of_node {area : Area} {id : Bytes} {node : Option Node}
    (hnode : ∀ other name, w'.node other name =
      if other = area ∧ name = id then node else w.node other name)
    (hleases : w'.leases = w.leases) (hdead : w'.dead = w.dead) (hdrawn : w'.drawn = w.drawn)
    (hfaulted : ∀ b, w.faulted b = true → w'.faulted b = true)
    (hlock : w'.storeLock = w.storeLock) (hentered : w'.entered = w.entered)
    (hheld : area.isStaging = true → ¬ w.HeldBy a id)
    (hnew : area.isStaging = true → w.Drew a id → w.node area id = none → node = none)
    (hinside : w.storeLock = some a → area.isStaging = true ∧
      (node.isSome = true ↔ (w.node area id).isSome = true) ∧
        w'.published = w.published ∧ w'.remains = w.remains) :
    Rely a w w' := by
  have hlease : ∀ file, w'.lease file = w.lease file := fun file => by
    rw [Shared.lease, Shared.lease, hleases]
  refine ⟨fun id h => ?_, hfaulted, fun process h => ?_, fun file ino => ?_,
    fun other name harea h => ?_, fun other name harea hdrew h => ?_, fun hmine => ?_⟩
  · rw [World.Drew, hdrawn]
    exact h
  · rw [hdead]
    exact h
  · rw [hlease]
  · rw [hnode, if_neg]
    rintro ⟨rfl, rfl⟩
    exact hheld harea h
  · rw [hnode]
    split
    · rename_i heq
      obtain ⟨rfl, rfl⟩ := heq
      exact hnew harea hdrew h
    · exact h
  · obtain ⟨harea, hsome, hpublished, hremains⟩ := hinside hmine
    refine ⟨hlock.trans hmine, hentered, fun name => ?_, fun name => ?_, fun other name => ?_,
      fun file => .inl (hlease file), hpublished, hremains⟩
    · rw [hnode, if_neg fun h => isStaging_ne_results harea h.1.symm]
    · rw [hnode, if_neg fun h => isStaging_ne_sources harea h.1.symm]
    · rw [Shared.StagedIn, Shared.StagedIn, hnode]
      split
      · rename_i heq
        obtain ⟨rfl, rfl⟩ := heq
        rw [hsome]
      · exact Iff.rfl

/-- What one agent does, another may rely on. -/
theorem rely_effect (hne : a ≠ b) (hinv : Inv codec config w)
    (ha : w.dead (config.process a) = false) (hb : w.dead (config.process b) = false)
    (h : Effect codec config clients b w w') : Rely a w w' := by
  have hlocked : w.storeLock = some b → ¬ w.storeLock = some a := by
    intro hlock hmine
    cases hlock.symm.trans hmine
    exact hne rfl
  have hunheld : ∀ id, w.HeldBy b id → ¬ w.HeldBy a id :=
    fun id hheld hmine => hne (held_inj hmine hheld)
  cases h with
  | same => exact rely_refl a w
  | fault =>
      refine rely_of_same rfl rfl rfl (fun _ => id) (fun c hc => ?_)
        fun hlock => ⟨hlock, rfl, rfl, rfl⟩
      show Function.update w.faulted b true c = true
      rw [Function.update_apply, hc, ite_self]
  | cutShort hex node hlock hnode =>
      refine rely_of_same rfl rfl rfl (fun _ => id) (fun c hc => ?_)
        fun hmine => absurd hmine (hlocked hlock)
      show Function.update w.faulted b true c = true
      rw [Function.update_apply, hc, ite_self]
  | lock hfree =>
      refine rely_of_same rfl rfl rfl (fun _ => id) (fun _ => id) fun hmine => ?_
      rw [hmine, not_free ha] at hfree
      cases hfree
  | unlock outcome hlock haccounted hkept =>
      exact rely_of_same rfl rfl rfl (fun _ => id) (fun _ => id)
        fun hmine => absurd hmine (hlocked hlock)
  | draw stamp hnew =>
      exact rely_of_same rfl rfl rfl (fun _ => List.mem_cons_of_mem _) (fun _ => id)
        fun hlock => ⟨hlock, rfl, rfl, rfl⟩
  | createLease id hlock hdrew hfree =>
      refine @rely_of_lease a w _ (leaseFile id) _ rfl (fun other => World.lease_setLease ..) rfl
        rfl rfl rfl rfl (fun ino hlease => ?_) (fun ino heq => ?_) ⟨rfl, rfl⟩
        fun hmine => absurd hmine (hlocked hlock)
      · cases hfree.symm.trans hlease
      · cases heq
  | lockLease file ino holder hlock hlease hfree =>
      refine @rely_of_lease a w _ file _ rfl (fun other => World.lease_setLease ..) rfl
        rfl rfl rfl rfl (fun ino' hmine => ?_) (fun ino' heq => ?_) ⟨rfl, rfl⟩
        fun hmine => absurd hmine (hlocked hlock)
      · cases hlease.symm.trans hmine
        rw [not_free ha] at hfree
        cases hfree
      · cases heq
        exact hne rfl
  | release file ino hallowed hlease =>
      refine @rely_of_lease a w _ file _ rfl (fun other => World.lease_setLease ..) rfl
        rfl rfl rfl rfl (fun ino' hmine => ?_) (fun ino' heq => ?_) ⟨rfl, rfl⟩ fun hmine => ?_
      · cases hlease.symm.trans hmine
        exact hne rfl
      · cases heq
      · rcases hallowed with hlock | hfault
        · exact absurd hmine (hlocked hlock)
        · exact ⟨ino, b, hne.symm, hlease, rfl, hfault⟩
  | removeLease file ino hlock hlease hcleared =>
      refine @rely_of_lease a w _ file _ rfl (fun other => World.lease_eraseLease ..) rfl
        rfl rfl rfl rfl (fun ino' hmine => ?_) (fun ino' heq => ?_) ⟨rfl, rfl⟩
        fun hmine => absurd hmine (hlocked hlock)
      · cases hlease.symm.trans hmine
        exact hne rfl
      · cases heq
  | stage area id hlock harea hheld hdrew honce hfree =>
      refine @rely_of_node a w _ area id _ (fun other name => World.node_setNode ..) rfl rfl rfl
        (fun _ h => h) rfl rfl (fun _ => hunheld id hheld) (fun _ hmine _ => ?_)
        fun hmine => absurd hmine (hlocked hlock)
      exact absurd (hinv.drawnOnce a b id hmine hdrew ha hb) hne
  | work area id node node' failed harea hheld hnode hdir =>
      have hsome : (w.node area id).isSome = true := by rw [hnode]; rfl
      refine @rely_of_node a w _ area id (some node') (fun other name => ?_) ?_ ?_ ?_
        (fun c hc => ?_) ?_ ?_ (fun _ => hunheld id hheld) (fun _ _ hnone => ?_) fun _ => ?_
      · cases failed <;> exact World.node_setNode ..
      · cases failed <;> rfl
      · cases failed <;> rfl
      · cases failed <;> rfl
      · cases failed
        · exact hc
        · show Function.update w.faulted b true c = true
          rw [Function.update_apply, hc, ite_self]
      · cases failed <;> rfl
      · cases failed <;> rfl
      · cases hnone.symm.trans hnode
      · cases failed <;> exact ⟨harea, iff_of_true rfl hsome, rfl, rfl⟩
  | unstage area id hlock harea hheld =>
      exact @rely_of_node a w _ area id _ (fun other name => World.node_eraseNode ..) rfl rfl rfl
        (fun _ h => h) rfl rfl (fun _ => hunheld id hheld) (fun _ _ _ => rfl)
        fun hmine => absurd hmine (hlocked hlock)
  | publish name id entries encoded hlock hclient hheld hfree hcommittable hencoded hentered
      hnode =>
      have herase : Rely a w (w.eraseNode .staging name) :=
        @rely_of_node a w _ .staging name _ (fun other name => World.node_eraseNode ..) rfl rfl rfl
          (fun _ h => h) rfl rfl (fun _ => hunheld name hheld) (fun _ _ _ => rfl)
          fun hmine => absurd hmine (hlocked hlock)
      refine rely_trans a w _ _ herase ?_
      exact @rely_of_node a (w.eraseNode .staging name) _ .results id.hex _
        (fun other name => World.node_setNode ..) rfl rfl rfl (fun _ h => h) rfl rfl
        (fun harea => (by cases harea)) (fun harea => (by cases harea))
        fun hmine => absurd hmine (hlocked hlock)
  | rollBack hex node hlock hclient hfault hentered hnode =>
      refine @rely_of_node a w _ .results hex node (fun other name => ?_) ?_ ?_ ?_ (fun c hc => ?_)
        ?_ ?_ (fun harea => (by cases harea)) (fun harea => (by cases harea))
        fun hmine => absurd hmine (hlocked hlock)
      · cases node
        · exact World.node_eraseNode ..
        · exact World.node_setNode ..
      · cases node <;> rfl
      · cases node <;> rfl
      · cases node <;> rfl
      · cases node <;> exact hc
      · cases node <;> rfl
      · cases node <;> rfl

end Rely

/-! ## What holds of every world -/

section Inv

variable {codec : MetadataCodec} {config : Config} {clients : Agent → Client} {a : Agent}
  {w w' : World}

/-- A change that keeps what is drawn, the names of the leases and what is staged. -/
theorem Inv.of_changes (h : Inv codec config w) (hdrawn : w'.drawn = w.drawn)
    (hdead : ∀ process, w.dead process = true → w'.dead process = true)
    (hlease : ∀ file, (w'.lease file).isSome = true → (w.lease file).isSome = true ∨
      ∃ id, file = leaseFile id ∧ validTransactionId id = true)
    (hstaged : ∀ area id node, area.isStaging = true → w'.node area id = some node →
      w.node area id = some node ∨ validTransactionId id = true ∧ node.isDir = true)
    (hfaulted : ∀ b, w.faulted b = true → w'.faulted b = true)
    (hvisits : ∀ visit ∈ w'.visits, visit ∈ w.visits ∨ visit.Kept codec config w.faulted) :
    Inv codec config w' where
  drawnOnce b c id hb hc hbalive hcalive := by
    rw [World.Drew, hdrawn] at hb hc
    refine h.drawnOnce b c id hb hc ?_ ?_
    · exact Bool.eq_false_iff.mpr fun hb => Bool.eq_false_iff.mp hbalive (hdead _ hb)
    · exact Bool.eq_false_iff.mpr fun hc => Bool.eq_false_iff.mp hcalive (hdead _ hc)
  drawnValid b id hb := by
    rw [World.Drew, hdrawn] at hb
    exact h.drawnValid b id hb
  leaseValid file hfile := (hlease file hfile).elim (h.leaseValid file) fun h => h
  stagedValid area id node harea hnode :=
    (hstaged area id node harea hnode).elim (h.stagedValid area id node harea) fun h => h
  visits visit hvisit :=
    (hvisits visit hvisit).elim (fun hold => (h.visits visit hold).mono hfaulted)
      fun hnew => hnew.mono hfaulted

/-- A change of an entry of an area. -/
theorem Inv.of_node (h : Inv codec config w) {area : Area} {id : Bytes} {node : Option Node}
    (hnode : ∀ other name, w'.node other name =
      if other = area ∧ name = id then node else w.node other name)
    (hleases : w'.leases = w.leases) (hdead : w'.dead = w.dead) (hdrawn : w'.drawn = w.drawn)
    (hfaulted : ∀ b, w.faulted b = true → w'.faulted b = true) (hvisits : w'.visits = w.visits)
    (hvalid : area.isStaging = true → ∀ next, node = some next →
      validTransactionId id = true ∧ next.isDir = true) : Inv codec config w' := by
  refine h.of_changes hdrawn (fun process hp => by rw [hdead]; exact hp) (fun file hfile => .inl ?_)
    (fun other name next hother hnext => ?_) hfaulted fun visit hvisit => .inl (hvisits ▸ hvisit)
  · rw [Shared.lease, hleases] at hfile
    exact hfile
  · rw [hnode] at hnext
    split at hnext
    · rename_i heq
      obtain ⟨rfl, rfl⟩ := heq
      exact .inr (hvalid hother next hnext)
    · exact .inl hnext

/-- A change of a lease. -/
theorem Inv.of_lease (h : Inv codec config w) {file : Bytes} {lease : Option LeaseFile}
    (harea : w'.area = w.area)
    (hlease : ∀ other, w'.lease other = if other = file then lease else w.lease other)
    (hdead : w'.dead = w.dead) (hdrawn : w'.drawn = w.drawn) (hfaulted : w'.faulted = w.faulted)
    (hvisits : w'.visits = w.visits)
    (hvalid : lease.isSome = true → (w.lease file).isSome = true ∨
      ∃ id, file = leaseFile id ∧ validTransactionId id = true) : Inv codec config w' := by
  refine h.of_changes hdrawn (fun process hp => by rw [hdead]; exact hp) (fun other hother => ?_)
    (fun area name next _ hnext => .inl ?_) (fun b hb => by rw [hfaulted]; exact hb)
    fun visit hvisit => .inl (hvisits ▸ hvisit)
  · rw [hlease] at hother
    split at hother
    · rename_i heq
      exact heq ▸ hvalid hother
    · exact .inl hother
  · rw [Shared.node, harea] at hnext
    exact hnext

theorem inv_effect (hinv : Inv codec config w) (h : Effect codec config clients a w w') :
    Inv codec config w' := by
  have hfault : ∀ w : World, ∀ b, w.faulted b = true → (w.fault a).faulted b = true := by
    intro w b hb
    show Function.update w.faulted a true b = true
    rw [Function.update_apply, hb, ite_self]
  cases h with
  | same => exact hinv
  | fault =>
      exact hinv.of_changes rfl (fun _ h => h) (fun _ h => .inl h) (fun _ _ _ _ h => .inl h)
        (hfault w) fun _ h => .inl h
  | lock hfree =>
      exact hinv.of_changes rfl (fun _ h => h) (fun _ h => .inl h) (fun _ _ _ _ h => .inl h)
        (fun _ h => h) fun _ h => .inl h
  | cutShort hex node hlock hnode =>
      exact hinv.of_changes rfl (fun _ h => h) (fun _ h => .inl h) (fun _ _ _ _ h => .inl h)
        (hfault _) fun _ h => .inl h
  | unlock outcome hlock haccounted hkept =>
      refine hinv.of_changes rfl (fun _ h => h) (fun _ h => .inl h) (fun _ _ _ _ h => .inl h)
        (fun _ h => h) fun visit hvisit => ?_
      rcases List.mem_append.mp hvisit with hold | hnew
      · exact .inl hold
      · rw [List.mem_singleton.mp hnew]
        exact .inr hkept
  | draw stamp hnew =>
      refine ⟨fun b c id hb hc hbalive hcalive => ?_, fun b id hb => ?_, hinv.leaseValid,
        hinv.stagedValid, hinv.visits⟩
      · rcases List.mem_cons.mp hb with hb | hb <;> rcases List.mem_cons.mp hc with hc | hc
        · rw [(Prod.mk.inj hb).1, (Prod.mk.inj hc).1]
        · have hdead := hnew c id hc (Prod.mk.inj hb).2
          exact absurd hdead (Bool.eq_false_iff.mp hcalive)
        · have hdead := hnew b id hb (Prod.mk.inj hc).2
          exact absurd hdead (Bool.eq_false_iff.mp hbalive)
        · exact hinv.drawnOnce b c id hb hc hbalive hcalive
      · rcases List.mem_cons.mp hb with hb | hb
        · rw [(Prod.mk.inj hb).2]
          exact validTransactionId_transactionId stamp
        · exact hinv.drawnValid b id hb
  | createLease id hlock hdrew hfree =>
      exact @Inv.of_lease _ _ w _ hinv (leaseFile id) _ rfl (fun other => World.lease_setLease ..)
        rfl rfl rfl rfl fun _ => .inr ⟨id, rfl, hinv.drawnValid a id hdrew⟩
  | lockLease file ino holder hlock hlease hfree =>
      exact @Inv.of_lease _ _ w _ hinv file _ rfl (fun other => World.lease_setLease ..)
        rfl rfl rfl rfl fun _ => .inl (by rw [hlease]; rfl)
  | release file ino hallowed hlease =>
      exact @Inv.of_lease _ _ w _ hinv file _ rfl (fun other => World.lease_setLease ..)
        rfl rfl rfl rfl fun _ => .inl (by rw [hlease]; rfl)
  | removeLease file ino hlock hlease hcleared =>
      exact @Inv.of_lease _ _ w _ hinv file _ rfl (fun other => World.lease_eraseLease ..)
        rfl rfl rfl rfl fun hsome => (by cases hsome)
  | stage area id hlock harea hheld hdrew honce hfree =>
      refine @Inv.of_node _ _ w _ hinv area id _ (fun other name => World.node_setNode ..) rfl rfl
        rfl (fun _ h => h) rfl fun _ next hnext => ?_
      cases hnext
      exact ⟨hinv.drawnValid a id hdrew, rfl⟩
  | work area id node node' failed harea hheld hnode hdir =>
      obtain ⟨hid, hisDir⟩ := hinv.stagedValid area id node harea hnode
      refine @Inv.of_node _ _ w _ hinv area id (some node') (fun other name => ?_) ?_ ?_ ?_
        (fun b hb => ?_) ?_ fun _ next hnext => ?_
      · cases failed <;> exact World.node_setNode ..
      · cases failed <;> rfl
      · cases failed <;> rfl
      · cases failed <;> rfl
      · cases failed
        · exact hb
        · exact hfault _ b hb
      · cases failed <;> rfl
      · cases hnext
        exact ⟨hid, hdir.elim (fun heq => heq.trans hisDir) fun h => h⟩
  | unstage area id hlock harea hheld =>
      exact @Inv.of_node _ _ w _ hinv area id _ (fun other name => World.node_eraseNode ..) rfl rfl
        rfl (fun _ h => h) rfl fun _ next hnext => (by cases hnext)
  | publish name id entries encoded hlock hclient hheld hfree hcommittable hencoded hentered
      hnode =>
      have herase : Inv codec config (w.eraseNode .staging name) :=
        @Inv.of_node _ _ w _ hinv .staging name _ (fun other name => World.node_eraseNode ..) rfl
          rfl rfl (fun _ h => h) rfl fun _ next hnext => (by cases hnext)
      exact @Inv.of_node _ _ (w.eraseNode .staging name) _ herase .results id.hex _
        (fun other name => World.node_setNode ..) rfl rfl rfl (fun _ h => h) rfl
        fun harea => (by cases harea)
  | rollBack hex node hlock hclient hfailed hentered hnode =>
      refine @Inv.of_node _ _ w _ hinv .results hex node (fun other name => ?_) ?_ ?_ ?_
        (fun b hb => ?_) ?_ fun harea => (by cases harea)
      · cases node
        · exact World.node_eraseNode ..
        · exact World.node_setNode ..
      · cases node <;> rfl
      · cases node <;> rfl
      · cases node <;> rfl
      · cases node <;> exact hb
      · cases node <;> rfl

theorem effect_dead (h : Effect codec config clients a w w') : w'.dead = w.dead := by
  cases h with
  | work _ _ _ _ failed => cases failed <;> rfl
  | rollBack _ node => cases node <;> rfl
  | _ => rfl

end Inv

/-! ## The discipline -/

section Discipline

variable {config : Config} {a : Agent} {w : World}

/-- What a call leaves: no process comes back, where no fault is chosen no call fails, only the
call that removes a lease removes it, and only a rename publishes and only letting go of the
store lock ends a stay. -/
structure Settled (c : Call) (choice : Choice) (w w' : World) : Prop where
  dead : w'.dead = w.dead
  faulted : choice.isFault = false → w'.faulted = w.faulted
  remains : choice.isFault = false → w'.remains = w.remains
  leases : ∀ file, c ≠ .removeLease file → (w.lease file).isSome = true →
    (w'.lease file).isSome = true
  published : (∀ name hex, c ≠ .rename name hex) → w'.published = w.published
  visits : (∀ outcome, c ≠ .unlockStore outcome) → w'.visits = w.visits

/-- A change of the areas, of the lock, or of who has drawn and failed. -/
theorem settled_of_same {c : Call} {choice : Choice} {w' : World} (hdead : w'.dead = w.dead)
    (hfaulted : choice.isFault = false → w'.faulted = w.faulted)
    (hremains : choice.isFault = false → w'.remains = w.remains) (hleases : w'.leases = w.leases)
    (hpublished : w'.published = w.published) (hvisits : w'.visits = w.visits) :
    Settled c choice w w' :=
  ⟨hdead, hfaulted, hremains, fun file _ h => by rw [Shared.lease, hleases]; exact h,
    fun _ => hpublished, fun _ => hvisits⟩

theorem settled_refl (c : Call) (choice : Choice) (w : World) : Settled c choice w w :=
  settled_of_same rfl (fun _ => rfl) (fun _ => rfl) rfl rfl rfl

theorem setLease_settled (c : Call) (choice : Choice) (w : World) (file : Bytes)
    (lease : LeaseFile) : Settled c choice w (w.setLease file lease) := by
  refine ⟨rfl, fun _ => rfl, fun _ => rfl, fun other _ h => ?_, fun _ => rfl, fun _ => rfl⟩
  rw [World.lease_setLease]
  split
  · rfl
  · exact h

theorem mayFail_settled {α : Type} {c : Call} {choice : Choice}
    {act : Option (Reply (Except IoError α) World)} {reply : Reply (Except IoError α) World}
    (h : mayFail a w choice act = some reply)
    (hact : ∀ reply, act = some reply → Settled c choice w reply.world) :
    Settled c choice w reply.world := by
  cases choice with
  | proceed => exact hact reply h
  | fault code done =>
      cases h
      exact settled_of_same rfl (fun h => (by cases h)) (fun h => (by cases h)) rfl rfl rfl
  | stamp | delete | fill | command => cases h

theorem release_settled (c : Call) (choice : Choice) (file : Bytes) (ino : Nat) :
    Settled c choice w (w.release a file ino) := by
  unfold World.release
  split
  · exact setLease_settled c choice w file _
  · exact settled_refl c choice w

theorem createAt_settled (c : Call) (choice : Choice) (place : Place) (next : Node) :
    Settled c choice w (createAt w place next).world := by
  unfold createAt
  split
  · exact settled_refl c choice w
  · split
    · exact settled_of_same rfl (fun _ => rfl) (fun _ => rfl) rfl rfl rfl
    · split <;> exact settled_of_same rfl (fun _ => rfl) (fun _ => rfl) rfl rfl rfl

theorem appendAt_settled (c : Call) (choice : Choice) (place : Place) (bytes : Bytes) :
    Settled c choice w (appendAt w place bytes) := by
  unfold appendAt
  split <;> exact settled_of_same rfl (fun _ => rfl) (fun _ => rfl) rfl rfl rfl

theorem removeStep_settled (c : Call) {area : Area} {id : Bytes} {choice : Choice}
    {reply : Reply (Except IoError Unit) World}
    (h : removeStep a w area id choice = some reply) : Settled c choice w reply.world := by
  unfold removeStep at h
  split at h
  · cases h
    unfold World.cutShort
    split <;> exact settled_of_same rfl (fun h => (by cases h)) (fun h => (by cases h)) rfl rfl rfl
  · split at h <;> cases h <;> exact settled_of_same rfl (fun _ => rfl) (fun _ => rfl) rfl rfl rfl
  · split at h
    · split at h <;> cases h
      exact settled_of_same rfl (fun _ => rfl) (fun _ => rfl) rfl rfl rfl
    · cases h
  · cases h

theorem respond_settled {c : Call} {choice : Choice} {reply : Reply (Answer c) World}
    (h : respond config a c choice w = some reply) : Settled c choice w reply.world := by
  cases c with
  | quiet | readLeases | readNames =>
      refine mayFail_settled h fun reply h => ?_
      cases h
      exact settled_refl ..
  | lockStore =>
      refine mayFail_settled h fun reply h => ?_
      split at h <;> cases h
      exact settled_of_same rfl (fun _ => rfl) (fun _ => rfl) rfl rfl rfl
  | createLease file =>
      refine mayFail_settled h fun reply h => ?_
      split at h <;> cases h
      · exact settled_refl ..
      · obtain ⟨hdead, hfaulted, hremains, hleases, hpublished, hvisits⟩ :=
          setLease_settled (.createLease file) choice w file ⟨w.nextIno, none⟩
        exact ⟨hdead, hfaulted, hremains, hleases, hpublished, hvisits⟩
  | removeLease file =>
      refine mayFail_settled h fun reply h => ?_
      split at h <;> cases h
      · refine ⟨rfl, fun _ => rfl, fun _ => rfl, fun other hne h => ?_, fun _ => rfl,
          fun _ => rfl⟩
        refine (congrArg Option.isSome (World.lease_eraseLease ..)).trans ?_
        rw [if_neg fun heq => hne (congrArg Call.removeLease heq.symm)]
        exact h
      · exact settled_refl ..
  | statLease | openLease | read | canonicalize =>
      refine mayFail_settled h fun reply h => ?_
      split at h <;> cases h <;> exact settled_refl ..
  | lockLease | tryLockLease =>
      refine mayFail_settled h fun reply h => ?_
      split at h
      · split at h
        · cases h
          exact settled_refl ..
        · split at h <;> cases h
          all_goals first | exact setLease_settled .. | exact settled_refl ..
      · cases h
        exact settled_refl ..
  | unlockLease file ino =>
      refine mayFail_settled h fun reply h => ?_
      cases h
      exact release_settled _ choice file ino
  | createDir place | createNew place =>
      refine mayFail_settled h fun reply h => ?_
      cases h
      exact createAt_settled _ choice place _
  | rename name hex =>
      refine mayFail_settled h fun reply h => ?_
      split at h
      · cases h
        exact settled_refl ..
      · have hrenamed : ∀ {w' : World}, w'.dead = w.dead → w'.faulted = w.faulted →
            w'.remains = w.remains → w'.leases = w.leases → w'.visits = w.visits →
              Settled (.rename name hex) choice w w' :=
          fun hdead hfaulted hremains hleases hvisits =>
            ⟨hdead, fun _ => hfaulted, fun _ => hremains,
              fun file _ h => by rw [Shared.lease, hleases]; exact h,
              fun hne => absurd rfl (hne name hex), fun _ => hvisits⟩
        split at h <;> cases h <;> exact hrenamed rfl rfl rfl rfl rfl
  | removeDirAll => exact removeStep_settled _ h
  | unlockStore outcome =>
      cases choice <;> cases h
      exact ⟨rfl, fun _ => rfl, fun _ => rfl, fun _ _ h => h, fun _ => rfl,
        fun hne => absurd rfl (hne outcome)⟩
  | closeLease file ino =>
      cases choice <;> cases h
      exact release_settled _ _ file ino
  | transactionId =>
      cases choice with
      | stamp stamp =>
          unfold respond at h
          dsimp only at h
          split at h <;> cases h
          exact settled_of_same rfl (fun _ => rfl) (fun _ => rfl) rfl rfl rfl
      | proceed | fault | delete | fill | command => cases h
  | write place bytes =>
      cases choice with
      | proceed =>
          cases h
          exact appendAt_settled _ _ place bytes
      | fault code done =>
          cases h
          obtain ⟨hdead, _, _, hleases, hpublished, hvisits⟩ :=
            @appendAt_settled w (.write place bytes) (.fault code done) place (bytes.take done)
          exact ⟨hdead, fun h => (by cases h), fun h => (by cases h), hleases, hpublished, hvisits⟩
      | stamp | delete | fill | command => cases h
  | build | hold =>
      cases choice with
      | fill entries =>
          unfold respond at h
          dsimp only at h
          split at h <;> cases h
          exact settled_of_same rfl (fun _ => rfl) (fun _ => rfl) rfl rfl rfl
      | proceed | fault | stamp | delete | command => cases h <;> exact settled_refl ..

theorem alive_respond {b : Agent} {c : Call} {choice : Choice} {reply : Reply (Answer c) World}
    (h : respond config b c choice w = some reply)
    (halive : config.system.alive reply.world a = true) : config.system.alive w a = true := by
  have hdead := (respond_settled h).dead
  simpa only [Config.system, hdead] using halive

theorem alive_iff : config.system.alive w a = true ↔ w.dead (config.process a) = false :=
  iff_of_eq (Bool.not_eq_true' _)

/-- A death changes nothing but who is alive. -/
theorem die_eq_some {process : Process} {w' : World} (h : die process w = some w') :
    w' = { w with dead := Function.update w.dead process true } :=
  (Option.some.inj h).symm

theorem dead_update {process other : Process} (h : w.dead other = true) :
    Function.update w.dead process true other = true := by
  rw [Function.update_apply, h, ite_self]

theorem alive_die {process : Process} {w' : World} (h : die process w = some w')
    (halive : config.system.alive w' a = true) : config.system.alive w a = true := by
  rw [alive_iff, die_eq_some h] at halive
  rw [alive_iff]
  exact Bool.eq_false_iff.mpr fun hdead =>
    Bool.eq_false_iff.mp halive (dead_update hdead)

variable {codec : MetadataCodec} {clients : Agent → Client}

theorem inv_die {process : Process} {w' : World} (hinv : Inv codec config w)
    (h : die process w = some w') : Inv codec config w' := by
  rw [die_eq_some h]
  exact hinv.of_changes rfl (fun _ h => dead_update h) (fun _ h => .inl h)
    (fun _ _ _ _ h => .inl h) (fun _ h => h) fun _ h => .inl h

theorem rely_die {process : Process} {w' : World} (h : die process w = some w') :
    Rely a w w' := by
  rw [die_eq_some h]
  exact {
    drawn := fun _ h => h
    faulted := fun _ h => h
    dead := fun _ h => dead_update h
    lease := fun _ _ => Iff.rfl
    node := fun _ _ _ _ => rfl
    absent := fun _ _ _ _ h => h
    inside := fun hlock => ⟨hlock, rfl, fun _ => rfl, fun _ => rfl, fun _ _ => Iff.rfl,
      fun _ => .inl rfl, rfl, rfl⟩ }

theorem rely_respond {b : Agent} {c : Call} {choice : Choice} {reply : Reply (Answer c) World}
    (hne : a ≠ b) (hinv : Inv codec config w) (ha : config.system.alive w a = true)
    (hb : config.system.alive w b = true) (hguard : Guard codec config clients b c w)
    (h : respond config b c choice w = some reply) : Rely a w reply.world :=
  rely_effect hne hinv (alive_iff.mp ha) (alive_iff.mp hb) (respond_effect hguard h)

variable (codec config clients)

/-- What the agents of a store keep to, and what each may rely on. -/
def discipline : Discipline config.system where
  inv := Inv codec config
  guard := Guard codec config clients
  rely := Rely
  refl := rely_refl
  trans := rely_trans
  alive_act _ _ _ _ _ _ hrespond halive := alive_respond hrespond halive
  alive_event _ _ _ _ hhappen halive := alive_die hhappen halive
  inv_act _ _ _ _ _ hinv _ hguard hrespond := inv_effect hinv (respond_effect hguard hrespond)
  inv_event _ _ _ hinv hhappen := inv_die hinv hhappen
  rely_act _ _ _ _ _ _ hne hinv ha hb hguard hrespond := rely_respond hne hinv ha hb hguard hrespond
  rely_event _ _ _ _ _ hhappen _ := rely_die hhappen

end Discipline

end Prep.Store
