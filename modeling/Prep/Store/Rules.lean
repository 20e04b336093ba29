/-
  Store/Rules.lean --- what one call of an agent of a store ensures.

  An agent that has the store lock works on one identifier at a time.  Its assertions about
  everything else come through its work on a lease, and through its work on what is staged
  under it.
-/
import Prep.Store.Discipline

set_option autoImplicit false

namespace Prep.Store

open Prep.Machine
open Prep.Text
open Prep.Fs (Node Path)
open Prep.Io (IoError)

/-- A store and who uses it. -/
structure Setting where
  codec : MetadataCodec
  config : Config
  clients : Agent → Client

namespace Setting

variable (σ : Setting)

abbrev discipline : Discipline σ.config.system := Store.discipline σ.config σ.codec σ.clients

/-- The others keep the assertion. -/
abbrev Stable (a : Agent) (P : World → Prop) : Prop := σ.discipline.Stable a P

/-- What an agent ensures that starts in `P`. -/
abbrev Meets {α : Type} (a : Agent) (P : World → Prop) (p : Act α) (Q : α → World → Prop) : Prop :=
  σ.discipline.Triple a P p Q

end Setting

/-- The operation has succeeded, or it has ended with an error. -/
def Ends {ε α : Type} (Q : α → World → Prop) (E : World → Prop) : Except ε α → World → Prop
  | .ok x, w => Q x w
  | .error _, w => E w

/-- The assertion holds, and one of the agent's calls has failed. -/
def Failed (a : Agent) (P : World → Prop) (w : World) : Prop := P w ∧ w.faulted a = true

section Rules

variable {σ : Setting} {a : Agent} {ε α β : Type} {P R E E' : World → Prop} {v w : World}

/-! ## Stable assertions -/

theorem stable_faulted (b : Agent) : σ.Stable a fun w => w.faulted b = true :=
  fun _ _ _ hrely h => hrely.faulted b h

theorem stable_drew (id : Bytes) : σ.Stable a fun w => w.Drew a id :=
  fun _ _ _ hrely h => hrely.drawn id h

theorem stable_leased (file : Bytes) (ino : Nat) :
    σ.Stable a fun w => w.lease file = some ⟨ino, some a⟩ :=
  fun _ _ _ hrely h => (hrely.lease file ino).mpr h

theorem stable_unleased (file : Bytes) (ino : Nat) :
    σ.Stable a fun w => w.lease file ≠ some ⟨ino, some a⟩ :=
  fun _ _ _ hrely h hheld => h ((hrely.lease file ino).mp hheld)

/-- Nothing is staged under an identifier that the agent has drawn. -/
theorem stable_unstaged (area : Area) (id : Bytes) (harea : area.isStaging = true) :
    σ.Stable a fun w => w.Drew a id ∧ w.node area id = none :=
  fun _ _ _ hrely h => ⟨hrely.drawn id h.1, hrely.absent area id harea h.1 h.2⟩

theorem stable_failed (hP : σ.Stable a P) : σ.Stable a (Failed a P) :=
  hP.and (stable_faulted a)

theorem stable_ends {Q : α → World → Prop} (hQ : ∀ x, σ.Stable a (Q x)) (hE : σ.Stable a E)
    (result : Except ε α) : σ.Stable a (Ends Q E result) := by
  cases result with
  | ok x => exact hQ x
  | error e => exact hE

/-- What the others leave alone while the agent has the store lock. -/
theorem stable_undisturbed (hP : σ.Stable a P) (hlock : ∀ w, P w → w.storeLock = some a)
    (hR : ∀ v w, Rely a v w → Undisturbed a v w → R v → R w) : σ.Stable a fun w => P w ∧ R w :=
  fun v w hinv hrely h => ⟨hP v w hinv hrely h.1, hR v w hrely (hrely.inside (hlock v h.1)) h.2⟩

theorem rely_fault (w : World) (a b : Agent) : Rely a w (w.fault b) := by
  refine rely_of_same rfl rfl rfl (fun _ h => h) (fun c hc => ?_)
    fun h => ⟨h, rfl, rfl, rfl⟩
  show Function.update w.faulted b true c = true
  rw [Function.update_apply, hc, ite_self]

/-- A call that fails takes nothing away. -/
theorem failed_fault (hP : σ.Stable a P) (hinv : Inv σ.codec σ.config w) (h : P w) :
    Failed a P (w.fault a) :=
  ⟨hP w _ (@inv_effect σ.codec σ.config σ.clients a w _ hinv .fault) (rely_fault w a a) h,
    Function.update_self ..⟩

/-- The file of a lease. -/
def Shared.LeaseIs (s : Shared) (file : Bytes) (ino : Nat) : Prop :=
  ∃ holder, s.lease file = some ⟨ino, holder⟩

theorem Undisturbed.leaseIs (h : Undisturbed a v w) {file : Bytes} {ino : Nat}
    (hlease : v.LeaseIs file ino) : w.LeaseIs file ino := by
  obtain ⟨holder, hlease⟩ := hlease
  rcases h.leases file with heq | ⟨ino', b, _, hheld, hfree, _⟩
  · exact ⟨holder, heq.trans hlease⟩
  · cases hlease.symm.trans hheld
    exact ⟨none, hfree⟩

theorem Undisturbed.lease_isSome (h : Undisturbed a v w) (file : Bytes) :
    (w.lease file).isSome = true ↔ (v.lease file).isSome = true := by
  rcases h.leases file with heq | ⟨ino, b, _, hheld, hfree, _⟩
  · rw [heq]
  · rw [hheld, hfree]
    exact Iff.rfl

theorem Undisturbed.lease_none (h : Undisturbed a v w) {file : Bytes}
    (hnone : v.lease file = none) : w.lease file = none := by
  rw [← Option.isNone_iff_eq_none, ← Option.not_isSome, Bool.not_eq_true', Bool.eq_false_iff, ne_eq,
    h.lease_isSome file, hnone]
  exact Bool.false_ne_true

theorem stable_leaseIs (file : Bytes) (hP : σ.Stable a P) (hlock : ∀ w, P w → w.storeLock = some a)
    (ino : Nat) : σ.Stable a fun w => P w ∧ w.LeaseIs file ino :=
  stable_undisturbed hP hlock fun _ _ _ hstill h => hstill.leaseIs h

theorem stable_unheld (file : Bytes) (hP : σ.Stable a P)
    (hlock : ∀ w, P w → w.storeLock = some a) : σ.Stable a fun w => P w ∧ w.lease file = none :=
  stable_undisturbed hP hlock fun _ _ _ hstill h => hstill.lease_none h

theorem stable_free (file : Bytes) (hP : σ.Stable a P) (hlock : ∀ w, P w → w.storeLock = some a)
    (ino : Nat) : σ.Stable a fun w => P w ∧ w.lease file = some ⟨ino, none⟩ :=
  stable_undisturbed hP hlock fun _ _ _ hstill h => by
    rcases hstill.leases file with heq | ⟨ino', b, _, hheld, _⟩
    · exact heq.trans h
    · cases h.symm.trans hheld

theorem stable_noLease (file : Bytes) (hP : σ.Stable a P)
    (hlock : ∀ w, P w → w.storeLock = some a) :
    σ.Stable a fun w => P w ∧ (w.faulted a = true ∨ w.lease file = none) :=
  stable_undisturbed hP hlock fun _ _ hrely hstill h =>
    h.imp (hrely.faulted a) hstill.lease_none

/-- An agent that has the store lock, and what it has found and left of the results. -/
structure Inside (a : Agent) (before : Shared) (results : Bytes → Option Node) (w : World) :
    Prop where
  storeLock : w.storeLock = some a
  entered : w.entered = before
  results : ∀ hex, w.node .results hex = results hex
  sources : before.SameIn .sources w.toShared

theorem stable_inside (before : Shared) (results : Bytes → Option Node) :
    σ.Stable a (Inside a before results) := by
  intro v w _ hrely h
  have hstill := hrely.inside h.storeLock
  exact {
    storeLock := hstill.storeLock
    entered := hstill.entered.trans h.entered
    results := fun hex => (hstill.results hex).trans (h.results hex)
    sources := fun name => (hstill.sources name).trans (h.sources name) }

/-! ## Work on one identifier -/

/-- A lease has changed, or a call has failed. -/
structure LeaseStep (id : Bytes) (w w' : World) : Prop where
  storeLock : w'.storeLock = w.storeLock
  entered : w'.entered = w.entered
  dead : w'.dead = w.dead
  drawn : ∀ b other, w.Drew b other → w'.Drew b other
  faulted : ∀ b, w.faulted b = true → w'.faulted b = true
  area : w'.area = w.area
  lease : ∀ file, file ≠ leaseFile id → w'.lease file = w.lease file
  published : w'.published = w.published

/-- What is staged under an identifier has changed, or a call has failed. -/
structure WorkStep (area : Area) (id : Bytes) (w w' : World) : Prop where
  storeLock : w'.storeLock = w.storeLock
  entered : w'.entered = w.entered
  dead : w'.dead = w.dead
  drawn : w'.drawn = w.drawn
  faulted : ∀ b, w.faulted b = true → w'.faulted b = true
  leases : w'.leases = w.leases
  node : ∀ other name, (other, name) ≠ (area, id) → w'.node other name = w.node other name
  published : w'.published = w.published

theorem faulted_mono {b : Agent} (h : w.faulted b = true) : (w.fault a).faulted b = true := by
  show Function.update w.faulted a true b = true
  rw [Function.update_apply, h, ite_self]

theorem leaseStep_createLease (id : Bytes) (w : World) : LeaseStep id w
    { w.setLease (leaseFile id) ⟨w.nextIno, none⟩ with nextIno := w.nextIno + 1 } :=
  ⟨rfl, rfl, rfl, fun _ _ h => h, fun _ h => h, rfl, fun _ hne =>
    (World.lease_setLease ..).trans (if_neg hne), rfl⟩

theorem leaseStep_setLease (id : Bytes) (w : World) (lease : LeaseFile) :
    LeaseStep id w (w.setLease (leaseFile id) lease) :=
  ⟨rfl, rfl, rfl, fun _ _ h => h, fun _ h => h, rfl, fun file hne => by
    rw [World.lease_setLease, if_neg hne], rfl⟩

theorem leaseStep_eraseLease (id : Bytes) (w : World) :
    LeaseStep id w (w.eraseLease (leaseFile id)) :=
  ⟨rfl, rfl, rfl, fun _ _ h => h, fun _ h => h, rfl, fun file hne => by
    rw [World.lease_eraseLease, if_neg hne], rfl⟩

theorem leaseStep_release (id : Bytes) (w : World) (a : Agent) (ino : Nat) :
    LeaseStep id w (w.release a (leaseFile id) ino) := by
  unfold World.release
  split
  · exact leaseStep_setLease id w _
  · exact ⟨rfl, rfl, rfl, fun _ _ h => h, fun _ h => h, rfl, fun _ _ => rfl, rfl⟩

theorem release_of_none {file : Bytes} {ino : Nat} (h : w.lease file = none) :
    w.release a file ino = w :=
  if_neg fun hheld => by cases h.symm.trans hheld

theorem workStep_fault (area : Area) (id : Bytes) (w : World) (a : Agent) :
    WorkStep area id w (w.fault a) :=
  ⟨rfl, rfl, rfl, rfl, fun _ => faulted_mono, rfl, fun _ _ _ => rfl, rfl⟩

theorem workStep_setNode (area : Area) (id : Bytes) (w : World) (node : Node) :
    WorkStep area id w (w.setNode area id node) :=
  ⟨rfl, rfl, rfl, rfl, fun _ h => h, rfl, fun other name hne => by
    rw [World.node_setNode, if_neg fun h => hne (Prod.ext h.1 h.2)], rfl⟩

theorem workStep_eraseNode (area : Area) (id : Bytes) (w : World) :
    WorkStep area id w (w.eraseNode area id) :=
  ⟨rfl, rfl, rfl, rfl, fun _ h => h, rfl, fun other name hne => by
    rw [World.node_eraseNode, if_neg fun h => hne (Prod.ext h.1 h.2)], rfl⟩

theorem workStep_cutShort (area : Area) (id : Bytes) (w : World) (a : Agent) :
    WorkStep area id w ((w.cutShort area id).fault a) := by
  unfold World.cutShort
  split
  · exact ⟨rfl, rfl, rfl, rfl, fun _ => faulted_mono, rfl, fun _ _ _ => rfl, rfl⟩
  · exact workStep_fault _ id w a

/-- Nothing is remembered of what is staged. -/
theorem cutShort_staging {area : Area} (harea : area.isStaging = true) (id : Bytes) (w : World) :
    w.cutShort area id = w := by
  cases area with
  | staging | sourceStaging => rfl
  | sources | results => cases harea

/-- An assertion that work on a lease does not touch, of an agent that has the store lock. -/
structure LeaseFrame (σ : Setting) (a : Agent) (id : Bytes) (P : World → Prop) : Prop where
  stable : σ.Stable a P
  inside : ∀ w, P w → w.storeLock = some a
  step : ∀ w w', LeaseStep id w w' → P w → P w'

/-- An assertion that work on what is staged does not touch. -/
structure WorkFrame (σ : Setting) (a : Agent) (area : Area) (id : Bytes) (P : World → Prop) :
    Prop where
  stable : σ.Stable a P
  inside : ∀ w, P w → w.storeLock = some a
  step : ∀ w w', WorkStep area id w w' → P w → P w'

/-- An assertion that is kept where the staged directory stays. -/
structure FillFrame (σ : Setting) (a : Agent) (area : Area) (id : Bytes) (P : World → Prop) :
    Prop where
  stable : σ.Stable a P
  inside : ∀ w, P w → w.storeLock = some a
  step : ∀ w w', WorkStep area id w w' → (w'.node area id).isSome = true → P w → P w'

theorem WorkFrame.fill {area : Area} {id : Bytes} (h : WorkFrame σ a area id P) :
    FillFrame σ a area id P :=
  ⟨h.stable, h.inside, fun w w' hstep _ => h.step w w' hstep⟩

theorem FillFrame.setNode {area : Area} {id : Bytes} (h : FillFrame σ a area id P) (hP : P w)
    (node : Node) : P (w.setNode area id node) := by
  refine h.step w _ (workStep_setNode area id w node) ?_ hP
  rw [World.node_setNode, if_pos ⟨rfl, rfl⟩]
  rfl

theorem WorkFrame.failed {area : Area} {id : Bytes} (h : WorkFrame σ a area id P) :
    WorkFrame σ a area id (Failed a P) where
  stable := stable_failed h.stable
  inside w hw := h.inside w hw.1
  step w w' hstep hw := ⟨h.step w w' hstep hw.1, hstep.faulted a hw.2⟩

theorem LeaseFrame.failed {id : Bytes} (h : LeaseFrame σ a id P) :
    LeaseFrame σ a id (Failed a P) where
  stable := stable_failed h.stable
  inside w hw := h.inside w hw.1
  step w w' hstep hw := ⟨h.step w w' hstep hw.1, hstep.faulted a hw.2⟩

theorem Shared.node_congr {s s' : Shared} (h : s'.area = s.area) (area : Area) (name : Bytes) :
    s'.node area name = s.node area name := by
  rw [Shared.node, Shared.node, h]

theorem Shared.lease_congr {s s' : Shared} (h : s'.leases = s.leases) (file : Bytes) :
    s'.lease file = s.lease file := by
  rw [Shared.lease, Shared.lease, h]

theorem Inside.leaseStep {before : Shared} {results : Bytes → Option Node} {id : Bytes} {w' : World}
    (h : Inside a before results w) (hstep : LeaseStep id w w') : Inside a before results w' where
  storeLock := hstep.storeLock.trans h.storeLock
  entered := hstep.entered.trans h.entered
  results hex := (Shared.node_congr hstep.area _ _).trans (h.results hex)
  sources name := (Shared.node_congr hstep.area _ _).trans (h.sources name)

theorem Inside.workStep {before : Shared} {results : Bytes → Option Node} {area : Area} {id : Bytes}
    {w' : World} (harea : area.isStaging = true) (h : Inside a before results w)
    (hstep : WorkStep area id w w') : Inside a before results w' where
  storeLock := hstep.storeLock.trans h.storeLock
  entered := hstep.entered.trans h.entered
  results hex := by
    rw [hstep.node _ _ fun heq => isStaging_ne_results harea (Prod.mk.inj heq).1.symm]
    exact h.results hex
  sources name := by
    rw [hstep.node _ _ fun heq => isStaging_ne_sources harea (Prod.mk.inj heq).1.symm]
    exact h.sources name

/-- A result changes under the lock. -/
theorem Inside.resultStep {before : Shared} {results : Bytes → Option Node} {hex : Bytes}
    {old : Option Node} {w' : World} (h : Inside a before (Function.update results hex old) w)
    (hstep : WorkStep .results hex w w') :
    Inside a before (Function.update results hex (w'.node .results hex)) w' where
  storeLock := hstep.storeLock.trans h.storeLock
  entered := hstep.entered.trans h.entered
  results other := by
    rcases eq_or_ne other hex with rfl | hne
    · rw [Function.update_self]
    · rw [Function.update_of_ne hne, hstep.node _ _ fun heq => hne (Prod.mk.inj heq).2, h.results,
        Function.update_of_ne hne]
  sources name := by
    rw [hstep.node _ _ fun heq => by cases (Prod.mk.inj heq).1]
    exact h.sources name

/-- A visit that leaves the results and the sources. -/
theorem Inside.same {before : Shared} (h : Inside a before (before.node .results) w) :
    w.entered.SameIn .sources w.toShared ∧ w.entered.SameIn .results w.toShared := by
  rw [h.entered]
  exact ⟨h.sources, h.results⟩

theorem Inside.accounted {before : Shared} (h : Inside a before (before.node .results) w) :
    w.Accounted := by
  intro hex node hnode
  refine .inl ?_
  rw [h.entered, ← h.results hex]
  exact hnode

theorem leaseFrame_inside (id : Bytes) (before : Shared) (results : Bytes → Option Node) :
    LeaseFrame σ a id (Inside a before results) :=
  ⟨stable_inside before results, fun _ h => h.storeLock, fun _ _ hstep h => h.leaseStep hstep⟩

/-! ## One identifier in one area -/

/-- What is staged under an identifier is staged in one area, or a call has failed. -/
def Sole (a : Agent) (area : Area) (id : Bytes) (w : World) : Prop :=
  w.faulted a = true ∨ (w.entered.Paired → ∀ other, w.StagedIn other id → other = area)

/-- The staged directory is there, or a call has failed. -/
def Placed (a : Agent) (area : Area) (id : Bytes) (w : World) : Prop :=
  w.faulted a = true ∨ (w.node area id).isSome = true

section Sole

variable {area : Area} {id : Bytes}

theorem stable_sole (hP : σ.Stable a P) (hlock : ∀ w, P w → w.storeLock = some a) :
    σ.Stable a fun w => P w ∧ Sole a area id w :=
  stable_undisturbed hP hlock fun v w hrely hstill h => by
    refine h.imp (hrely.faulted a) fun hsole hpaired other hstaged => ?_
    rw [hstill.entered] at hpaired
    exact hsole hpaired other ((hstill.staged other id).mp hstaged)

theorem Sole.workStep {w' : World} (h : Sole a area id w) (hstep : WorkStep area id w w') :
    Sole a area id w' := by
  refine h.imp (hstep.faulted a) fun hsole hpaired other hstaged => ?_
  rw [hstep.entered] at hpaired
  by_contra hne
  refine hne (hsole hpaired other ?_)
  rw [Shared.StagedIn, ← hstep.node other id fun heq => hne (Prod.mk.inj heq).1]
  exact hstaged

theorem stable_cleared (hP : σ.Stable a P) (hlock : ∀ w, P w → w.storeLock = some a) :
    σ.Stable a fun w => P w ∧ w.Cleared a id :=
  stable_undisturbed hP hlock fun v w hrely hstill h => by
    refine h.imp (hrely.faulted a) fun hclear hpaired other hstaged => ?_
    rw [hstill.entered] at hpaired
    exact hclear hpaired other ((hstill.staged other id).mp hstaged)

theorem LeaseFrame.cleared (h : LeaseFrame σ a id P) :
    LeaseFrame σ a id fun w => P w ∧ w.Cleared a id where
  stable := stable_cleared h.stable h.inside
  inside w hw := h.inside w hw.1
  step w w' hstep hw := by
    refine ⟨h.step w w' hstep hw.1, hw.2.imp (hstep.faulted a) fun hclear hpaired other => ?_⟩
    rw [hstep.entered] at hpaired
    rw [Shared.StagedIn, Shared.node_congr hstep.area]
    exact hclear hpaired other

/-- Nothing is staged anywhere when it is gone from its one area. -/
theorem Sole.cleared (h : Sole a area id w) (hgone : w.faulted a = true ∨ w.node area id = none) :
    w.Cleared a id := by
  rcases h with hfault | hsole
  · exact .inl hfault
  · refine hgone.imp_right fun hnone hpaired other hstaged => ?_
    obtain rfl := hsole hpaired other hstaged
    have hsome := hstaged.2
    rw [hnone] at hsome
    cases hsome

/-- What was there when the lock was taken was there once. -/
theorem Placed.sole (h : Placed a area id w) (harea : area.isStaging = true)
    (hentered : w.entered = w.toShared) : Sole a area id w := by
  refine h.imp_right fun hsome hpaired other hstaged => ?_
  rw [hentered] at hpaired
  exact hpaired.once other area id hstaged ⟨harea, hsome⟩

end Sole

/-! ## One operation after another -/

theorem Ends.mono {Q Q' : α → World → Prop} (hQ : ∀ x w, Q x w → Q' x w)
    (hE : ∀ w, E w → E' w) {result : Except ε α} (h : Ends Q E result w) :
    Ends Q' E' result w := by
  cases result with
  | ok x => exact hQ x w h
  | error e => exact hE w h

theorem meets_mono {p : Act (Except ε α)} {Q Q' : α → World → Prop}
    (h : σ.Meets a P p (Ends Q E)) (hQ : ∀ x w, Q x w → Q' x w) (hE : ∀ w, E w → E' w) :
    σ.Meets a P p (Ends Q' E') :=
  Discipline.Triple.post h fun _ _ _ => Ends.mono hQ hE

theorem meets_seq {op : Op α} {f : α → Op β} {Q : α → World → Prop} {Q' : β → World → Prop}
    (h : σ.Meets a P op.run (Ends Q E)) (hE : ∀ w, E w → E' w)
    (hf : ∀ x, σ.Meets a (Q x) (f x).run (Ends Q' E')) :
    σ.Meets a P (op >>= f).run (Ends Q' E') :=
  Discipline.Triple.bindE h hf fun _ w _ hw => hE w hw

theorem meets_return (hP : σ.Stable a P) (x : α) :
    σ.Meets a P (pure x : Op α).run (Ends (fun y w => y = x ∧ P w) E) :=
  Discipline.triple_ret hP fun _ _ h => ⟨rfl, h⟩

theorem meets_throw (hP : σ.Stable a P) (e : StoreError) (hE : ∀ w, P w → E w)
    {Q : α → World → Prop} : σ.Meets a P (throw e : Op α).run (Ends Q E) :=
  Discipline.triple_ret hP fun w _ h => hE w h

theorem meets_mapError {act : Act (Except IoError α)} {g : IoError → StoreError}
    {p : Act (Except StoreError α)} (hp : p = act >>= fun result => .ret (result.mapError g))
    {Q : α → World → Prop} (h : σ.Meets a P act (Ends Q E)) : σ.Meets a P p (Ends Q E) := by
  rw [hp]
  refine Discipline.Triple.map (Discipline.Triple.post h fun result w _ hresult => ?_)
  cases result <;> exact hresult

theorem meets_orIo {operation : String} {path : Path} {act : Act (Except IoError α)}
    {Q : α → World → Prop} (h : σ.Meets a P act (Ends Q E)) :
    σ.Meets a P (orIo operation path act).run (Ends Q E) := by
  refine meets_mapError (g := StoreError.io operation path) ?_ h
  refine congrArg (act >>= ·) (funext fun result => ?_)
  cases result <;> rfl

theorem meets_orCorrupt {path : Path} {message : IoError → String}
    {act : Act (Except IoError α)} {Q : α → World → Prop} (h : σ.Meets a P act (Ends Q E)) :
    σ.Meets a P (orCorrupt path message act).run (Ends Q E) := by
  refine meets_mapError (g := fun source => StoreError.corruptResult path (message source)) ?_ h
  refine congrArg (act >>= ·) (funext fun result => ?_)
  cases result <;> rfl

end Rules

end Prep.Store
