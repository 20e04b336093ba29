/-
  Store/ResultMap.lean --- the results of a store as a map that is written once.

  Abstractly the results are a map from identifiers to output trees.  The runs of the store
  go from one stay under the store lock to the next, and each stay is one move of the map.  A
  commit that comes back has added the tree it has validated where the map has none, and
  tells so; a lookup tells what the map has; nothing else changes the map.  A stay that does
  not come back, because its process has died or is not that far yet, is a commit that has
  renamed the staged directory of its transaction, and so made the same addition, or it has
  changed nothing.  Every commit, whether it comes back or not, is one its builder asked for.

  This is about the runs in which no call fails; processes may die between any two calls.
  What failing calls leave of the results is said in `Store/WholeResults.lean`.
-/
import Prep.Store.Asked

set_option autoImplicit false

namespace Prep.Store

open Prep.Machine
open Prep.Text
open Prep.Fs (Node Path)

/-! ## The map -/

/-- From the identifiers of results to their output trees. -/
abbrev ResultMap : Type := StoreResultId → Option Node

/-- What happens to the map.  A commit comes with the staged tree if that is valid and
metadata can be created beside it; it has come back with an answer, or has renamed the staged
directory and not come back. -/
inductive MapEvent where
  | commit (id : StoreResultId) (staged : Option Node) (answer : Except StoreError PublishOutcome)
  | renamed (id : StoreResultId) (staged : Option Node)
  | get (id : StoreResultId) (answer : Except StoreError (Option PublishedResult))
  | other

/-- The map is written once at every identifier. -/
inductive MapStep (m : ResultMap) : MapEvent → ResultMap → Prop
  | published (id : StoreResultId) (tree : Node) (hvalid : validateOutputTree [] tree = .ok ())
      (habsent : m id = none) :
      MapStep m (.commit id (some tree) (.ok (.published (publishedResult id))))
        (Function.update m id (some tree))
  | existing (id : StoreResultId) (tree old : Node) (hpresent : m id = some old) :
      MapStep m (.commit id (some tree) (.ok (.existing (publishedResult id)))) m
  | rejected (id : StoreResultId) (e : StoreError) : MapStep m (.commit id none (.error e)) m
  | renamed (id : StoreResultId) (tree : Node) (hvalid : validateOutputTree [] tree = .ok ())
      (habsent : m id = none) :
      MapStep m (.renamed id (some tree)) (Function.update m id (some tree))
  | found (id : StoreResultId) (tree : Node) (hpresent : m id = some tree) :
      MapStep m (.get id (.ok (some (publishedResult id)))) m
  | missing (id : StoreResultId) (habsent : m id = none) : MapStep m (.get id (.ok none)) m
  | other : MapStep m .other m

/-- What the event adds to the map. -/
def MapEvent.added : MapEvent → Option (StoreResultId × Node)
  | .commit id (some tree) (.ok (.published _)) => some (id, tree)
  | .renamed id (some tree) => some (id, tree)
  | _ => none

/-- An event, with the map before it and after it. -/
structure MapMove where
  before : ResultMap
  event : MapEvent
  after : ResultMap

/-- Moves that follow one another, from the empty map to another. -/
inductive MapRun : List MapMove → ResultMap → Prop
  | empty : MapRun [] fun _ => none
  | move {moves : List MapMove} (move : MapMove) (h : MapRun moves move.before)
      (hstep : MapStep move.before move.event move.after) : MapRun (moves ++ [move]) move.after

section Map

variable {m m' : ResultMap} {event event' : MapEvent} {moves : List MapMove} {move : MapMove}

/-- What an event adds is all that it changes. -/
theorem MapStep.added (h : MapStep m event m') :
    event.added = none ∧ m' = m ∨ ∃ id tree, event.added = some (id, tree) ∧ m id = none ∧
      m' = Function.update m id (some tree) := by
  cases h with
  | published id tree _ habsent => exact .inr ⟨id, tree, rfl, habsent, rfl⟩
  | renamed id tree _ habsent => exact .inr ⟨id, tree, rfl, habsent, rfl⟩
  | existing | rejected | found | missing | other => exact .inl ⟨rfl, rfl⟩

/-- An addition is a change. -/
theorem update_ne_self {id : StoreResultId} {tree : Node} (habsent : m id = none) :
    Function.update m id (some tree) ≠ m := by
  intro heq
  have hsome := congrFun heq id
  rw [Function.update_self, habsent] at hsome
  cases hsome

/-- What is added is seen of the maps before and after. -/
theorem MapStep.added_eq (h : MapStep m event m') (h' : MapStep m event' m') :
    event.added = event'.added := by
  rcases h.added with ⟨hnone, hsame⟩ | ⟨id, tree, hsome, habsent, hchanged⟩
  · rcases h'.added with ⟨hnone', _⟩ | ⟨id, tree, _, habsent, hchanged⟩
    · rw [hnone, hnone']
    · exact absurd (hchanged.symm.trans hsame) (update_ne_self habsent)
  · rcases h'.added with ⟨_, hsame⟩ | ⟨id', tree', hsome', habsent', hchanged'⟩
    · exact absurd (hchanged.symm.trans hsame) (update_ne_self habsent)
    · have hupdate := hchanged.symm.trans hchanged'
      obtain rfl : id = id' := by
        by_contra hne
        have hother := congrFun hupdate id
        rw [Function.update_self, Function.update_of_ne hne, habsent] at hother
        cases hother
      have htree := congrFun hupdate id
      rw [Function.update_self, Function.update_self] at htree
      rw [hsome, hsome', Option.some.inj htree]

theorem MapRun.last (h : MapRun (moves ++ [move]) m) :
    MapRun moves move.before ∧ MapStep move.before move.event move.after ∧ m = move.after := by
  generalize hall : moves ++ [move] = all at h
  cases h with
  | empty => exact absurd hall (List.append_ne_nil_of_right_ne_nil _ (List.cons_ne_nil _ _))
  | move last hrun hstep =>
      obtain ⟨rfl, hlast⟩ := List.append_inj' hall rfl
      obtain rfl := List.singleton_inj.mp hlast
      exact ⟨hrun, hstep, rfl⟩

end Map

/-! ## What is seen of a store -/

/-- The tree at the prefix of each result. -/
def Shared.resultMap (s : Shared) : ResultMap := fun id => s.at? ⟨.results, id.hex, [prefixName]⟩

/-- The tree a commit may publish: `validate_output_tree` accepts it, and nothing is where
the metadata goes. -/
def Shared.stagedTree (s : Shared) (name : Bytes) : Option Node :=
  match s.node .staging name with
  | some (.dir entries) =>
      match entries.lookup prefixName, entries.lookup metadataName with
      | some tree, none =>
          match validateOutputTree [] tree with
          | .ok () => some tree
          | .error _ => none
      | _, _ => none
  | _ => none

/-- What a stay under the store lock that is over is to the map. -/
def Visit.mapEvent (visit : Visit) : MapEvent :=
  match visit.outcome with
  | .committed name id result => .commit id (visit.before.stagedTree name) result
  | .got id result => .get id result
  | .begun _ | .begunSource _ | .dropped _ | .droppedSource _ | .recovered _ => .other

/-- A stay under the store lock.  It is over, and a visit; or the agent has not let go of the
lock, and has renamed a staged directory to a result, or nothing so far. -/
inductive Stay where
  | finished (visit : Visit)
  | unfinished (agent : Agent) (before after : Shared) (renamed : Option (Bytes × StoreResultId))

namespace Stay

/-- The move of the map that a stay is. -/
def move : Stay → MapMove
  | .finished visit => ⟨visit.before.resultMap, visit.mapEvent, visit.after.resultMap⟩
  | .unfinished _ before after (some (name, id)) =>
      ⟨before.resultMap, .renamed id (before.stagedTree name), after.resultMap⟩
  | .unfinished _ before after none => ⟨before.resultMap, .other, after.resultMap⟩

def visit? : Stay → Option Visit
  | .finished visit => some visit
  | .unfinished _ _ _ _ => none

/-- If the stay is not over, the process of its agent has died. -/
def Ended (config : Config) (w : World) : Stay → Prop
  | .finished _ => True
  | .unfinished agent _ _ _ => w.dead (config.process agent) = true

/-- What is committed, or renamed, was to be committed under its identifier, and is staged under
a lease that the agent had when it took the lock; only a transaction renames. -/
def Owned (clients : Agent → Client) (asked : Agent → StoreResultId → Prop) : Stay → Prop
  | .finished ⟨agent, .committed name id _, before, _⟩ => asked agent id ∧ before.HeldBy agent name
  | .unfinished agent before _ (some (name, id)) =>
      clients agent = .transaction ∧ asked agent id ∧ before.HeldBy agent name
  | _ => True

theorem before_unfinished (agent : Agent) (before after : Shared)
    (renamed : Option (Bytes × StoreResultId)) :
    (move (.unfinished agent before after renamed)).before = before.resultMap := by
  cases renamed <;> rfl

theorem after_unfinished (agent : Agent) (before after : Shared)
    (renamed : Option (Bytes × StoreResultId)) :
    (move (.unfinished agent before after renamed)).after = after.resultMap := by
  cases renamed <;> rfl

end Stay

/-- The stay of the agent that has the store lock. -/
inductive Current (w : World) : List Stay → Prop
  | nobody (h : w.storeLock = none) : Current w []
  | somebody (a : Agent) (renamed : Option (Bytes × StoreResultId)) (h : w.storeLock = some a) :
      Current w [.unfinished a w.entered w.toShared renamed]

/-- A directory renamed into the results, with what it has added to the map. -/
def Adds (entry : StoreResultId × Node) (renamed : Bytes × Node) : Prop :=
  renamed.1 = entry.1.hex ∧ renamed.2.child prefixName = some entry.2

/-- The results have come about by stays that follow one another, each a move of the map: those
of the past, which are over or cut off by a death, and the current one.  The ones that are over
are those that have been answered, every directory that was renamed is one addition, and the
commits are those that builders have asked for in these steps. -/
structure Simulated (σ : Setting) (steps : List StoreStep) (w : World) (past current : List Stay) :
    Prop where
  run : MapRun ((past ++ current).map Stay.move) w.resultMap
  visits : past.filterMap Stay.visit? = w.visits
  ended : ∀ stay ∈ past, stay.Ended σ.config w
  holder : Current w current
  owned : ∀ stay ∈ past ++ current, stay.Owned σ.clients (Asked steps)
  published : List.Forall₂ Adds
    ((past ++ current).filterMap fun stay => stay.move.event.added).reverse w.published

section Seen

variable {codec : MetadataCodec} {s s' : Shared} {id : StoreResultId} {tree : Node}
  {entries : List (Bytes × Node)} {encoded : Bytes} {name : Bytes}

theorem Shared.resultMap_apply (s : Shared) (id : StoreResultId) :
    s.resultMap id = (s.node .results id.hex).bind fun node => node.child prefixName := by
  rw [Shared.resultMap, Shared.at?]
  exact congrArg _ (funext fun node => Node.get?_singleton node prefixName)

theorem Shared.SameIn.resultMap (h : s.SameIn .results s') : s'.resultMap = s.resultMap := by
  funext id
  rw [Shared.resultMap_apply, Shared.resultMap_apply, h]

theorem Committable.stagedTree (h : Committable entries)
    (hnode : s.node .staging name = some (.dir entries)) :
    ∃ tree, s.stagedTree name = some tree ∧ validateOutputTree [] tree = .ok () ∧
      ∀ encoded, (withMetadata entries encoded).child prefixName = some tree := by
  obtain ⟨tree, hfound, hvalid⟩ := h.output
  refine ⟨tree, ?_, hvalid, fun encoded => ?_⟩
  · simp only [Shared.stagedTree, hnode, hfound, h.room, hvalid]
  · rw [child_withMetadata, hfound, Option.some_or]

theorem Shared.committable_of_stagedTree (h : s.stagedTree name = some tree) :
    ∃ entries, s.node .staging name = some (.dir entries) ∧ Committable entries := by
  unfold Shared.stagedTree at h
  split at h
  · rename_i entries hnode
    split at h
    · rename_i output hfound hroom
      split at h
      · rename_i hvalid
        exact ⟨entries, hnode, ⟨output, hfound, hvalid⟩, hroom⟩
      · cases h
    · cases h
  · cases h

/-- A result that is valid is in the map. -/
theorem ValidResult.resultMap (h : ValidResult codec id tree)
    (hnode : s.node .results id.hex = some tree) : ∃ output, s.resultMap id = some output := by
  obtain ⟨output, hfound, _⟩ := h.output
  refine ⟨output, ?_⟩
  rw [Shared.resultMap_apply, hnode, Option.bind_some, ← Node.get?_singleton]
  exact hfound

theorem Shared.resultMap_of_none (h : s.node .results id.hex = none) : s.resultMap id = none := by
  rw [Shared.resultMap_apply, h]
  rfl

/-- A result more is a tree more in the map. -/
theorem Shared.resultMap_publish {node : Node} (htree : node.child prefixName = some tree)
    (h : ∀ hex, s'.node .results hex = if hex = id.hex then some node else s.node .results hex) :
    s'.resultMap = Function.update s.resultMap id (some tree) := by
  funext other
  rw [Shared.resultMap_apply, h]
  rcases eq_or_ne other id with rfl | hne
  · rw [if_pos rfl, Function.update_self]
    exact htree
  · rw [if_neg fun heq => hne (StoreResultId.ext heq), Function.update_of_ne hne,
      Shared.resultMap_apply]

end Seen

/-! ## One stay under the lock -/

/-- Every result is one that `get` accepts. -/
def Shared.Sound (codec : MetadataCodec) (s : Shared) : Prop :=
  ∀ id node, s.node .results (StoreResultId.hex id) = some node → ValidResult codec id node

section Visits

variable {codec : MetadataCodec} {config : Config} {visit : Visit}

theorem mapStep_commit {s s' : Shared} {name : Bytes} {id : StoreResultId}
    {result : Except StoreError PublishOutcome} (hsound : s.Sound codec)
    (hkept : CommitKept codec False name id s s' result) :
    MapStep s.resultMap (.commit id (s.stagedTree name) result) s'.resultMap := by
  rcases result with e | result | result
  · obtain ⟨hsame | hfault, hwhy⟩ := hkept
    · have hnone : s.stagedTree name = none := by
        by_contra hsome
        obtain ⟨tree, htree⟩ := Option.ne_none_iff_exists'.mp hsome
        obtain ⟨entries, hnode, hcommittable⟩ := Shared.committable_of_stagedTree htree
        rcases hwhy with hfault | hnot | ⟨found, hfound, hnot⟩
        · exact hfault
        · exact hnot entries hnode hcommittable
        · exact hnot (hsound id found hfound)
      rw [hsame.resultMap, hnone]
      exact .rejected id e
    · exact hfault.1.elim
  · obtain ⟨rfl, hfree, entries, encoded, hnode, hcommittable, _, hafter⟩ := hkept
    obtain ⟨tree, hstaged, hvalid, hchild⟩ := hcommittable.stagedTree hnode
    rw [hstaged, Shared.resultMap_publish (hchild encoded) hafter]
    exact .published id tree hvalid (Shared.resultMap_of_none hfree)
  · obtain ⟨rfl, hsame, ⟨found, hfound, hvalid⟩, entries, hnode, hcommittable⟩ := hkept
    obtain ⟨tree, hstaged, _⟩ := hcommittable.stagedTree hnode
    obtain ⟨old, hold⟩ := hvalid.resultMap hfound
    rw [hsame.resultMap, hstaged]
    exact .existing id tree old hold

/-- A stay under the lock none of whose calls has failed is a step of the map. -/
theorem mapStep_visit {faulted : Agent → Bool} (hkept : visit.Kept codec config faulted)
    (hfree : ∀ a, faulted a = false) (hsound : visit.before.Sound codec) :
    MapStep visit.before.resultMap visit.mapEvent visit.after.resultMap := by
  obtain ⟨agent, outcome, before, after⟩ := visit
  have hnever : faulted agent = true → False := fun h => Bool.eq_false_iff.mp (hfree agent) h
  obtain ⟨_, hkept⟩ := hkept
  cases outcome with
  | committed name id result =>
      exact mapStep_commit hsound (hkept.2.congr (fun _ => rfl) hnever)
  | got id result =>
      obtain ⟨hsame, hlookup⟩ := hkept
      rw [hsame.resultMap]
      rcases result with e | _ | result
      · rcases hlookup with hfault | ⟨tree, htree, hnot⟩
        · exact (hnever hfault).elim
        · exact absurd (hsound id tree htree) hnot
      · exact .missing id (Shared.resultMap_of_none hlookup)
      · obtain ⟨rfl, tree, htree, hvalid⟩ := hlookup
        obtain ⟨output, houtput⟩ := hvalid.resultMap htree
        exact .found id output houtput
  | recovered result =>
      rw [hkept.1.resultMap]
      exact .other
  | begun | begunSource | dropped | droppedSource =>
      rw [hkept.resultMap]
      exact .other

end Visits

/-! ## Every step -/

section Steps

variable {σ : Setting} {steps : List StoreStep} {a : Agent} {w w' : World}
  {past current : List Stay}

theorem Stay.Ended.mono {stay : Stay} (h : stay.Ended σ.config w)
    (hdead : ∀ process, w.dead process = true → w'.dead process = true) :
    stay.Ended σ.config w' := by
  cases stay with
  | finished visit => trivial
  | unfinished agent before after renamed => exact hdead _ h

theorem simulated_initial : Simulated σ steps .initial [] [] where
  run := .empty
  visits := rfl
  ended _ h := absurd h List.not_mem_nil
  holder := .nobody rfl
  owned _ h := absurd h List.not_mem_nil
  published := .nil

/-- The current stay goes on, and nothing has changed for the map. -/
theorem Simulated.goes_on (h : Simulated σ steps w past current)
    (hlock : w'.storeLock = w.storeLock) (hentered : w'.entered = w.entered)
    (hvisits : w'.visits = w.visits)
    (hpublished : w'.published = w.published) (hresults : w'.resultMap = w.resultMap)
    (hdead : ∀ process, w.dead process = true → w'.dead process = true) :
    ∃ current', Simulated σ steps w' past current' := by
  obtain ⟨hrun, hvisited, hended, hcurrent, howned, hadded⟩ := h
  have hended' : ∀ stay ∈ past, stay.Ended σ.config w' := fun stay hmem =>
    (hended stay hmem).mono hdead
  cases hcurrent with
  | nobody hnone =>
      exact ⟨[], by rwa [hresults], by rwa [hvisits], hended', .nobody (hlock.trans hnone), howned,
        by rwa [hpublished]⟩
  | somebody b renamed hsome =>
      have hsame : Stay.move (.unfinished b w'.entered w'.toShared renamed) =
          Stay.move (.unfinished b w.entered w.toShared renamed) := by
        rw [hentered]
        cases renamed <;> simp only [Stay.move, hresults]
      refine ⟨_, ?_, by rwa [hvisits], hended', .somebody b renamed (hlock.trans hsome), ?_, ?_⟩
      · rw [hresults, List.map_append, List.map_singleton, hsame]
        rwa [List.map_append] at hrun
      · rw [hentered]
        intro stay hmem
        rcases List.mem_append.mp hmem with hold | hnew
        · exact howned stay (List.mem_append_left _ hold)
        · obtain rfl := List.mem_singleton.mp hnew
          have hlast := howned (.unfinished b w.entered w.toShared renamed)
            (List.mem_append_right _ List.mem_cons_self)
          cases renamed <;> exact hlast
      · rw [hpublished, List.filterMap_append, List.filterMap_cons, hsame]
        rwa [List.filterMap_append, List.filterMap_cons] at hadded

/-- Somebody takes the lock. -/
theorem Simulated.lock (h : Simulated σ steps w past current)
    (hfree : σ.config.free w w.storeLock = true) :
    ∃ past' current', Simulated σ steps { w with storeLock := some a, entered := w.toShared } past'
      current' := by
  obtain ⟨hrun, hvisited, hended, hcurrent, howned, hadded⟩ := h
  refine ⟨past ++ current, [.unfinished a w.toShared w.toShared none], ?_, ?_, ?_,
    .somebody a none rfl, ?_, ?_⟩
  · rw [List.map_append]
    exact .move (Stay.move (.unfinished a w.toShared w.toShared none)) hrun .other
  · cases hcurrent with
    | nobody => rwa [List.append_nil]
    | somebody =>
        rw [List.filterMap_append, hvisited]
        exact List.append_nil _
  · intro stay hmem
    rcases List.mem_append.mp hmem with hold | hnew
    · exact (hended stay hold).mono fun _ => id
    · cases hcurrent with
      | nobody => exact absurd hnew List.not_mem_nil
      | somebody b renamed hsome =>
          obtain rfl := List.mem_singleton.mp hnew
          rw [hsome] at hfree
          exact hfree
  · intro stay hmem
    rcases List.mem_append.mp hmem with hold | hnew
    · exact howned stay hold
    · obtain rfl := List.mem_singleton.mp hnew
      trivial
  · rw [List.filterMap_append]
    exact (List.append_nil (List.filterMap _ (past ++ current))).symm ▸ hadded

/-- The agent that has the lock lets go of it. -/
theorem Simulated.unlock {outcome : Outcome} (h : Simulated σ steps w past current)
    (hlock : w.storeLock = some a)
    (hstep : MapStep w.entered.resultMap
      (Visit.mapEvent ⟨a, outcome, w.entered, w.toShared⟩) w.resultMap)
    (howned : Stay.Owned σ.clients (Asked steps)
      (.finished ⟨a, outcome, w.entered, w.toShared⟩)) :
    ∃ past' current', Simulated σ steps
      { w with
        storeLock := none
        visits := w.visits ++ [⟨a, outcome, w.entered, w.toShared⟩] } past' current' := by
  obtain ⟨hrun, hvisited, hended, hcurrent, howned', hadded⟩ := h
  cases hcurrent with
  | nobody hnone => cases hnone.symm.trans hlock
  | somebody b renamed hsome =>
      rw [List.map_append, List.map_singleton] at hrun
      obtain ⟨hpast, hlast, _⟩ := hrun.last
      rw [Stay.before_unfinished] at hpast
      rw [Stay.before_unfinished, Stay.after_unfinished] at hlast
      refine ⟨past ++ [.finished ⟨a, outcome, w.entered, w.toShared⟩], [], ?_, ?_, ?_, .nobody rfl,
        ?_, ?_⟩
      · rw [List.append_nil, List.map_append]
        exact .move (Stay.move (.finished ⟨a, outcome, w.entered, w.toShared⟩)) hpast hstep
      · rw [List.filterMap_append, hvisited]
        rfl
      · intro stay hmem
        rcases List.mem_append.mp hmem with hold | hnew
        · exact (hended stay hold).mono fun _ => id
        · obtain rfl := List.mem_singleton.mp hnew
          trivial
      · rw [List.append_nil]
        intro stay hmem
        rcases List.mem_append.mp hmem with hold | hnew
        · exact howned' stay (List.mem_append_left _ hold)
        · obtain rfl := List.mem_singleton.mp hnew
          exact howned
      · -- the visit has added what the stay had added
        have hsame := hlast.added_eq hstep
        rw [List.append_nil, List.filterMap_append, List.filterMap_cons]
        rw [List.filterMap_append, List.filterMap_cons, hsame] at hadded
        exact hadded

/-- The agent that has the lock publishes a result. -/
theorem Simulated.publish {name : Bytes} {id : StoreResultId} {entries : List (Bytes × Node)}
    {encoded : Bytes} (h : Simulated σ steps w past current) (hlock : w.storeLock = some a)
    (hclient : σ.clients a = .transaction) (hasked : Asked steps a id)
    (hclaimed : w.entered.HeldBy a name)
    (hstill : w.entered.SameIn .results w.toShared) (hfree : w.node .results id.hex = none)
    (hstaged : w.entered.node .staging name = some (.dir entries))
    (hcommittable : Committable entries)
    (hresults : ∀ hex, w'.node .results hex =
      if hex = id.hex then some (withMetadata entries encoded) else w.node .results hex)
    (hsame : w'.storeLock = w.storeLock ∧ w'.entered = w.entered ∧ w'.visits = w.visits)
    (hdead : w'.dead = w.dead)
    (hpublished : w'.published = (id.hex, withMetadata entries encoded) :: w.published) :
    ∃ current', Simulated σ steps w' past current' := by
  obtain ⟨hrun, hvisited, hended, hcurrent, howned, hadded⟩ := h
  obtain ⟨hstoreLock, hentered, hvisits⟩ := hsame
  obtain ⟨tree, hfound, hvalid, hchild⟩ := hcommittable.stagedTree hstaged
  have hsum : w'.resultMap = Function.update w.entered.resultMap id (some tree) := by
    rw [Shared.resultMap_publish (hchild encoded) hresults, hstill.resultMap]
  have habsent : w.entered.resultMap id = none := by
    rw [← hstill.resultMap]
    exact Shared.resultMap_of_none hfree
  cases hcurrent with
  | nobody hnone => cases hnone.symm.trans hlock
  | somebody b renamed hsome =>
      cases hsome.symm.trans hlock
      rw [List.map_append, List.map_singleton] at hrun
      obtain ⟨hpast, hlast, _⟩ := hrun.last
      rw [Stay.before_unfinished] at hpast
      rw [Stay.before_unfinished, Stay.after_unfinished, hstill.resultMap] at hlast
      -- nothing had been added so far
      have hnothing : (Stay.move (.unfinished a w.entered w.toShared renamed)).event.added = none :=
        hlast.added_eq .other
      have hmove : Stay.move (.unfinished a w'.entered w'.toShared (some (name, id))) =
          ⟨w.entered.resultMap, .renamed id (some tree), w'.resultMap⟩ := by
        rw [Stay.move, hentered, hfound]
      refine ⟨[.unfinished a w'.entered w'.toShared (some (name, id))], ?_, by rwa [hvisits], ?_,
        .somebody a _ (hstoreLock.trans hlock), ?_, ?_⟩
      · rw [List.map_append, List.map_singleton, hmove]
        refine .move ⟨w.entered.resultMap, .renamed id (some tree), w'.resultMap⟩ hpast ?_
        rw [hsum]
        exact .renamed id tree hvalid habsent
      · exact fun stay hmem => (hended stay hmem).mono fun process hprocess => by
          rw [hdead]
          exact hprocess
      · intro stay hmem
        rcases List.mem_append.mp hmem with hold | hnew
        · exact howned stay (List.mem_append_left _ hold)
        · obtain rfl := List.mem_singleton.mp hnew
          rw [hentered]
          exact ⟨hclient, hasked, hclaimed⟩
      · rw [List.filterMap_append, List.filterMap_cons, hnothing, List.filterMap_nil,
          List.append_nil] at hadded
        rw [List.filterMap_append, List.filterMap_cons, hmove, hpublished, List.reverse_append]
        exact .cons ⟨rfl, hchild encoded⟩ hadded

/-! ## Every run -/

/-- What holds of a store none of whose calls has failed. -/
structure Simulates (σ : Setting) (steps : List StoreStep) (w : World) : Prop where
  sound : w.Sound σ.codec
  entered : w.entered.Sound σ.codec
  history : ∃ past current, Simulated σ steps w past current

/-- Every effect in a run without faults keeps the simulation. -/
theorem Simulates.step (h : Simulates σ steps w) (hstep : ResultsStep σ a w w')
    (hasks : Asks (Asked steps a) w w') (hdead : w'.dead = w.dead) (hfree : w.FaultFree)
    (hfree' : w'.FaultFree) : Simulates σ steps w' := by
  obtain ⟨hsound, hentered, past, current, hsimulated⟩ := h
  cases hstep with
  | keeps hkeeps =>
      refine ⟨fun id node hnode => hsound id node ((hkeeps.results _).symm.trans hnode), ?_, past,
        hsimulated.goes_on hkeeps.storeLock hkeeps.entered hkeeps.visits hkeeps.published
          hkeeps.results.resultMap fun process hprocess => ?_⟩
      · rw [hkeeps.entered]
        exact hentered
      · rw [hdead]
        exact hprocess
  | cutShort hex node hlock hnode =>
      exact absurd (Function.update_self ..) (Bool.eq_false_iff.mp (hfree' a))
  | lock hnobody => exact ⟨hsound, hsound, hsimulated.lock hnobody⟩
  | unlock outcome hlock haccounted hkept =>
      refine ⟨hsound, hentered, hsimulated.unlock hlock (mapStep_visit hkept hfree hentered) ?_⟩
      cases outcome with
      | committed name id result =>
          exact ⟨hasks.committed a name id result w.entered w.toShared rfl, hkept.2.1⟩
      | _ => trivial
  | publish name id entries encoded hlock hclient hclaimed hstill hnone hstaged hcommittable
      hencoded hresults hsame hpublished =>
      obtain ⟨hstoreLock, hsame, hvisits, _⟩ := hsame
      refine ⟨fun other node hnode => ?_, ?_, past, hsimulated.publish hlock hclient
        (hasks.published id _ hpublished) hclaimed hstill hnone hstaged hcommittable hresults
        ⟨hstoreLock, hsame, hvisits⟩ hdead hpublished⟩
      · rw [hresults] at hnode
        split at hnode
        · rename_i heq
          obtain rfl := StoreResultId.ext heq
          obtain rfl := Option.some.inj hnode
          exact hcommittable.validResult hencoded
        · exact hsound other node hnode
      · rw [hsame]
        exact hentered
  | rollBack hex node hlock hfault => exact absurd hfault (Bool.eq_false_iff.mp (hfree a))

theorem Simulates.die (h : Simulates σ steps w) (process : Process) :
    Simulates σ steps { w with dead := Function.update w.dead process true } := by
  obtain ⟨hsound, hentered, past, current, hsimulated⟩ := h
  exact ⟨hsound, hentered, past, hsimulated.goes_on rfl rfl rfl rfl rfl fun _ => dead_update⟩

/-- Every run in which no call fails is a run of the map: its stays under the store lock follow
one another, and each moves the map as its answer says.  One that is not over is that of a
process that has died, or the last one, of the agent that has the lock.  What a stay adds to
the map its own builder has asked to be committed there. -/
theorem results_simulate_map {s : StoreState} (h : σ.Runs steps s) (hsteps : Faultless steps) :
    ∃ past current, Simulated σ steps s.world past current := by
  have hreached : σ.discipline.Good s ∧ Answering steps s ∧ s.world.FaultFree ∧
      Simulates σ steps s.world := by
    refine System.run_induction (I := fun s => σ.discipline.Good s ∧ Answering steps s ∧
      s.world.FaultFree ∧ Simulates σ steps s.world) (fun s step s' hs hmem hstep => ?_)
      ⟨good_initial, answering_initial σ steps, fun _ => rfl,
        fun _ _ h => (nomatch h), fun _ _ h => (nomatch h), [], [], simulated_initial⟩
      (System.along_of_mem (fun _ => id) _) h
    obtain ⟨hgood, hanswering, hfree, hsimulates⟩ := hs
    obtain ⟨hanswering', hasks⟩ := hanswering.step hmem hstep
    have hfree' := faultFree_step hfree (hsteps step hmem) hstep
    refine ⟨hgood.step hstep, hanswering', hfree', ?_⟩
    rcases step_effect hgood hstep with ⟨process, _, hworld⟩ | ⟨a, choice, hact, _, heffect⟩
    · rw [hworld]
      exact hsimulates.die process
    · exact hsimulates.step (resultsStep heffect) (hasks a choice hact) (effect_dead heffect) hfree
        hfree'
  exact hreached.2.2.2.history

/-- A process dies just after the rename of its commit; then somebody looks the result up. -/
def orphanedResult : List StoreStep :=
  beginsAs 0 playStamp ++ (builds 0 [(prefixName, .dir [])] (.commit zerosId) ++
    (goesOn 0 38 ++ .event 0 :: goesOn 1 25))

/-- `results_simulate_map` in that run: nobody was told of the result that is there. -/
theorem results_simulate_map_orphaned : ∃ s : StoreState,
    (playSetting writerAndReaders).Runs orphanedResult s ∧
      (s.world.resultMap zerosId).isSome = true ∧
      s.world.visits.map Visit.agent = [0, 1] ∧
      ∃ past current,
        Simulated (playSetting writerAndReaders) orphanedResult s.world past current := by
  have hplay : (playSetting writerAndReaders).play orphanedResult
      (fun w => ((w.resultMap zerosId).isSome, w.visits.map Visit.agent)) =
        some (true, [0, 1]) := by
    decide +kernel
  obtain ⟨s, hruns, hseen⟩ := Setting.Runs.of_play hplay
  obtain ⟨hsome, hvisits⟩ := Prod.mk.inj hseen
  exact ⟨s, hruns, hsome, hvisits, results_simulate_map hruns (by decide +kernel)⟩

end Steps

end Prep.Store
