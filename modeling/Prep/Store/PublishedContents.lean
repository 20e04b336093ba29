/-
  Store/PublishedContents.lean --- what a published result holds.

  `commit` validates the tree under `prefix` and renames the whole staging directory, so
  what a builder leaves beside the prefix is published unseen.

  What is judged is the directory as the rename has published it.  What another program
  does to it later is outside the model, and so is the text of `result.toml`.  A file that
  is found by a path has a link, so a count of at most one, which is what the source asks
  for, is a count of one.
-/
import Prep.Store.Runs

set_option autoImplicit false

namespace Prep.Store

open Prep.Machine
open Prep.Text
open Prep.Fs (Node Path Shape)

/-! ## Validated trees -/

/-- A real directory, a regular file whose one link is the path it is found by, or a link
that `validate_symlink` accepts. -/
def ValidatedAt (root path : Path) : Node → Prop
  | .dir _ => True
  | .file _ nlink => nlink ≤ 1
  | .symlink target => validateSymlink root path target = .ok ()
  | .special => False

/-- A result directory holds its metadata and its prefix alone, and nothing below it has
escaped validation. -/
structure AllValidated (tree : Node) : Prop where
  names : ∀ name, (tree.child name).isSome = true ↔ name = metadataName ∨ name = prefixName
  nodes : ∀ path node, tree.get? path = some node → ValidatedAt [prefixName] path node

theorem validatedAt_of_visitOutputEntry {root path : Path} {node : Node}
    (h : visitOutputEntry root path node = .ok ()) : ValidatedAt root path node := by
  cases node with
  | dir entries => trivial
  | file contents nlink =>
      rw [visitOutputEntry] at h
      split at h
      · cases h
      · rename_i hlinks
        exact Nat.not_lt.mp hlinks
  | symlink target =>
      rw [visitOutputEntry] at h
      exact h
  | special => cases h

/-! ## What is published -/

section Published

variable {entries : List (Bytes × Node)} {encoded : Bytes}

theorem isSome_child_withMetadata (name : Bytes) :
    ((withMetadata entries encoded).child name).isSome = true ↔
      (entries.lookup name).isSome = true ∨ name = metadataName := by
  rw [child_withMetadata, Option.isSome_or, Bool.or_eq_true]
  refine or_congr_right ?_
  split
  · rename_i heq
    exact ⟨fun _ => heq, fun _ => rfl⟩
  · rename_i hne
    exact ⟨fun h => (by cases h), fun h => absurd h hne⟩

/-- Everything under the prefix of a committed directory has been validated. -/
theorem Committable.validatedAt (h : Committable entries) {path : Path} {node : Node}
    (hnode : (withMetadata entries encoded).get? (prefixName :: path) = some node) :
    ValidatedAt [prefixName] (prefixName :: path) node := by
  obtain ⟨output, hfound, haccepted⟩ := h.output
  rw [Node.get?_cons, child_withMetadata, hfound, Option.some_or, Option.bind_some] at hnode
  have hmoved := validateOutputTree_moved [] [prefixName] haccepted
  exact validatedAt_of_visitOutputEntry
    (visitOutputEntry_of_get? (validateOutputTree_eq_ok_iff.mp hmoved).2 hnode)

/-- What a commit publishes has been validated exactly when the staging directory held the
prefix alone. -/
theorem Committable.allValidated_iff (h : Committable entries) :
    AllValidated (withMetadata entries encoded) ↔
      ∀ name, (entries.lookup name).isSome = true → name = prefixName := by
  constructor
  · intro hall name hname
    rcases (hall.names name).mp ((isSome_child_withMetadata name).mpr (.inl hname)) with rfl | heq
    · rw [h.room] at hname
      cases hname
    · exact heq
  · intro halone
    refine ⟨fun name => ?_, fun path node hnode => ?_⟩
    · rw [isSome_child_withMetadata]
      constructor
      · exact fun hname => (hname.imp_left (halone name)).symm
      · rintro (heq | rfl)
        · exact .inr heq
        · obtain ⟨output, hfound, _⟩ := h.output
          exact .inl (by rw [hfound]; rfl)
    · cases path with
      | nil =>
          rw [Node.get?_nil, Option.some.injEq] at hnode
          subst hnode
          trivial
      | cons name path =>
          rw [Node.get?_cons, Option.bind_eq_some_iff] at hnode
          obtain ⟨next, hchild, hrest⟩ := hnode
          have hsome : ((withMetadata entries encoded).child name).isSome = true := by
            rw [hchild]
            rfl
          rcases (isSome_child_withMetadata name).mp hsome with hname | rfl
          · obtain rfl := halone name hname
            exact h.validatedAt (by rw [Node.get?_cons, hchild]; exact hrest)
          · rw [child_withMetadata, h.room, Option.none_or, if_pos rfl, Option.some.injEq] at hchild
            subst hchild
            -- nothing is below a file
            cases path with
            | nil =>
                rw [Node.get?_nil, Option.some.injEq] at hrest
                subst hrest
                exact Nat.le_refl 1
            | cons below path => cases hrest

end Published

/-! ## Runs that publish -/

/-- What the last visit has published, where it has: the names that stood in the staging
directory, and the published tree. -/
def lastPublished (w : World) : Option (StoreResultId × List Bytes × Node) :=
  w.visits.getLast?.bind fun visit =>
    match visit.outcome with
    | .committed name id (.ok (.published _)) =>
        match visit.before.node .staging name, visit.after.node .results id.hex with
        | some (.dir entries), some tree => some (id, entries.map Prod.fst, tree)
        | _, _ => none
    | _ => none

theorem exists_of_lastPublished {w : World} {id : StoreResultId} {names : List Bytes} {tree : Node}
    (h : lastPublished w = some (id, names, tree)) :
    ∃ visit ∈ w.visits, ∃ name result entries,
      visit.outcome = .committed name id (.ok (.published result)) ∧
        visit.before.node .staging name = some (.dir entries) ∧ entries.map Prod.fst = names ∧
        visit.after.node .results id.hex = some tree := by
  obtain ⟨visit, hlast, hpublished⟩ := Option.bind_eq_some_iff.mp h
  refine ⟨visit, List.mem_of_getLast? hlast, ?_⟩
  split at hpublished
  · rename_i name other result houtcome
    split at hpublished
    · rename_i entries found hstaged hfound
      cases hpublished
      exact ⟨name, result, entries, houtcome, hstaged, rfl, hfound⟩
    · cases hpublished
  · cases hpublished

theorem exists_published {output beside : List (Bytes × Node)} {path : Path} {names : List Bytes}
    {shape : Option Shape}
    (h : (playSetting fun _ => .transaction).play (publishingRun output beside) (fun w =>
      (lastPublished w).map fun found => (found.1, found.2.1, found.2.2.shapeAt path)) =
        some (some (zerosId, names, shape))) :
    ∃ s, (playSetting fun _ => .transaction).Runs (publishingRun output beside) s ∧
      ∃ visit ∈ s.world.visits, ∃ name result entries tree,
        visit.outcome = .committed name zerosId (.ok (.published result)) ∧
          visit.before.node .staging name = some (.dir entries) ∧ entries.map Prod.fst = names ∧
          visit.after.node .results zerosId.hex = some tree ∧ tree.shapeAt path = shape := by
  obtain ⟨s, hruns, hseen⟩ := Setting.Runs.of_play h
  obtain ⟨⟨id, names', tree⟩, hlast, heq⟩ := Option.map_eq_some_iff.mp hseen
  cases heq
  obtain ⟨visit, hvisit, name, result, entries, houtcome, hstaged, hnames, hfound⟩ :=
    exists_of_lastPublished hlast
  exact ⟨s, hruns, visit, hvisit, name, result, entries, tree, houtcome, hstaged, hnames, hfound,
    rfl⟩

/-- A program in a directory, and a link to it. -/
def linkedOutput : List (Bytes × Node) :=
  [(ascii "bin", .dir [(ascii "tool", .file (ascii "abc") 1)]),
    (ascii "tool", .symlink (ascii "bin/tool"))]

theorem play_plain : (playSetting fun _ => .transaction).play (publishingRun linkedOutput [])
    (fun w => (lastPublished w).map fun found =>
      (found.1, found.2.1, found.2.2.shapeAt [prefixName, ascii "tool"])) =
      some (some (zerosId, [prefixName], some (.symlink (ascii "bin/tool")))) := by
  decide +kernel

theorem play_device : (playSetting fun _ => .transaction).play
    (publishingRun [] [(ascii "device", .special)])
    (fun w => (lastPublished w).map fun found =>
      (found.1, found.2.1, found.2.2.shapeAt [ascii "device"])) =
        some (some (zerosId, [prefixName, ascii "device"], some .special)) := by
  decide +kernel

/-! ## Every run -/

/-- In every run, what a commit has published is validated throughout exactly when its
builder had left nothing beside the prefix.  The run may have failing calls and processes that
die; the commit is one that has returned `Published`. -/
theorem published_allValidated_iff {σ : Setting} {steps : List StoreStep} {s : StoreState}
    (h : σ.Runs steps s) {visit : Visit} (hvisit : visit ∈ s.world.visits) {name : Bytes}
    {id : StoreResultId} {result : PublishedResult}
    (houtcome : visit.outcome = .committed name id (.ok (.published result))) :
    ∃ entries tree, visit.before.node .staging name = some (.dir entries) ∧
      visit.after.node .results id.hex = some tree ∧
      (AllValidated tree ↔ ∀ entry, (entries.lookup entry).isSome = true → entry = prefixName) := by
  obtain ⟨_, hkept⟩ := h.good.1.visits visit hvisit
  rw [houtcome] at hkept
  obtain ⟨_, _, _, entries, encoded, hstaged, hcommittable, _, hafter⟩ := hkept
  refine ⟨entries, withMetadata entries encoded, hstaged, ?_, hcommittable.allValidated_iff⟩
  rw [hafter, if_pos rfl]

/-- A prefix with a program and a link to it is published, and all of it is validated. -/
theorem published_allValidated_iff_plain :
    ∃ s, (playSetting fun _ => .transaction).Runs (publishingRun linkedOutput []) s ∧
      ∃ visit ∈ s.world.visits, ∃ name result tree,
        visit.outcome = .committed name zerosId (.ok (.published result)) ∧
        visit.after.node .results zerosId.hex = some tree ∧
        tree.shapeAt [prefixName, ascii "tool"] = some (.symlink (ascii "bin/tool")) ∧
        AllValidated tree := by
  obtain ⟨s, hruns, visit, hvisit, name, result, entries, tree, houtcome, hstaged, hnames, hfound,
    hshape⟩ := exists_published play_plain
  refine ⟨s, hruns, visit, hvisit, name, result, tree, houtcome, hfound, hshape, ?_⟩
  obtain ⟨entries', tree', hstaged', hfound', hiff⟩ :=
    published_allValidated_iff hruns hvisit houtcome
  cases hstaged.symm.trans hstaged'
  cases hfound.symm.trans hfound'
  refine hiff.mpr fun entry hentry => ?_
  obtain ⟨found, hmem, heq⟩ := List.lookup_isSome_iff.mp hentry
  have hname : found.1 ∈ [prefixName] := hnames ▸ List.mem_map_of_mem hmem
  exact (beq_iff_eq.mp heq).trans (List.mem_singleton.mp hname)

/-- A device beside the prefix is published, and nothing has looked at it. -/
theorem device_published : ¬ ∀ (σ : Setting) (steps : List StoreStep) (s : StoreState),
    σ.Runs steps s → ∀ visit ∈ s.world.visits, ∀ name id result tree,
      visit.outcome = .committed name id (.ok (.published result)) →
        visit.after.node .results id.hex = some tree → AllValidated tree := by
  intro h
  obtain ⟨s, hruns, visit, hvisit, name, result, _, tree, houtcome, _, _, hfound, hdevice⟩ :=
    exists_published play_device
  have hall := h _ _ s hruns visit hvisit name zerosId result tree houtcome hfound
  obtain ⟨node, hnode, hshape⟩ := Option.map_eq_some_iff.mp hdevice
  have hsome : (tree.child (ascii "device")).isSome = true := by
    rw [← Node.get?_singleton, hnode]
    rfl
  rcases (hall.names _).mp hsome with heq | heq
  · exact absurd heq (by decide)
  · exact absurd heq (by decide)

end Prep.Store
