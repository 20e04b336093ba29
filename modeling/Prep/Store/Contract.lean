/-
  Store/Contract.lean --- what each stay under the store lock has to do.

  The terms are those of a map from identifiers to output trees: a commit adds the tree it
  has validated where nothing was, and nothing else changes the map.  An operation one of
  whose calls has failed owes less.
-/
import Prep.Store.Operations

set_option autoImplicit false

namespace Prep.Store

open Prep.Text
open Prep.Fs (Node Path)

/-! ## Results -/

/-- What `validate_existing_result` accepts. -/
structure ValidResult (codec : MetadataCodec) (id : StoreResultId) (tree : Node) : Prop where
  metadata : ∃ contents nlink, tree.get? [metadataName] = some (.file contents nlink) ∧
    Utf8.valid contents = true ∧ checkMetadata codec [] id contents = .ok ()
  output : ∃ output, tree.get? [prefixName] = some output ∧ validateOutputTree [] output = .ok ()

/-- What `commit` accepts of the entries of a staged directory. -/
structure Committable (entries : List (Bytes × Node)) : Prop where
  output : ∃ output, entries.lookup prefixName = some output ∧
    validateOutputTree [] output = .ok ()
  room : entries.lookup metadataName = none

/-- A staged directory with its metadata. -/
def withMetadata (entries : List (Bytes × Node)) (encoded : Bytes) : Node :=
  .dir (entries ++ [(metadataName, .file encoded 1)])

section Results

variable {codec : MetadataCodec} {id : StoreResultId} {tree : Node} {encoded : Bytes}
  {entries : List (Bytes × Node)}

theorem ValidResult.isDir (h : ValidResult codec id tree) : tree.isDir = true := by
  obtain ⟨contents, nlink, hfound, _⟩ := h.metadata
  rw [Node.get?_singleton] at hfound
  obtain ⟨entries, rfl, _⟩ := Node.mem_of_child hfound
  rfl

theorem checkMetadata_eq_ok_iff (path : Path) {contents : Bytes} :
    checkMetadata codec path id contents = .ok () ↔
      checkMetadata codec [] id contents = .ok () := by
  unfold checkMetadata
  split
  · exact ⟨fun h => (by cases h), fun h => (by cases h)⟩
  · split
    · exact ⟨fun h => (by cases h), fun h => (by cases h)⟩
    · exact Iff.rfl

theorem checkMetadata_complete {path : Path}
    (hencoded : codec.fromToml encoded = .ok (completeMetadata id)) :
    checkMetadata codec path id encoded = .ok () := by
  unfold checkMetadata
  rw [hencoded]
  exact if_neg fun h => by
    rcases h with h | h | h | h <;> exact h rfl

/-- The metadata of a complete result is text and is read back. -/
theorem toToml_ok (h : codec.toToml (completeMetadata id) = .ok encoded) :
    Utf8.valid encoded = true ∧ codec.fromToml encoded = .ok (completeMetadata id) := by
  obtain ⟨encoded', htoml, hvalid, hread⟩ := codec.reads_back id
  obtain rfl : encoded' = encoded := Except.ok.inj (htoml.symm.trans h)
  exact ⟨hvalid, hread⟩

theorem child_withMetadata (name : Bytes) : (withMetadata entries encoded).child name =
    (entries.lookup name).or (if name = metadataName then some (.file encoded 1) else none) := by
  rw [withMetadata, Node.child, List.lookup_append, List.lookup_cons, List.lookup_nil]
  congr 1
  rcases eq_or_ne name metadataName with rfl | hne
  · rw [if_pos rfl, beq_self_eq_true]
  · rw [if_neg hne, beq_eq_false_iff_ne.mpr hne]

/-- A staged directory that is committed is a result. -/
theorem Committable.validResult (h : Committable entries)
    (hencoded : codec.toToml (completeMetadata id) = .ok encoded) :
    ValidResult codec id (withMetadata entries encoded) := by
  obtain ⟨hvalid, hread⟩ := toToml_ok hencoded
  obtain ⟨output, hfound, haccepted⟩ := h.output
  refine ⟨⟨encoded, 1, ?_, hvalid, checkMetadata_complete hread⟩, output, ?_, haccepted⟩
  · rw [Node.get?_singleton, child_withMetadata, h.room, if_pos rfl, Option.none_or]
  · rw [Node.get?_singleton, child_withMetadata, hfound, Option.some_or]

end Results

/-! ## Staged work -/

/-- The areas that transactions and source stages work in. -/
def Area.isStaging : Area → Bool
  | .staging | .sourceStaging => true
  | .sources | .results => false

namespace Shared

/-- An area holds what it held. -/
def SameIn (area : Area) (before after : Shared) : Prop :=
  ∀ name, after.node area name = before.node area name

/-- The lock of a lease is held. -/
def HeldBy (s : Shared) (a : Agent) (id : Bytes) : Prop :=
  ∃ ino, s.lease (leaseFile id) = some ⟨ino, some a⟩

/-- Something is staged under an identifier. -/
def StagedIn (s : Shared) (area : Area) (id : Bytes) : Prop :=
  area.isStaging = true ∧ (s.node area id).isSome = true

/-- What is staged has its lease, and is staged once: what recovery insists on. -/
structure Paired (s : Shared) : Prop where
  lease : ∀ area id, s.StagedIn area id → (s.lease (leaseFile id)).isSome = true
  once : ∀ area area' id, s.StagedIn area id → s.StagedIn area' id → area = area'

end Shared

/-! ## Visits -/

/-- A lease that another agent, alive at the time, held when a visit began, and holds at its
end unless one of its own calls has failed.  The agent may have died meanwhile. -/
def HeldSince (config : Config) (faulted : Agent → Bool) (visitor : Agent)
    (before after : Shared) (file : Bytes) : Prop :=
  ∃ ino holder, holder ≠ visitor ∧ before.lease file = some ⟨ino, some holder⟩ ∧
    before.dead (config.process holder) = false ∧
    (after.lease file = some ⟨ino, some holder⟩ ∨
      after.lease file = some ⟨ino, none⟩ ∧ faulted holder = true)

/-- What a commit leaves of the results. -/
def CommitKept (codec : MetadataCodec) (faulted : Prop) (name : Bytes) (id : StoreResultId)
    (before after : Shared) : Except StoreError PublishOutcome → Prop
  | .ok (.published result) => result = publishedResult id ∧ before.node .results id.hex = none ∧
      ∃ entries encoded, before.node .staging name = some (.dir entries) ∧ Committable entries ∧
        codec.toToml (completeMetadata id) = .ok encoded ∧
        ∀ hex, after.node .results hex =
          if hex = id.hex then some (withMetadata entries encoded) else before.node .results hex
  | .ok (.existing result) => result = publishedResult id ∧ before.SameIn .results after ∧
      (∃ tree, before.node .results id.hex = some tree ∧ ValidResult codec id tree) ∧
      ∃ entries, before.node .staging name = some (.dir entries) ∧ Committable entries
  | .error e =>
      (before.SameIn .results after ∨
        faulted ∧ (∃ failure rollback, e = rollbackFailed id failure rollback) ∧
          ∀ hex, hex ≠ id.hex → after.node .results hex = before.node .results hex) ∧
      (faulted ∨
        (∀ entries, before.node .staging name = some (.dir entries) → ¬ Committable entries) ∨
        ∃ tree, before.node .results id.hex = some tree ∧ ¬ ValidResult codec id tree)

/-- What a recovery leaves. -/
def RecoveryKept (config : Config) (faulted : Agent → Bool) (visitor : Agent)
    (before after : Shared) : Except StoreError Nat → Prop
  | .ok _ => before.Paired →
      (∀ area id, after.StagedIn area id →
        HeldSince config faulted visitor before after (leaseFile id)) ∧
      ∀ file, (after.lease file).isSome = true →
        (∃ area id, file = leaseFile id ∧ after.StagedIn area id) ∨
          HeldSince config faulted visitor before after file
  | .error _ => faulted visitor = true ∨ ¬ before.Paired

/-- What a lookup says of the results. -/
def LookupKept (codec : MetadataCodec) (faulted : Prop) (id : StoreResultId) (before : Shared) :
    Except StoreError (Option PublishedResult) → Prop
  | .ok (some result) => result = publishedResult id ∧
      ∃ tree, before.node .results id.hex = some tree ∧ ValidResult codec id tree
  | .ok none => before.node .results id.hex = none
  | .error _ => faulted ∨ ∃ tree, before.node .results id.hex = some tree ∧
      ¬ ValidResult codec id tree

/-- What a stay under the store lock has done, by what it has come to. -/
def Visit.Kept (codec : MetadataCodec) (config : Config) (faulted : Agent → Bool)
    (visit : Visit) : Prop :=
  visit.before.SameIn .sources visit.after ∧
  match visit.outcome with
  | .committed name id result => visit.before.HeldBy visit.agent name ∧
      CommitKept codec (faulted visit.agent = true) name id visit.before visit.after result
  | .recovered result => visit.before.SameIn .results visit.after ∧
      RecoveryKept config faulted visit.agent visit.before visit.after result
  | .got id result => visit.before.SameIn .results visit.after ∧
      LookupKept codec (faulted visit.agent = true) id visit.before result
  | .begun _ | .begunSource _ | .dropped _ | .droppedSource _ =>
      visit.before.SameIn .results visit.after

section Visits

variable {codec : MetadataCodec} {config : Config} {faulted faulted' : Agent → Bool}

theorem HeldSince.mono {visitor : Agent} {before after : Shared} {file : Bytes}
    (hmono : ∀ a, faulted a = true → faulted' a = true)
    (h : HeldSince config faulted visitor before after file) :
    HeldSince config faulted' visitor before after file := by
  obtain ⟨ino, holder, hne, hheld, halive, hafter⟩ := h
  exact ⟨ino, holder, hne, hheld, halive, hafter.imp_right fun h => ⟨h.1, hmono _ h.2⟩⟩

/-- A commit is about the results, and owes no more when more calls have failed. -/
theorem CommitKept.congr {codec : MetadataCodec} {fault fault' : Prop} {name : Bytes}
    {id : StoreResultId} {before after after' : Shared} {result : Except StoreError PublishOutcome}
    (h : CommitKept codec fault name id before after result) (hresults : after.SameIn .results after')
    (hfault : fault → fault') : CommitKept codec fault' name id before after' result := by
  rcases result with e | result | result
  · refine ⟨h.1.imp (fun hsame hex => (hresults hex).trans (hsame hex)) fun hleft => ?_,
      h.2.imp_left hfault⟩
    exact ⟨hfault hleft.1, hleft.2.1, fun hex hne => (hresults hex).trans (hleft.2.2 hex hne)⟩
  · obtain ⟨hresult, hfree, entries, encoded, hstaged, hcommittable, hencoded, hafter⟩ := h
    exact ⟨hresult, hfree, entries, encoded, hstaged, hcommittable, hencoded,
      fun hex => (hresults hex).trans (hafter hex)⟩
  · exact ⟨h.1, fun hex => (hresults hex).trans (h.2.1 hex), h.2.2⟩

/-- A call that fails later takes nothing from what a visit has done. -/
theorem Visit.Kept.mono {visit : Visit} (hmono : ∀ a, faulted a = true → faulted' a = true)
    (h : visit.Kept codec config faulted) : visit.Kept codec config faulted' := by
  obtain ⟨agent, outcome, before, after⟩ := visit
  refine ⟨h.1, ?_⟩
  obtain ⟨_, h⟩ := h
  cases outcome with
  | committed name id result =>
      exact ⟨h.1, h.2.congr (fun _ => rfl) (hmono _)⟩
  | recovered result =>
      rcases result with ⟨e⟩ | ⟨count⟩
      · exact ⟨h.1, h.2.imp_left (hmono _)⟩
      · refine ⟨h.1, fun hpaired => ⟨fun area id hstaged => ?_, fun file hfile => ?_⟩⟩
        · exact ((h.2 hpaired).1 area id hstaged).mono hmono
        · exact ((h.2 hpaired).2 file hfile).imp_right (HeldSince.mono hmono)
  | got id result =>
      rcases result with ⟨e⟩ | ⟨_ | result⟩
      · exact ⟨h.1, h.2.imp_left (hmono _)⟩
      · exact h
      · exact h
  | begun | begunSource | dropped | droppedSource => exact h

end Visits

end Prep.Store
