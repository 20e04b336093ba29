/-
  Store/CheckRules.lean --- what the checks of the store find.

  A check changes nothing.  It succeeds just when what it looks for is there, or one of its
  calls fails.
-/
import Prep.Store.OpRules

set_option autoImplicit false

namespace Prep.Store

open Prep.Machine
open Prep.Text
open Prep.Fs (Node Path)
open Prep.Io (IoError)

/-- The operation leaves `P` alone.  It succeeds only if `φ` holds, and if `φ` holds only a
failing call keeps it from that. -/
abbrev Setting.Checks (σ : Setting) (a : Agent) (P : World → Prop) (op : Op Unit) (φ : Prop) :
    Prop :=
  σ.Meets a P op.run (Ends (fun _ w => φ ∧ P w) fun w => P w ∧ (w.faulted a = true ∨ ¬ φ))

section CheckRules

variable {σ : Setting} {a : Agent} {P : World → Prop} {φ ψ : Prop} {place : Place}
  {found : Option Node}

/-! ## Putting checks together -/

theorem checks_congr {op : Op Unit} (h : σ.Checks a P op φ) (hiff : φ ↔ ψ) :
    σ.Checks a P op ψ :=
  meets_mono h (fun _ _ hw => ⟨hiff.mp hw.1, hw.2⟩)
    fun _ hw => ⟨hw.1, hw.2.imp_right fun hnot hψ => hnot (hiff.mpr hψ)⟩

theorem checks_seq {op op' : Op Unit} (h : σ.Checks a P op φ)
    (h' : φ → σ.Checks a P op' ψ) : σ.Checks a P (op >>= fun _ => op') (φ ∧ ψ) := by
  refine meets_seq h (fun w hw => ⟨hw.1, hw.2.imp_right fun hnot hboth => hnot hboth.1⟩)
    fun _ => Discipline.triple_of fun hφ => ?_
  exact meets_mono (h' hφ) (fun _ _ hw => ⟨⟨hφ, hw.1⟩, hw.2⟩)
    fun _ hw => ⟨hw.1, hw.2.imp_right fun hnot hboth => hnot hboth.2⟩

/-- A check before the rest of an operation, which its failure ends. -/
theorem meets_check {α : Type} {E : World → Prop} {op : Op Unit} {next : Unit → Op α}
    {Q : α → World → Prop} (h : σ.Checks a P op φ)
    (hE : ∀ w, P w → w.faulted a = true ∨ ¬ φ → E w)
    (hnext : φ → σ.Meets a P (next ()).run (Ends Q E)) :
    σ.Meets a P (op >>= next).run (Ends Q E) :=
  Discipline.Triple.bindE h (fun _ => Discipline.triple_of hnext) fun _ w _ hw => hE w hw.1 hw.2

theorem checks_return (hP : σ.Stable a P) : σ.Checks a P (pure ()) True :=
  meets_mono (meets_return hP ()) (fun _ _ hw => ⟨trivial, hw.2⟩) fun _ hw => hw

theorem checks_throw (hP : σ.Stable a P) (e : StoreError) : σ.Checks a P (throw e) False :=
  meets_throw hP e fun _ hw => ⟨hw, .inr id⟩

/-- A verdict that has been computed already. -/
theorem checks_value (hP : σ.Stable a P) (result : Except StoreError Unit) :
    σ.Checks a P (ExceptT.mk (pure result)) (result = .ok ()) := by
  cases result with
  | ok _ => exact checks_congr (checks_return hP) (iff_of_true trivial rfl)
  | error e => exact checks_congr (checks_throw hP e) (iff_of_false id nofun)

theorem checks_quiet {operation : String} {path : Path} (c : Quiet) (hP : σ.Stable a P) :
    σ.Checks a P (orIo operation path (perform (.quiet c))) True :=
  meets_mono (meets_quietOp c hP) (fun _ _ hw => ⟨trivial, hw⟩) fun _ hw => ⟨hw.1, .inl hw.2⟩

/-- What is read decides what is checked next. -/
theorem checks_of_read {op : Op Node} {f : Node → Op Unit} {φ : Node → Prop}
    (h : σ.Meets a P op.run (Ends (fun node w => found = some node ∧ P w)
      fun w => P w ∧ (w.faulted a = true ∨ found = none)))
    (hf : ∀ node, found = some node → σ.Checks a P (f node) (φ node)) :
    σ.Checks a P (op >>= f) (∃ node, found = some node ∧ φ node) := by
  refine meets_seq h (fun w hw => ⟨hw.1, hw.2.imp_right ?_⟩)
    fun node => Discipline.triple_of fun hfound => ?_
  · rintro hnone ⟨node, hfound, _⟩
    cases hnone.symm.trans hfound
  · refine meets_mono (hf node hfound) (fun _ _ hw => ⟨⟨node, hfound, hw.1⟩, hw.2⟩)
      fun _ hw => ⟨hw.1, hw.2.imp_right ?_⟩
    rintro hnot ⟨node', hfound', hφ⟩
    cases hfound.symm.trans hfound'
    exact hnot hφ

/-! ## Reading -/

/-- `node_exists` where the answer does not change. -/
theorem meets_nodeExists {there : Bool} (hP : σ.Stable a P)
    (hat : ∀ w, P w → (w.at? place).isSome = there) :
    σ.Meets a P (nodeExists place).run
      (Ends (fun exists? w => exists? = there ∧ P w) (Failed a P)) := by
  refine Discipline.Triple.bind (meets_read (φ := fun _ => there = true) (ψ := there = false)
    place hP (fun w node _ hw hnode => ?_) fun w _ hw hnode => ?_) fun result => ?_
  · rw [← hat w hw, hnode]
    rfl
  · rw [← hat w hw, hnode]
    rfl
  cases result with
  | ok node =>
      refine Discipline.triple_of fun hthere => ?_
      exact Discipline.triple_ret hP fun _ _ hw => ⟨hthere.symm, hw⟩
  | error e =>
      have hstable := hP.and (((stable_faulted a).and
        (Discipline.stable_const (∃ code, e = .other code))).or
          (Discipline.stable_const (there = false ∧ e = .notFound)))
      cases e with
      | notFound =>
          refine Discipline.triple_ret hstable fun w _ hw => ?_
          rcases hw.2 with ⟨_, code, hcode⟩ | ⟨hthere, _⟩
          · cases hcode
          · exact ⟨hthere.symm, hw.1⟩
      | alreadyExists | invalidData | other | interrupted | unexpectedEof =>
          refine Discipline.triple_ret hstable fun w _ hw => ?_
          rcases hw.2 with ⟨hfault, _⟩ | ⟨_, hcode⟩
          · exact ⟨hw.1, hfault⟩
          · cases hcode

section Reading

variable (hP : σ.Stable a P) (hat : ∀ w, P w → w.at? place = found)

include hP hat

/-- What is at a place that does not change. -/
theorem meets_readFound : σ.Meets a P (read place) (Ends (fun node w => found = some node ∧ P w)
    fun w => P w ∧ (w.faulted a = true ∨ found = none)) := by
  refine Discipline.Triple.post (meets_read place hP
    (fun w node _ hw hnode => (hat w hw).symm.trans hnode)
    fun w _ hw hnone => (hat w hw).symm.trans hnone) fun result w _ h => ?_
  cases result with
  | ok node => exact h
  | error e => exact ⟨h.1, h.2.imp (fun h => h.1) fun h => h.1⟩

theorem meets_canonicalizeFound : σ.Meets a P (canonicalize place)
    (Ends (fun _ => P) fun w => P w ∧ (w.faulted a = true ∨ found = none)) :=
  meets_canonicalize place hP fun w _ hw hnone => (hat w hw).symm.trans hnone

/-- `require_real_directory` finds a real directory. -/
theorem checks_requireRealDirectory (label : String) :
    σ.Checks a P (requireRealDirectory place label)
      (∃ node, found = some node ∧ node.isDir = true) := by
  refine checks_of_read (meets_orIo (meets_readFound hP hat)) fun node _ => ?_
  cases hdir : node.isDir with
  | true => exact checks_congr (checks_return hP) (iff_of_true trivial rfl)
  | false => exact checks_congr (checks_throw hP _) (iff_of_false id Bool.false_ne_true)

theorem checks_verifyRealDirectoryWithin (label : String) :
    σ.Checks a P (verifyRealDirectoryWithin place label)
      (∃ node, found = some node ∧ node.isDir = true) := by
  refine checks_congr (checks_seq (ψ := True) (checks_requireRealDirectory hP hat label) ?_)
    (and_iff_left trivial)
  rintro ⟨node, hfound, _⟩
  refine meets_mono (meets_orIo (meets_canonicalizeFound hP hat)) (fun _ _ hw => ⟨trivial, hw⟩)
    fun w hw => ⟨hw.1, .inl (hw.2.resolve_right ?_)⟩
  rw [hfound]
  exact Option.some_ne_none node

theorem checks_validateResultDirectory (label : String) :
    σ.Checks a P (validateResultDirectory place label)
      (∃ node, found = some node ∧ node.isDir = true) := by
  refine checks_of_read (meets_orCorrupt (meets_readFound hP hat)) fun node hfound => ?_
  cases hdir : node.isDir with
  | true =>
      refine meets_mono (meets_orCorrupt (meets_canonicalizeFound hP hat))
        (fun _ _ hw => ⟨rfl, hw⟩) fun w hw => ⟨hw.1, .inl (hw.2.resolve_right ?_)⟩
      rw [hfound]
      exact Option.some_ne_none node
  | false => exact checks_congr (checks_throw hP _) (iff_of_false id Bool.false_ne_true)

/-- The verdict of `validate_output_tree` is about the tree alone. -/
theorem checks_validateOutputTreeAt : σ.Checks a P (validateOutputTreeAt place)
    (∃ node, found = some node ∧ validateOutputTree [] node = .ok ()) := by
  refine checks_of_read (meets_orIo (meets_readFound hP hat)) fun node _ => ?_
  exact checks_congr (checks_value hP _)
    ⟨validateOutputTree_moved place.path [], validateOutputTree_moved [] place.path⟩

/-- `sync_output_tree` has nothing against a tree that has been accepted. -/
theorem checks_syncOutputTree {output : Node} (hfound : found = some output)
    (haccepted : validateOutputTree [] output = .ok ()) :
    σ.Checks a P (syncOutputTree place) True := by
  refine checks_congr (checks_of_read (φ := fun _ => True) (meets_orIo (meets_readFound hP hat))
    fun node hnode => ?_) (iff_of_true ⟨output, hfound, trivial⟩ trivial)
  cases hfound.symm.trans hnode
  have hspecial := hasSpecial_of_visitOutputEntry (validateOutputTree_eq_ok_iff.mp haccepted).2
  rw [hspecial]
  exact checks_quiet _ hP

end Reading

/-! ## A result -/

/-- A result that does not change is complete just when `validate_existing_result` says so. -/
theorem checks_validateExistingResult {id : StoreResultId} (hP : σ.Stable a P)
    (hnode : ∀ w, P w → w.node .results id.hex = found) :
    σ.Checks a P (validateExistingResult σ.codec id)
      (∃ tree, found = some tree ∧ ValidResult σ.codec id tree) := by
  have hat : ∀ (below : Path) (w : World), P w →
      w.at? ⟨.results, id.hex, below⟩ = found.bind fun tree => tree.get? below :=
    fun below w hw => by rw [Shared.at?, hnode w hw]
  have htop : ∀ w, P w → w.at? (resultPlace id) = found :=
    fun w hw => (Shared.at?_top _ _ _).trans (hnode w hw)
  refine checks_congr (checks_seq (checks_validateResultDirectory hP htop _) fun hdir => ?_)
    (φ := _ ∧ ∃ node, (found.bind fun tree => tree.get? [metadataName]) = some node ∧
      (∃ contents nlink, node = .file contents nlink ∧ Utf8.valid contents = true ∧
        checkMetadata σ.codec [] id contents = .ok ()) ∧
      ∃ output, (found.bind fun tree => tree.get? [prefixName]) = some output ∧
        validateOutputTree [] output = .ok ()) ?_
  · refine checks_of_read (meets_orIo (meets_readFound hP (hat [metadataName]))) fun node hmeta => ?_
    cases node with
    | file contents nlink =>
        dsimp only
        refine checks_congr (checks_of_read (φ := fun _ => Utf8.valid contents = true ∧
          checkMetadata σ.codec (resultPlace id).path id contents = .ok () ∧
            (∃ node, (found.bind fun tree => tree.get? [prefixName]) = some node ∧
              node.isDir = true) ∧
            ∃ output, (found.bind fun tree => tree.get? [prefixName]) = some output ∧
              validateOutputTree [] output = .ok ())
          (meets_orIo (meets_readFound hP (hat [metadataName]))) fun node hnode => ?_) ?_
        · cases hmeta.symm.trans hnode
          cases hvalid : Utf8.valid contents with
          | true =>
              rw [readText, if_pos hvalid]
              refine checks_congr ?_ (and_iff_right rfl).symm
              exact checks_seq (checks_value hP _) fun _ =>
                checks_seq (checks_validateResultDirectory hP (hat [prefixName]) _) fun _ =>
                  checks_validateOutputTreeAt hP (hat [prefixName])
          | false =>
              rw [readText, if_neg (hvalid ▸ Bool.false_ne_true)]
              exact checks_congr (checks_throw hP _)
                (iff_of_false not_false fun h => Bool.false_ne_true h.1)
        · constructor
          · rintro ⟨_, _, hvalid, hcheck, _, hprefix⟩
            exact ⟨⟨contents, nlink, rfl, hvalid, (checkMetadata_eq_ok_iff _).mp hcheck⟩, hprefix⟩
          · rintro ⟨⟨_, _, heq, hvalid, hcheck⟩, output, hprefix, haccepted⟩
            cases heq
            exact ⟨_, hmeta, hvalid, (checkMetadata_eq_ok_iff _).mpr hcheck,
              ⟨output, hprefix, (validateOutputTree_eq_ok_iff.mp haccepted).1⟩, output, hprefix,
              haccepted⟩
    | dir entries | symlink target | special =>
        refine checks_congr (checks_throw hP _) (iff_of_false not_false ?_)
        rintro ⟨⟨_, _, hfile, _⟩, _⟩
        cases hfile
  · constructor
    · rintro ⟨_, node, hmeta, ⟨contents, nlink, rfl, hvalid, hcheck⟩, output, hprefix, haccepted⟩
      obtain ⟨tree, hfound, hmeta⟩ := Option.bind_eq_some_iff.mp hmeta
      rw [hfound, Option.bind_some] at hprefix
      exact ⟨tree, hfound, ⟨contents, nlink, hmeta, hvalid, hcheck⟩, output, hprefix, haccepted⟩
    · rintro ⟨tree, hfound, hresult⟩
      obtain ⟨contents, nlink, hmeta, hvalid, hcheck⟩ := hresult.metadata
      obtain ⟨output, hprefix, haccepted⟩ := hresult.output
      rw [hfound]
      exact ⟨⟨tree, rfl, hresult.isDir⟩, _, hmeta, ⟨contents, nlink, rfl, hvalid, hcheck⟩, output,
        hprefix, haccepted⟩

/-! ## Lookup -/

section Lookup

variable {before : Shared} {id : StoreResultId}

/-- The body of `Store::get`. -/
theorem meets_lookup :
    σ.Meets a (Inside a before (before.node .results)) (do
      let place := resultPlace id
      if ← nodeExists place then do
        validateExistingResult σ.codec id
        return some ⟨id, place.path, place.path ++ [prefixName]⟩
      else return none : Op (Option PublishedResult)).run (Ends
        (fun result w => LookupKept σ.codec False id before (.ok result) ∧
          Inside a before (before.node .results) w)
        fun w => Inside a before (before.node .results) w ∧ (w.faulted a = true ∨
          ∃ tree, before.node .results id.hex = some tree ∧ ¬ ValidResult σ.codec id tree)) := by
  have hinside := @stable_inside σ a before (before.node .results)
  have hthere : ∀ w, Inside a before (before.node .results) w →
      (w.at? (resultPlace id)).isSome = (before.node .results id.hex).isSome :=
    fun w h => by rw [resultPlace, Shared.at?_top, h.results]
  refine meets_seq (meets_nodeExists hinside hthere)
    (fun w h => ⟨h.1, .inl h.2⟩) fun exists? => Discipline.triple_of fun hexists => ?_
  cases hfound : before.node .results id.hex with
  | none =>
      rw [hexists, hfound]
      exact meets_mono (meets_return hinside none) (fun _ _ h => ⟨by rw [h.1]; exact hfound, h.2⟩)
        fun _ h => h
  | some tree =>
      rw [hexists, hfound]
      refine meets_seq (checks_validateExistingResult hinside fun w h => h.results id.hex)
        (fun w h => ⟨h.1, h.2.imp_right fun hnot => ?_⟩)
        fun _ => Discipline.triple_of fun hvalid => ?_
      · exact ⟨tree, rfl, fun hvalid => hnot ⟨tree, hfound, hvalid⟩⟩
      · exact meets_mono (meets_return hinside _) (fun _ _ h => ⟨by rw [h.1]; exact ⟨rfl, hvalid⟩, h.2⟩)
          fun _ h => h

/-- `Store::get` keeps its contract. -/
theorem meets_get : σ.Meets a (fun _ => True) (get σ.codec id).run fun _ _ => True := by
  have htrue : σ.Stable a fun _ => True := Discipline.stable_const True
  refine meets_locked htrue (fun before => stable_inside before (before.node .results))
    (fun w _ _ => ⟨rfl, rfl, fun _ => rfl, fun _ => rfl⟩)
    (R := fun result w => ∃ before : Shared, Inside a before (before.node .results) w ∧
      LookupKept σ.codec (w.faulted a = true) id before result)
    (fun before => Discipline.Triple.post meets_lookup fun result w _ h => ?_) (fun result => ?_)
    (fun _ => htrue) (fun result w _ h => ?_) (fun _ _ _ _ => trivial) fun _ _ _ => trivial
  · rcases result with e | _ | found
    · exact ⟨before, h⟩
    · exact ⟨before, h.2, h.1⟩
    · exact ⟨before, h.2, h.1⟩
  · refine Discipline.stable_exists fun before => (stable_inside _ _).and ?_
    rcases result with e | _ | found
    · exact (stable_faulted a).or (Discipline.stable_const _)
    · exact Discipline.stable_const _
    · exact Discipline.stable_const _
  · obtain ⟨before, hinside, hkept⟩ := h
    refine ⟨hinside.storeLock, hinside.accounted, hinside.same.1, hinside.same.2, ?_⟩
    rw [hinside.entered]
    exact hkept

end Lookup

end CheckRules

end Prep.Store
