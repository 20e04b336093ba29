/-
  Store/Containment.lean --- where the links of an accepted output tree lead.

  `validate_symlink` computes with the text of one target.  Where the target goes
  through no other link this is what the operating system does, and the check
  keeps the walk inside the prefix.  Through a link the text runs deeper than the
  real directory, and a `..` that the text allows can step out of the prefix.

  The tree is at rest: nobody changes it while it is looked at.  Links are followed without a
  bound on their number, so nothing is contained only because a kernel gives up.
-/
import Prep.Fs.Resolve
import Prep.Store.OutputTree

set_option autoImplicit false

namespace Prep.Store

open Prep.Text
open Prep.Fs

/-! ## The two readings of a target -/

/-- Resolving any link of the tree visits nodes of the tree only. -/
def LinksContained (tree : Node) : Prop :=
  ∀ path name target, IsLink tree path name target →
    ∀ n w, walk tree n (follow path target []) = some w → w.location ≠ .outside

/-- The walk over `before` follows a link and ends at the root of the tree. -/
def ReturnsToRootThroughLink (tree : Node) (path : Path) (before : List Bytes) : Prop :=
  ∃ m, walk tree m ⟨.inside path, before⟩ = some ⟨.inside [], []⟩ ∧
    ∃ i w, i < m ∧ walk tree i ⟨.inside path, before⟩ = some w ∧ crossesLink tree w = true

/-- Some link has a `..` in its target after a part that goes through a link and
ends at the root of the tree. -/
def StepsUpAfterLink (tree : Node) : Prop :=
  ∃ path name target before after, IsLink tree path name target ∧
    pieces target = before ++ ascii ".." :: after ∧
    ReturnsToRootThroughLink tree path before

/-! ## The check on one target -/

/-- An accepted target is relative, and the loop of `validate_symlink` accepts its
components from the link's directory. -/
theorem validateSymlink_ok {root path : Path} {name target : Bytes}
    (h : validateSymlink root (root ++ (path ++ [name])) target = .ok ()) :
    isAbsolute target = false ∧
      ∃ stack, ((pieces target).filterMap pieceComponent).foldlM
        (targetStep (root ++ (path ++ [name]))) path = .ok stack := by
  unfold validateSymlink at h
  split at h
  · cases h
  · rename_i hrelative
    rw [Bool.not_eq_true] at hrelative
    refine ⟨hrelative, ?_⟩
    split at h
    · cases h
    · rw [← List.append_assoc, List.dropLast_concat] at h
      have hparent : (root ++ path).dropPrefix? root = some path :=
        List.dropPrefix?_eq_some_iff.mpr ⟨root, rfl, beq_self_eq_true root⟩
      rw [hparent] at h
      simp only at h
      split at h
      · cases h
      · rename_i stack hstack
        unfold components at hstack
        simp only [hrelative, Bool.false_eq_true, if_false, List.foldlM_append] at hstack
        refine ⟨stack, ?_⟩
        rw [← List.append_assoc]
        -- a leading `.` leaves the stack alone
        split at hstack
        · exact hstack
        · exact hstack

/-- A link of an accepted tree passes `validate_symlink`. -/
theorem validateSymlink_of_isLink {root path : Path} {tree : Node} {name target : Bytes}
    (haccepted : validateOutputTree root tree = .ok ())
    (hlink : IsLink tree path name target) :
    validateSymlink root (root ++ (path ++ [name])) target = .ok () := by
  have hentry := visitOutputEntry_of_get? (validateOutputTree_eq_ok_iff.mp haccepted).2 hlink
  rw [visitOutputEntry] at hentry
  exact hentry

theorem absoluteTarget_of_isLink {root path : Path} {tree : Node} {name target : Bytes}
    (haccepted : validateOutputTree root tree = .ok ())
    (hlink : IsLink tree path name target) : absoluteTarget target = false :=
  (validateSymlink_ok (validateSymlink_of_isLink haccepted hlink)).1

/-! ## Where no link is crossed the text is the real directory -/

/-- One step that crosses no link moves as the loop of `validate_symlink` does. -/
theorem foldlM_step {tree : Node} {linkPath path : Path} {piece : Bytes}
    {rest : List Bytes} {w : Walk} {stack : Path}
    (hstep : step tree ⟨.inside path, piece :: rest⟩ = some w)
    (hplain : crossesLink tree ⟨.inside path, piece :: rest⟩ = false)
    (hfold : ((piece :: rest).filterMap pieceComponent).foldlM (targetStep linkPath) path =
      .ok stack) :
    ∃ next, w = ⟨.inside next, rest⟩ ∧
      (rest.filterMap pieceComponent).foldlM (targetStep linkPath) next = .ok stack := by
  simp only [step] at hstep
  split at hstep
  · rename_i entries hdir
    split at hstep
    · rename_i hstays
      cases hstep
      have hpiece : pieceComponent piece = none := by
        rw [staysPut, Bool.or_eq_true, beq_iff_eq, beq_iff_eq] at hstays
        exact if_pos hstays
      rw [List.filterMap_cons_none hpiece] at hfold
      exact ⟨path, rfl, hfold⟩
    · rename_i hmoves
      have hnamed : ¬ (piece = [] ∨ piece = ascii ".") := by
        rwa [staysPut, Bool.or_eq_true, beq_iff_eq, beq_iff_eq] at hmoves
      split at hstep
      · rename_i hup
        have hpiece : pieceComponent piece = some .parentDir := by
          rw [pieceComponent, if_neg hnamed, if_pos hup]
        rw [List.filterMap_cons_some hpiece, List.foldlM_cons] at hfold
        by_cases hroot : path = []
        · rw [targetStep, if_pos hroot] at hfold
          cases hfold
        · rw [targetStep, if_neg hroot] at hfold
          rw [if_neg hroot] at hstep
          cases hstep
          exact ⟨path.dropLast, rfl, hfold⟩
      · rename_i hnotUp
        have hpiece : pieceComponent piece = some (.normal piece) := by
          rw [pieceComponent, if_neg hnamed, if_neg hnotUp]
        rw [List.filterMap_cons_some hpiece, List.foldlM_cons] at hfold
        split at hstep
        · cases hstep
        · rename_i target hlookup
          -- the entry would be a link
          have hnode : tree.get? (path ++ [piece]) = some (.symlink target) := by
            rw [Node.get?_append, hdir, Option.bind_some, Node.get?_singleton]
            exact hlookup
          rw [Bool.not_eq_true] at hmoves
          simp only [crossesLink, hnode, hmoves, Bool.not_false, Bool.true_and, Bool.and_true,
            bne_eq_false_iff_eq] at hplain
          exact absurd hplain hnotUp
        · cases hstep
          exact ⟨path ++ [piece], rfl, hfold⟩
  · cases hstep

/-- A walk that crosses no link ends where the loop of `validate_symlink` stands
after the same pieces. -/
theorem foldlM_walk {tree : Node} {linkPath : Path} {after : List Bytes} {stack : Path} :
    ∀ {m : Nat} {path last : Path} {before : List Bytes},
      walk tree m ⟨.inside path, before⟩ = some ⟨.inside last, []⟩ →
      (∀ i w, i < m → walk tree i ⟨.inside path, before⟩ = some w →
        crossesLink tree w = false) →
      ((before ++ after).filterMap pieceComponent).foldlM (targetStep linkPath) path =
        .ok stack →
      (after.filterMap pieceComponent).foldlM (targetStep linkPath) last = .ok stack := by
  intro m
  induction m with
  | zero =>
      intro path last before hwalk _ hfold
      rw [walk, Option.some.injEq, Walk.mk.injEq, Location.inside.injEq] at hwalk
      obtain ⟨rfl, rfl⟩ := hwalk
      exact hfold
  | succ m ih =>
      intro path last before hwalk hplain hfold
      obtain ⟨next, hstep, hnext⟩ := walk_succ.mp hwalk
      cases before with
      | nil => exact absurd rfl (step_rest_ne_nil hstep)
      | cons piece before =>
          have hlong : step tree ⟨.inside path, piece :: (before ++ after)⟩ =
              some (next.append after) := by
            have happend : step tree (Walk.append ⟨.inside path, piece :: before⟩ after) =
                (step tree ⟨.inside path, piece :: before⟩).map fun w => w.append after :=
              step_append (List.cons_ne_nil piece before) after
            rw [hstep, Option.map_some] at happend
            exact happend
          have hhere := hplain 0 _ (Nat.succ_pos m) rfl
          obtain ⟨path', hpath', hfold'⟩ := foldlM_step hlong hhere hfold
          obtain ⟨location, rest⟩ := next
          rw [Walk.append, Walk.mk.injEq] at hpath'
          obtain ⟨rfl, hrest⟩ := hpath'
          obtain rfl : rest = before := List.append_cancel_right hrest
          refine ih hnext ?_ hfold'
          intro i w hi hw
          exact hplain (i + 1) w (Nat.succ_lt_succ hi) (walk_succ.mpr ⟨_, hstep, hw⟩)

/-! ## Containment -/

/-- `..` at the root of the tree leaves it. -/
theorem escapes_of_stepsUpAfterLink {tree : Node} (htree : tree.isDir = true)
    (h : StepsUpAfterLink tree) : ¬ LinksContained tree := by
  obtain ⟨path, name, target, before, after, hlink, hpieces, m, hwalk, _⟩ := h
  intro hcontained
  by_cases habsolute : absoluteTarget target = true
  · refine hcontained path name target hlink 0 _ rfl ?_
    rw [follow, if_pos habsolute]
  · have hstart : follow path target [] =
        Walk.append ⟨.inside path, before⟩ (ascii ".." :: after) := by
      rw [follow, if_neg habsolute, hpieces, List.append_nil, Walk.append]
    have hbefore : walk tree m (follow path target []) =
        some ⟨.inside [], ascii ".." :: after⟩ := by
      rw [hstart]
      exact walk_append hwalk _
    have hup : walk tree 1 ⟨.inside [], ascii ".." :: after⟩ = some ⟨.outside, after⟩ := by
      obtain ⟨entries, rfl⟩ : ∃ entries, tree = .dir entries := by
        cases tree with
        | dir entries => exact ⟨entries, rfl⟩
        | file contents nlink => cases htree
        | symlink target => cases htree
        | special => cases htree
      refine walk_succ.mpr ⟨⟨.outside, after⟩, ?_, rfl⟩
      simp only [step, Node.get?_nil]
      rw [if_neg (by decide), if_pos trivial, if_pos trivial]
    refine hcontained path name target hlink (m + 1) ⟨.outside, after⟩ ?_ rfl
    rw [walk_add, hbefore, Option.bind_some]
    exact hup

/-- In an accepted tree every escape is of this kind: the check has already ruled
out a `..` at the root after a part that crosses no link. -/
theorem stepsUpAfterLink_of_escapes {root : Path} {tree : Node}
    (haccepted : validateOutputTree root tree = .ok ())
    (hescapes : ¬ LinksContained tree) : StepsUpAfterLink tree := by
  unfold LinksContained at hescapes
  push Not at hescapes
  obtain ⟨path, name, target, hlink, n, w, hwalk, hout⟩ := hescapes
  have hrelative : ∀ path name target, IsLink tree path name target →
      absoluteTarget target = false := fun _ _ _ => absoluteTarget_of_isLink haccepted
  rw [follow, hrelative path name target hlink, if_neg Bool.false_ne_true,
    List.append_nil] at hwalk
  obtain ⟨path, name, target, before, after, m, hlink, hpieces, hroot⟩ :=
    exists_parent_at_root_of_escapes hrelative n path name target hlink
      ⟨n, w, le_refl n, hwalk, hout⟩
  refine ⟨path, name, target, before, after, hlink, hpieces, m, hroot, ?_⟩
  by_contra hplain
  push Not at hplain
  obtain ⟨_, stack, hfold⟩ := validateSymlink_ok (validateSymlink_of_isLink haccepted hlink)
  rw [hpieces] at hfold
  have hrest := foldlM_walk hroot
    (fun i w hi hw => Bool.eq_false_iff.mpr (hplain i w hi hw)) hfold
  -- the loop of `validate_symlink` has refused the `..`
  rw [List.filterMap_cons_some (show pieceComponent (ascii "..") = some .parentDir by decide),
    List.foldlM_cons, targetStep, if_pos rfl] at hrest
  cases hrest

/-- The links of an accepted tree stay inside the prefix exactly when no target
steps up after a part that goes through a link back to the prefix root.  The tree is any tree
that the check accepts, and is followed as it was checked. -/
theorem linksContained_iff {root : Path} {tree : Node}
    (haccepted : validateOutputTree root tree = .ok ()) :
    LinksContained tree ↔ ¬ StepsUpAfterLink tree := by
  constructor
  · intro hcontained h
    exact escapes_of_stepsUpAfterLink (validateOutputTree_eq_ok_iff.mp haccepted).1 h hcontained
  · intro h
    by_contra hescapes
    exact h (stepsUpAfterLink_of_escapes haccepted hescapes)

/-- `a/l` is a link to `..`, and `x` one to `a/l/..`: the text of `x` stays at `a`,
its resolution steps out of the root. -/
def climbingTree : Node :=
  .dir [
    (ascii "a", .dir [(ascii "l", .symlink (ascii ".."))]),
    (ascii "x", .symlink (ascii "a/l/.."))]

/-- `linksContained_iff` on a tree that the check accepts. -/
theorem linksContained_iff_climbingTree :
    validateOutputTree [] climbingTree = .ok () ∧
      (LinksContained climbingTree ↔ ¬ StepsUpAfterLink climbingTree) :=
  ⟨rfl, linksContained_iff (show validateOutputTree [] climbingTree = .ok () from rfl)⟩

/-- The check does not contain every accepted tree. -/
theorem accepted_tree_escapes :
    ¬ ∀ root tree, validateOutputTree root tree = .ok () → LinksContained tree := by
  intro h
  have hlink : IsLink climbingTree [] (ascii "x") (ascii "a/l/..") := rfl
  exact h [] climbingTree rfl [] (ascii "x") (ascii "a/l/..") hlink 4 ⟨.outside, []⟩
    (by decide) rfl

end Prep.Store
