/-
  Fs/Resolve.lean --- path resolution of the operating system inside a tree.

  A walk stands at a real directory and has pieces left to go.  A name that is a
  symbolic link is replaced by the pieces of its target; `..` is the parent of the
  real directory, so at the root of the tree it leaves the tree.  The walk is not
  bounded by a link count: what a bounded kernel walk visits, this walk visits.
-/
import Prep.Fs.Tree

set_option autoImplicit false

namespace Prep.Fs

open Prep.Text

/-- A node of the tree by its real path, or somewhere outside the tree. -/
inductive Location where
  | inside (path : Path)
  | outside
  deriving DecidableEq, Repr

/-- A walk: where it stands and the pieces still to resolve. -/
structure Walk where
  location : Location
  rest : List Bytes
  deriving DecidableEq, Repr

namespace Walk

/-- The walk with more pieces to resolve afterwards. -/
def append (w : Walk) (pieces : List Bytes) : Walk := ⟨w.location, w.rest ++ pieces⟩

@[simp] theorem append_location (w : Walk) (pieces : List Bytes) :
    (w.append pieces).location = w.location := rfl

@[simp] theorem append_rest (w : Walk) (pieces : List Bytes) :
    (w.append pieces).rest = w.rest ++ pieces := rfl

@[simp] theorem append_nil (w : Walk) : w.append [] = w := by
  rw [append, List.append_nil]

end Walk

/-- Whether a link target starts at the root of the file system. -/
def absoluteTarget (target : Bytes) : Bool := target.head? == some 47

/-- The pieces of a path between its slashes. -/
def pieces (path : Bytes) : List Bytes := path.splitOn 47

/-- Follow a link found in the directory `path`. -/
def follow (path : Path) (target : Bytes) (rest : List Bytes) : Walk :=
  ⟨if absoluteTarget target then .outside else .inside path, pieces target ++ rest⟩

/-- Whether a piece stays in the directory it is resolved in. -/
def staysPut (piece : Bytes) : Bool := piece == [] || piece == ascii "."

/-- One step of the walk; `none` when it has arrived, has left the tree, or fails
(no such entry, or not a directory). -/
def step (tree : Node) (w : Walk) : Option Walk :=
  match w.location, w.rest with
  | .outside, _ => none
  | .inside _, [] => none
  | .inside path, piece :: rest =>
      match tree.get? path with
      | some (.dir entries) =>
          if staysPut piece then some ⟨.inside path, rest⟩
          else if piece = ascii ".." then
            some ⟨if path = [] then .outside else .inside path.dropLast, rest⟩
          else
            match entries.lookup piece with
            | none => none
            | some (.symlink target) => some (follow path target rest)
            | some _ => some ⟨.inside (path ++ [piece]), rest⟩
      | _ => none

/-- Whether the next step follows a link. -/
def crossesLink (tree : Node) (w : Walk) : Bool :=
  match w.location, w.rest with
  | .inside path, piece :: _ =>
      !staysPut piece && piece != ascii ".." &&
        match tree.get? (path ++ [piece]) with
        | some (.symlink _) => true
        | _ => false
  | _, _ => false

/-- The walk after `n` steps. -/
def walk (tree : Node) : Nat → Walk → Option Walk
  | 0, w => some w
  | n + 1, w => (step tree w).bind (walk tree n)

/-- The walk leaves the tree within `n` steps. -/
def EscapesWithin (tree : Node) (n : Nat) (w : Walk) : Prop :=
  ∃ m w', m ≤ n ∧ walk tree m w = some w' ∧ w'.location = .outside

/-- The tree holds a link with this target in the directory `path`. -/
def IsLink (tree : Node) (path : Path) (name target : Bytes) : Prop :=
  tree.get? (path ++ [name]) = some (.symlink target)

/-! ## Walks and longer walks -/

variable {tree : Node}

theorem step_append {w : Walk} (hrest : w.rest ≠ []) (more : List Bytes) :
    step tree (w.append more) = (step tree w).map (·.append more) := by
  obtain ⟨location, rest⟩ := w
  cases rest with
  | nil => exact absurd rfl hrest
  | cons piece rest =>
      cases location with
      | outside => rfl
      | inside path =>
          simp only [step, Walk.append, List.cons_append]
          cases tree.get? path with
          | none => rfl
          | some node =>
              cases node with
              | file contents nlink => rfl
              | symlink target => rfl
              | special => rfl
              | dir entries =>
                  simp only
                  split
                  · rfl
                  · split
                    · rfl
                    · cases entries.lookup piece with
                      | none => rfl
                      | some next =>
                          cases next with
                          | symlink target =>
                              simp only [Option.map_some, follow, List.append_assoc]
                          | file contents nlink => rfl
                          | special => rfl
                          | dir inner => rfl

theorem step_rest_ne_nil {w w' : Walk} (h : step tree w = some w') : w.rest ≠ [] := by
  intro hnil
  obtain ⟨location, rest⟩ := w
  cases hnil
  cases location <;> cases h

theorem walk_succ {n : Nat} {w w' : Walk} :
    walk tree (n + 1) w = some w' ↔
      ∃ next, step tree w = some next ∧ walk tree n next = some w' := by
  rw [walk, Option.bind_eq_some_iff]

theorem walk_add (m n : Nat) (w : Walk) :
    walk tree (m + n) w = (walk tree m w).bind (walk tree n) := by
  induction m generalizing w with
  | zero => rw [Nat.zero_add, walk, Option.bind_some]
  | succ m ih =>
      rw [Nat.succ_add, walk, walk, Option.bind_assoc]
      cases step tree w with
      | none => rfl
      | some next => exact ih next

/-- Pieces to resolve later do not disturb a walk. -/
theorem walk_append {n : Nat} {w w' : Walk} (h : walk tree n w = some w')
    (more : List Bytes) : walk tree n (w.append more) = some (w'.append more) := by
  induction n generalizing w with
  | zero =>
      rw [walk, Option.some.injEq] at h
      rw [walk, h]
  | succ n ih =>
      obtain ⟨next, hstep, hwalk⟩ := walk_succ.mp h
      refine walk_succ.mpr ⟨next.append more, ?_, ih hwalk⟩
      rw [step_append (step_rest_ne_nil hstep), hstep, Option.map_some]

/-- A walk that leaves the tree leaves it during its first pieces, or arrives
somewhere inside and leaves during the others. -/
theorem escapesWithin_append {n : Nat} {w : Walk} {more : List Bytes}
    (h : EscapesWithin tree n (w.append more)) :
    EscapesWithin tree n w ∨
      ∃ m path, m ≤ n ∧ walk tree m w = some ⟨.inside path, []⟩ ∧
        EscapesWithin tree (n - m) ⟨.inside path, more⟩ := by
  induction n generalizing w with
  | zero =>
      obtain ⟨m, w', hm, hwalk, hout⟩ := h
      obtain rfl : m = 0 := Nat.le_zero.mp hm
      rw [walk, Option.some.injEq] at hwalk
      refine Or.inl ⟨0, w, le_refl 0, rfl, ?_⟩
      rw [← hwalk] at hout
      exact hout
  | succ n ih =>
      obtain ⟨location, rest⟩ := w
      cases location with
      | outside => exact Or.inl ⟨0, _, Nat.zero_le _, rfl, rfl⟩
      | inside path =>
          cases rest with
          | nil => exact Or.inr ⟨0, path, Nat.zero_le _, rfl, h⟩
          | cons piece rest =>
              obtain ⟨m, w', hm, hwalk, hout⟩ := h
              cases m with
              | zero =>
                  rw [walk, Option.some.injEq] at hwalk
                  rw [← hwalk] at hout
                  cases hout
              | succ m =>
                  obtain ⟨next, hstep, hnext⟩ := walk_succ.mp hwalk
                  rw [step_append (List.cons_ne_nil piece rest)] at hstep
                  obtain ⟨first, hfirst, rfl⟩ := Option.map_eq_some_iff.mp hstep
                  rcases ih ⟨m, w', Nat.le_of_succ_le_succ hm, hnext, hout⟩ with
                    ⟨k, w'', hk, hwalk'', hout''⟩ | ⟨k, path', hk, hwalk'', hescapes⟩
                  · exact Or.inl ⟨k + 1, w'', Nat.succ_le_succ hk,
                      walk_succ.mpr ⟨first, hfirst, hwalk''⟩, hout''⟩
                  · refine Or.inr ⟨k + 1, path', Nat.succ_le_succ hk,
                      walk_succ.mpr ⟨first, hfirst, hwalk''⟩, ?_⟩
                    rw [Nat.succ_sub_succ]
                    exact hescapes

/-- A walk with nothing to resolve stays where it is. -/
theorem not_escapesWithin_arrived {n : Nat} {path : Path} :
    ¬ EscapesWithin tree n ⟨.inside path, []⟩ := by
  rintro ⟨m, w', _, hwalk, hout⟩
  cases m with
  | zero =>
      rw [walk, Option.some.injEq] at hwalk
      rw [← hwalk] at hout
      cases hout
  | succ m =>
      obtain ⟨next, hstep, _⟩ := walk_succ.mp hwalk
      cases hstep

/-! ## The cause of an escape -/

/-- A single piece leads outside only as `..` at the root of the tree, or as a
link whose own target leads outside in fewer steps. -/
theorem escapesWithin_piece {n : Nat} {path : Path} {piece : Bytes}
    (hrelative : ∀ path name target, IsLink tree path name target →
      absoluteTarget target = false)
    (h : EscapesWithin tree n ⟨.inside path, [piece]⟩) :
    (piece = ascii ".." ∧ path = []) ∨
      ∃ k target, n = k + 1 ∧ IsLink tree path piece target ∧
        EscapesWithin tree k ⟨.inside path, pieces target⟩ := by
  obtain ⟨m, w', hm, hwalk, hout⟩ := h
  cases m with
  | zero =>
      rw [walk, Option.some.injEq] at hwalk
      rw [← hwalk] at hout
      cases hout
  | succ m =>
      obtain ⟨k, rfl⟩ : ∃ k, n = k + 1 := ⟨n - 1, by omega⟩
      obtain ⟨next, hstep, hnext⟩ := walk_succ.mp hwalk
      have hescapes : EscapesWithin tree k next :=
        ⟨m, w', Nat.le_of_succ_le_succ hm, hnext, hout⟩
      simp only [step] at hstep
      split at hstep
      · rename_i entries hdir
        split at hstep
        · cases hstep
          exact absurd hescapes not_escapesWithin_arrived
        · split at hstep
          · rename_i hup
            by_cases hroot : path = []
            · exact Or.inl ⟨hup, hroot⟩
            · rw [if_neg hroot] at hstep
              cases hstep
              exact absurd hescapes not_escapesWithin_arrived
          · split at hstep
            · cases hstep
            · rename_i target hlookup
              have hlink : IsLink tree path piece target := by
                rw [IsLink, Node.get?_append, hdir, Option.bind_some, Node.get?_singleton]
                exact hlookup
              rw [follow, hrelative path piece target hlink, if_neg Bool.false_ne_true,
                List.append_nil, Option.some.injEq] at hstep
              rw [← hstep] at hescapes
              exact Or.inr ⟨k, target, rfl, hlink, hescapes⟩
            · cases hstep
              exact absurd hescapes not_escapesWithin_arrived
      · cases hstep

/-- When no link is absolute, an escape goes back to a link whose own target
steps up from the root of the tree.  The proof is by strong induction on the
length of the walk: a link met on the way escapes in fewer steps. -/
theorem exists_parent_at_root_of_escapes
    (hrelative : ∀ path name target, IsLink tree path name target →
      absoluteTarget target = false) :
    ∀ (n : Nat) (path : Path) (name target : Bytes), IsLink tree path name target →
      EscapesWithin tree n ⟨.inside path, pieces target⟩ →
      ∃ path name target before after m, IsLink tree path name target ∧
        pieces target = before ++ ascii ".." :: after ∧
        walk tree m ⟨.inside path, before⟩ = some ⟨.inside [], []⟩ := by
  intro n
  induction n using Nat.strong_induction_on with
  | _ n ih =>
      intro path name target hlink hescapes
      -- the pieces of `before` are resolved, those of `after` lead outside
      suffices hsplit : ∀ (after before : List Bytes) (current : Path) (m k : Nat),
          k ≤ n → pieces target = before ++ after →
          walk tree m ⟨.inside path, before⟩ = some ⟨.inside current, []⟩ →
          EscapesWithin tree k ⟨.inside current, after⟩ →
          ∃ path name target before after m, IsLink tree path name target ∧
            pieces target = before ++ ascii ".." :: after ∧
            walk tree m ⟨.inside path, before⟩ = some ⟨.inside [], []⟩ from
        hsplit (pieces target) [] path 0 n (le_refl n) rfl rfl hescapes
      intro after
      induction after with
      | nil =>
          intro before current m k _ _ _ hk
          exact absurd hk not_escapesWithin_arrived
      | cons piece after ihAfter =>
          intro before current m k hkn hpieces hwalk hk
          have hone : (⟨.inside current, piece :: after⟩ : Walk) =
              Walk.append ⟨.inside current, [piece]⟩ after := rfl
          rw [hone] at hk
          rcases escapesWithin_append hk with hfirst | ⟨j, next, hj, hnext, hrest⟩
          · rcases escapesWithin_piece hrelative hfirst with
              ⟨rfl, rfl⟩ | ⟨k', target', hk', hlink', hescapes'⟩
            · exact ⟨path, name, target, before, after, m, hlink, hpieces, hwalk⟩
            · exact ih k' (by omega) current piece target' hlink' hescapes'
          · refine ihAfter (before ++ [piece]) next (m + j) (k - j) (by omega) ?_ ?_ hrest
            · rw [hpieces, List.append_assoc, List.singleton_append]
            · have hbefore : walk tree m ⟨.inside path, before ++ [piece]⟩ =
                  some ⟨.inside current, [piece]⟩ := walk_append hwalk [piece]
              rw [walk_add, hbefore, Option.bind_some]
              exact hnext

end Prep.Fs
