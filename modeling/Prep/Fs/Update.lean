/-
  Fs/Update.lean --- changes of a tree in one place.

  A tree is seen through the shapes of its nodes: what stands at a path, leaving out
  what a directory holds.  Adding an entry to a directory and rewriting a file are
  then updates of one function in one place.
-/
import Mathlib.Logic.Function.Basic
import Prep.Fs.Tree

set_option autoImplicit false

namespace Prep.Fs

open Prep.Text

/-- A node without what a directory holds. -/
inductive Shape where
  | file (contents : Bytes) (nlink : Nat)
  | symlink (target : Bytes)
  | special
  | dir
  deriving DecidableEq, Repr

namespace Node

def shape : Node → Shape
  | .file contents nlink => .file contents nlink
  | .symlink target => .symlink target
  | .special => .special
  | .dir _ => .dir

/-- The shape of the node at a path. -/
def shapeAt (node : Node) (path : Path) : Option Shape := (node.get? path).map shape

@[simp] theorem shapeAt_nil (node : Node) : node.shapeAt [] = some node.shape := by
  rw [shapeAt, get?_nil, Option.map_some]

theorem shapeAt_cons (node : Node) (name : Bytes) (rest : Path) :
    node.shapeAt (name :: rest) = (node.child name).bind fun next => next.shapeAt rest := by
  rw [shapeAt, get?_cons, Option.map_bind]
  rfl

theorem shapeAt_append (node : Node) (left right : Path) :
    node.shapeAt (left ++ right) = (node.get? left).bind fun next => next.shapeAt right := by
  rw [shapeAt, get?_append, Option.map_bind]
  rfl

theorem get?_of_shapeAt_dir {node : Node} {path : Path} (h : node.shapeAt path = some .dir) :
    ∃ entries, node.get? path = some (.dir entries) := by
  obtain ⟨next, hnext, hshape⟩ := Option.map_eq_some_iff.mp h
  cases next with
  | dir entries => exact ⟨entries, hnext⟩
  | file contents nlink => cases hshape
  | symlink target => cases hshape
  | special => cases hshape

theorem get?_of_shapeAt_file {node : Node} {path : Path} {contents : Bytes} {nlink : Nat}
    (h : node.shapeAt path = some (.file contents nlink)) :
    node.get? path = some (.file contents nlink) := by
  obtain ⟨next, hnext, hshape⟩ := Option.map_eq_some_iff.mp h
  cases next with
  | file contents nlink =>
      cases hshape
      exact hnext
  | dir entries => cases hshape
  | symlink target => cases hshape
  | special => cases hshape

/-- What a directory holds is seen one name further down. -/
theorem shapeAt_concat {node : Node} {path : Path} {entries : List (Bytes × Node)}
    (h : node.get? path = some (.dir entries)) (name : Bytes) :
    node.shapeAt (path ++ [name]) = (entries.lookup name).map shape := by
  rw [shapeAt_append, h, Option.bind_some, shapeAt, get?_singleton]
  rfl

/-! ## One place -/

/-- A tree with its node at a path replaced. -/
def modifyAt (f : Node → Node) : Path → Node → Node
  | [], node => f node
  | name :: rest, .dir entries =>
      .dir (entries.map fun entry =>
        if entry.1 = name then (entry.1, modifyAt f rest entry.2) else entry)
  | _ :: _, node => node

theorem lookup_map_at (f : Node → Node) (name other : Bytes) (entries : List (Bytes × Node)) :
    (entries.map fun entry => if entry.1 = name then (entry.1, f entry.2) else entry).lookup other =
      if other = name then (entries.lookup name).map f else entries.lookup other := by
  induction entries with
  | nil => simp
  | cons entry entries ih =>
      rw [List.map_cons, List.lookup_cons, ih, List.lookup_cons, List.lookup_cons]
      rcases eq_or_ne other name with rfl | hother
      · rcases eq_or_ne entry.1 other with hentry | hentry
        · simp [hentry]
        · simp [hentry, beq_eq_false_iff_ne.mpr hentry.symm]
      · rcases eq_or_ne entry.1 name with hentry | hentry
        · simp [hentry, hother, beq_eq_false_iff_ne.mpr hother]
        · simp [hentry, hother]

theorem child_modifyAt (f : Node → Node) (name : Bytes) (rest : Path) (node : Node)
    (other : Bytes) :
    (modifyAt f (name :: rest) node).child other =
      if other = name then (node.child name).map (modifyAt f rest) else node.child other := by
  cases node with
  | dir entries => exact lookup_map_at (modifyAt f rest) name other entries
  | file contents nlink => simp [modifyAt, child]
  | symlink target => simp [modifyAt, child]
  | special => simp [modifyAt, child]

theorem shape_modifyAt_cons (f : Node → Node) (name : Bytes) (rest : Path) (node : Node) :
    (modifyAt f (name :: rest) node).shape = node.shape := by
  cases node <;> rfl

/-- Below the place, the new node is seen. -/
theorem get?_modifyAt_append (f : Node → Node) (path below : Path) (node : Node) :
    (modifyAt f path node).get? (path ++ below) =
      (node.get? path).bind fun next => (f next).get? below := by
  induction path generalizing node with
  | nil => rw [modifyAt, List.nil_append, get?_nil, Option.bind_some]
  | cons name rest ih =>
      rw [List.cons_append, get?_cons, child_modifyAt, if_pos rfl, get?_cons, Option.bind_assoc,
        Option.bind_map]
      exact congrArg _ (funext fun next => ih next)

theorem shapeAt_modifyAt_append (f : Node → Node) (path below : Path) (node : Node) :
    (modifyAt f path node).shapeAt (path ++ below) =
      (node.get? path).bind fun next => (f next).shapeAt below := by
  rw [shapeAt, get?_modifyAt_append, Option.map_bind]
  rfl

/-- Everywhere else nothing has changed. -/
theorem shapeAt_modifyAt_of_not_below (f : Node → Node) {path other : Path}
    (h : ¬ path <+: other) (node : Node) :
    (modifyAt f path node).shapeAt other = node.shapeAt other := by
  induction path generalizing other node with
  | nil => exact absurd List.nil_prefix h
  | cons name rest ih =>
      cases other with
      | nil => rw [shapeAt_nil, shapeAt_nil, shape_modifyAt_cons]
      | cons first other =>
          rw [shapeAt_cons, shapeAt_cons, child_modifyAt]
          split
          · rename_i heq
            obtain rfl := heq
            have hrest : ¬ rest <+: other := fun hbegins =>
              h (List.cons_prefix_cons.mpr ⟨rfl, hbegins⟩)
            rw [Option.bind_map]
            exact congrArg _ (funext fun next => ih hrest next)
          · rfl

/-! ## New entries -/

/-- A directory with one more entry. -/
def addEntry (name : Bytes) (next : Node) : Node → Node
  | .dir entries => .dir (entries ++ [(name, next)])
  | node => node

/-- An entry that holds nothing further changes the tree in one place. -/
theorem shapeAt_addEntry {node : Node} {path : Path} {entries : List (Bytes × Node)}
    {name : Bytes} {next : Node} (hdir : node.get? path = some (.dir entries))
    (hnew : entries.lookup name = none) (hleaf : ∀ first, next.child first = none) :
    (modifyAt (addEntry name next) path node).shapeAt =
      Function.update node.shapeAt (path ++ [name]) (some next.shape) := by
  have hbelow : ∀ first rest, (addEntry name next (.dir entries)).shapeAt (first :: rest) =
      if first = name then next.shapeAt rest
      else node.shapeAt (path ++ first :: rest) := by
    intro first rest
    rw [shapeAt_append, hdir, Option.bind_some, shapeAt_cons, shapeAt_cons, addEntry, child, child,
      List.lookup_append]
    split
    · rename_i heq
      rw [heq, hnew, Option.none_or, List.lookup_cons_self, Option.bind_some]
    · rename_i hne
      rw [List.lookup_cons, beq_eq_false_iff_ne.mpr hne, List.lookup_nil, Option.or_none]
  funext other
  by_cases hbegins : path <+: other
  · obtain ⟨below, rfl⟩ := hbegins
    rw [shapeAt_modifyAt_append, hdir, Option.bind_some]
    cases below with
    | nil =>
        rw [Function.update_of_ne, shapeAt_nil, List.append_nil, shapeAt, hdir]
        · rfl
        · rw [List.append_nil]
          exact fun heq => List.cons_ne_nil _ _ (List.self_eq_append_right.mp heq)
    | cons first rest =>
        rw [hbelow]
        split
        · rename_i heq
          obtain rfl := heq
          cases rest with
          | nil => rw [Function.update_self, shapeAt_nil]
          | cons second rest =>
              rw [Function.update_of_ne, shapeAt_cons, hleaf, Option.bind_none]
              · rw [shapeAt_append, hdir, Option.bind_some, shapeAt_cons, child, hnew,
                  Option.bind_none]
              · intro heq
                cases List.append_cancel_left heq
        · rename_i hne
          rw [Function.update_of_ne]
          intro heq
          exact hne (List.cons.inj (List.append_cancel_left heq)).1
  · rw [shapeAt_modifyAt_of_not_below _ hbegins, Function.update_of_ne]
    rintro rfl
    exact hbegins (List.prefix_append _ _)

/-! ## Removed entries -/

/-- A directory without an entry. -/
def dropEntry (name : Bytes) : Node → Node
  | .dir entries => .dir (entries.filter fun entry => entry.1 != name)
  | node => node

/-- A node that can be removed by itself. -/
def isLeaf : Node → Bool
  | .dir entries => entries.isEmpty
  | _ => true

/-- The tree without the leaf at a path. -/
def removeAt (path : Path) (node : Node) : Node :=
  node.modifyAt (dropEntry (path.getLastD [])) path.dropLast

/-! ## Rewritten files -/

/-- A file with more bytes at its end. -/
def appendContents (bytes : Bytes) : Node → Node
  | .file contents nlink => .file (contents ++ bytes) nlink
  | node => node

theorem shapeAt_appendContents {node : Node} {path : Path} {contents : Bytes} {nlink : Nat}
    (hfile : node.get? path = some (.file contents nlink)) (bytes : Bytes) :
    (modifyAt (appendContents bytes) path node).shapeAt =
      Function.update node.shapeAt path (some (.file (contents ++ bytes) nlink)) := by
  funext other
  by_cases hbegins : path <+: other
  · obtain ⟨below, rfl⟩ := hbegins
    rw [shapeAt_modifyAt_append, hfile, Option.bind_some, appendContents]
    cases below with
    | nil =>
        rw [List.append_nil, Function.update_self, shapeAt_nil]
        rfl
    | cons first rest =>
        rw [Function.update_of_ne, shapeAt_append, hfile, Option.bind_some, shapeAt_cons,
          shapeAt_cons]
        · rfl
        · exact fun heq => List.cons_ne_nil _ _ (List.append_right_eq_self.mp heq)
  · rw [shapeAt_modifyAt_of_not_below _ hbegins, Function.update_of_ne]
    rintro rfl
    exact hbegins (List.prefix_refl _)

end Node

end Prep.Fs
