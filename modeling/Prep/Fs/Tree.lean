/-
  Fs/Tree.lean --- finite directory trees.

  A tree is what `lstat` and `readdir` show of a directory: regular files with
  their link count, symbolic links with their uninterpreted target, other nodes,
  and directories.  Nothing here knows what the trees are used for.
-/
import Prep.Text.Bytes

set_option autoImplicit false

namespace Prep.Fs

open Prep.Text

/-- A path below some directory: the names on the way down. -/
abbrev Path : Type := List Bytes

/-- A node of a directory tree.  Names that occur twice in a directory are looked
up at their first entry. -/
inductive Node where
  | file (contents : Bytes) (nlink : Nat)
  | symlink (target : Bytes)
  | special
  | dir (entries : List (Bytes × Node))

namespace Node

/-- Every node satisfies what files, links and special nodes satisfy and what
directories inherit from their entries. -/
theorem induction {motive : Node → Prop}
    (file : ∀ contents nlink, motive (.file contents nlink))
    (symlink : ∀ target, motive (.symlink target))
    (special : motive .special)
    (dir : ∀ entries, (∀ name node, (name, node) ∈ entries → motive node) →
      motive (.dir entries)) :
    ∀ node, motive node := by
  intro node
  refine @Node.rec motive (fun entries => ∀ name node, (name, node) ∈ entries → motive node)
    (fun entry => motive entry.2) file symlink special dir ?_ ?_ ?_ node
  · intro name node h
    cases h
  · intro head tail hhead htail name node h
    cases h with
    | head => exact hhead
    | tail _ h => exact htail name node h
  · intro name node h
    exact h

/-- `lstat(..).is_dir()`. -/
def isDir : Node → Bool
  | .dir _ => true
  | _ => false

mutual

/-- Whether the tree holds a node that is no file, link or directory. -/
def hasSpecial : Node → Bool
  | .special => true
  | .dir entries => anySpecial entries
  | _ => false

/-- The same for the entries of a directory. -/
def anySpecial : List (Bytes × Node) → Bool
  | [] => false
  | (_, node) :: rest => node.hasSpecial || anySpecial rest

end

/-- The node a directory holds under a name. -/
def child (name : Bytes) : Node → Option Node
  | .dir entries => entries.lookup name
  | _ => none

/-- The node at a path, going through directories only. -/
def get? : Node → Path → Option Node
  | node, [] => some node
  | node, name :: rest => (node.child name).bind fun next => next.get? rest

@[simp] theorem get?_nil (node : Node) : node.get? [] = some node := by
  cases node <;> rfl

theorem get?_cons (node : Node) (name : Bytes) (rest : Path) :
    node.get? (name :: rest) = (node.child name).bind fun next => next.get? rest := by
  cases node <;> rfl

theorem get?_append (node : Node) (left right : Path) :
    node.get? (left ++ right) = (node.get? left).bind fun next => next.get? right := by
  induction left generalizing node with
  | nil => rw [List.nil_append, get?_nil, Option.bind_some]
  | cons name left ih =>
      rw [List.cons_append, get?_cons, get?_cons, Option.bind_assoc]
      cases node.child name with
      | none => rfl
      | some next => exact ih next

theorem get?_singleton (node : Node) (name : Bytes) : node.get? [name] = node.child name := by
  rw [get?_cons]
  cases node.child name with
  | none => rfl
  | some next => exact get?_nil next

theorem mem_of_child {name : Bytes} {node next : Node} (h : node.child name = some next) :
    ∃ entries, node = .dir entries ∧ (name, next) ∈ entries := by
  cases node with
  | dir entries =>
      obtain ⟨_, hmem, hname⟩ : ∃ entry, entry ∈ entries ∧ entry = (name, next) := by
        rw [child, List.lookup_eq_some_iff] at h
        obtain ⟨before, after, rfl, _⟩ := h
        exact ⟨(name, next), by simp, rfl⟩
      subst hname
      exact ⟨entries, rfl, hmem⟩
  | file contents nlink => cases h
  | symlink target => cases h
  | special => cases h

end Node

end Prep.Fs
