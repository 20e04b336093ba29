/-
  Fs/Removal.lean --- removing a tree one leaf at a time comes to an end.
-/
import Prep.Fs.Update

set_option autoImplicit false

namespace Prep.Fs

open Prep.Text

namespace Node

mutual

/-- How many nodes a tree has. -/
def size : Node → Nat
  | .dir entries => sizes entries + 1
  | _ => 1

/-- The same for the entries of a directory. -/
def sizes : List (Bytes × Node) → Nat
  | [] => 0
  | (_, node) :: rest => node.size + sizes rest

end

theorem size_pos (node : Node) : 0 < node.size := by
  cases node <;> exact Nat.succ_pos _

section Sizes

variable {entries : List (Bytes × Node)} {f : Bytes × Node → Bytes × Node}

theorem sizes_map_le (h : ∀ entry, (f entry).2.size ≤ entry.2.size) :
    sizes (entries.map f) ≤ sizes entries := by
  induction entries with
  | nil => exact le_rfl
  | cons entry rest ih => exact Nat.add_le_add (h entry) ih

theorem sizes_map_lt (h : ∀ entry, (f entry).2.size ≤ entry.2.size) {entry : Bytes × Node}
    (hmem : entry ∈ entries) (hlt : (f entry).2.size < entry.2.size) :
    sizes (entries.map f) < sizes entries := by
  induction entries with
  | nil => cases hmem
  | cons first rest ih =>
      rcases List.mem_cons.mp hmem with rfl | hrest
      · exact Nat.add_lt_add_of_lt_of_le hlt (sizes_map_le h)
      · exact Nat.add_lt_add_of_le_of_lt (h first) (ih hrest)

theorem sizes_filter_le (keep : Bytes × Node → Bool) :
    sizes (entries.filter keep) ≤ sizes entries := by
  induction entries with
  | nil => exact le_rfl
  | cons first rest ih =>
      rw [List.filter_cons]
      split
      · exact Nat.add_le_add_left ih _
      · exact ih.trans (Nat.le_add_left _ _)

theorem sizes_filter_lt {keep : Bytes × Node → Bool} {entry : Bytes × Node}
    (hmem : entry ∈ entries) (hkeep : keep entry = false) :
    sizes (entries.filter keep) < sizes entries := by
  induction entries with
  | nil => cases hmem
  | cons first rest ih =>
      rcases List.mem_cons.mp hmem with rfl | hrest
      · rw [List.filter_cons_of_neg (Bool.eq_false_iff.mp hkeep)]
        exact (sizes_filter_le keep).trans_lt (Nat.lt_add_of_pos_left (size_pos _))
      · rw [List.filter_cons]
        split
        · exact Nat.add_lt_add_left (ih hrest) _
        · exact (ih hrest).trans_le (Nat.le_add_left _ _)

end Sizes

theorem size_modifyAt_le {f : Node → Node} (h : ∀ node, (f node).size ≤ node.size) (path : Path)
    (node : Node) : (node.modifyAt f path).size ≤ node.size := by
  induction path generalizing node with
  | nil => exact h node
  | cons name rest ih =>
      cases node with
      | dir entries =>
          refine Nat.succ_le_succ (sizes_map_le fun entry => ?_)
          split
          · exact ih entry.2
          · exact le_rfl
      | file | symlink | special => exact le_rfl

theorem size_modifyAt_lt {f : Node → Node} (h : ∀ node, (f node).size ≤ node.size) {path : Path}
    {node found : Node} (hfound : node.get? path = some found)
    (hlt : (f found).size < found.size) : (node.modifyAt f path).size < node.size := by
  induction path generalizing node with
  | nil =>
      rw [get?_nil] at hfound
      cases hfound
      exact hlt
  | cons name rest ih =>
      rw [get?_cons] at hfound
      obtain ⟨next, hchild, hrest⟩ := Option.bind_eq_some_iff.mp hfound
      obtain ⟨entries, rfl, hmem⟩ := mem_of_child hchild
      refine Nat.succ_lt_succ (sizes_map_lt (fun entry => ?_) hmem ?_)
      · split
        · exact size_modifyAt_le h rest entry.2
        · exact le_rfl
      · rw [if_pos rfl]
        exact ih hrest

theorem size_dropEntry_le (name : Bytes) (node : Node) :
    (dropEntry name node).size ≤ node.size := by
  cases node with
  | dir entries => exact Nat.succ_le_succ (sizes_filter_le _)
  | file | symlink | special => exact le_rfl

/-- A tree without one of its nodes is smaller. -/
theorem size_removeAt_lt {node : Node} {below : Path} (hne : below ≠ [])
    (h : (node.get? below).isSome = true) : (node.removeAt below).size < node.size := by
  obtain ⟨parent, name, rfl⟩ : ∃ parent name, below = parent ++ [name] :=
    ⟨below.dropLast, below.getLast hne, (List.dropLast_append_getLast hne).symm⟩
  obtain ⟨found, hfound⟩ := Option.isSome_iff_exists.mp h
  rw [get?_append] at hfound
  obtain ⟨directory, hparent, hname⟩ := Option.bind_eq_some_iff.mp hfound
  rw [get?_singleton] at hname
  obtain ⟨entries, rfl, hmem⟩ := mem_of_child hname
  unfold removeAt
  rw [List.dropLast_concat, List.getLastD_concat]
  refine size_modifyAt_lt (size_dropEntry_le name) hparent (Nat.succ_lt_succ ?_)
  refine sizes_filter_lt hmem ?_
  rw [bne_self_eq_false]

/-- Below a node that is no leaf there is one. -/
theorem exists_leaf (node : Node) : ∃ below, (node.get? below).any isLeaf = true ∧
    (node.isLeaf = false → below ≠ []) := by
  induction node using Node.induction with
  | file | symlink | special => exact ⟨[], rfl, fun h => by cases h⟩
  | dir entries ih =>
      cases entries with
      | nil => exact ⟨[], rfl, fun h => by cases h⟩
      | cons entry rest =>
          obtain ⟨name, next⟩ := entry
          obtain ⟨below, hleaf, _⟩ := ih name next List.mem_cons_self
          have hchild : (Node.dir ((name, next) :: rest)).child name = some next := by
            rw [child, List.lookup_cons, beq_self_eq_true]
          refine ⟨name :: below, ?_, fun _ => List.cons_ne_nil _ _⟩
          rw [get?_cons, hchild, Option.bind_some]
          exact hleaf

end Node

end Prep.Fs
