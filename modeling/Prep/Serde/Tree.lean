/-
  Serde/Tree.lean --- the data trees that text formats are written from and read into.

  A tree is one step away from the text: a format has only to write trees and read them
  back, and a type has only to say which trees its values are.  Maps keep the order
  their entries have in the text, and a key that is written twice is there twice.
-/
import Prep.Text.Bytes

set_option autoImplicit false

namespace Prep.Serde

open Prep.Text

/-- A data tree.  `other` is a value of the format that is none of these: a number that
is no integer of 64 bits, a date. -/
inductive Tree where
  | null
  | bool (value : Bool)
  | integer (value : Int)
  | other (text : Bytes)
  | string (value : Bytes)
  | seq (items : List Tree)
  | map (entries : List (Bytes × Tree))

/-- The scalars a format can carry. -/
structure Limits where
  null : Prop
  integer : Int → Prop
  string : Bytes → Prop

namespace Tree

/-! ## What a format can carry -/

/-- A tree a format can carry: its scalars are, no map has a key twice, and no more than
`depth` lists and maps stand in each other. -/
def Fits (limits : Limits) : Nat → Tree → Prop
  | _, .null => limits.null
  | _, .bool _ => True
  | _, .integer value => limits.integer value
  | _, .other _ => False
  | _, .string value => limits.string value
  | 0, .seq _ => False
  | 0, .map _ => False
  | depth + 1, .seq items => ∀ item ∈ items, item.Fits limits depth
  | depth + 1, .map entries => (entries.map (·.1)).Nodup ∧
      ∀ entry ∈ entries, limits.string entry.1 ∧ entry.2.Fits limits depth

/-- Every string in a tree, keys included, is one of `ok`. -/
def AllStrings (ok : Bytes → Prop) : Nat → Tree → Prop
  | _, .string value => ok value
  | depth + 1, .seq items => ∀ item ∈ items, item.AllStrings ok depth
  | depth + 1, .map entries => ∀ entry ∈ entries, ok entry.1 ∧ entry.2.AllStrings ok depth
  | _, _ => True

variable {limits : Limits} {depth : Nat}

/-- A tree that fits still fits when more depth is allowed. -/
theorem Fits.mono {tree : Tree} (h : tree.Fits limits depth) {deeper : Nat}
    (hle : depth ≤ deeper) : tree.Fits limits deeper := by
  induction depth generalizing tree deeper with
  | zero =>
      cases tree with
      | seq items => cases h
      | map entries => cases h
      | _ => cases deeper <;> exact h
  | succ depth ih =>
      obtain ⟨deeper, rfl⟩ : ∃ d, deeper = d + 1 := ⟨deeper - 1, by omega⟩
      have hle' : depth ≤ deeper := Nat.le_of_succ_le_succ hle
      cases tree with
      | seq items => exact fun item hitem => ih (h item hitem) hle'
      | map entries =>
          exact ⟨h.1, fun entry hentry =>
            ⟨(h.2 entry hentry).1, ih (h.2 entry hentry).2 hle'⟩⟩
      | _ => exact h

/-- Strings may be limited after the fact. -/
theorem Fits.withStrings {tree : Tree} {ok : Bytes → Prop} (h : tree.Fits limits depth)
    (hstrings : tree.AllStrings ok depth) :
    tree.Fits { limits with string := fun s => limits.string s ∧ ok s } depth := by
  induction depth generalizing tree with
  | zero =>
      cases tree with
      | string value => exact ⟨h, hstrings⟩
      | _ => exact h
  | succ depth ih =>
      cases tree with
      | string value => exact ⟨h, hstrings⟩
      | seq items => exact fun item hitem => ih (h item hitem) (hstrings item hitem)
      | map entries =>
          refine ⟨h.1, fun entry hentry => ⟨⟨(h.2 entry hentry).1, (hstrings entry hentry).1⟩, ?_⟩⟩
          exact ih (h.2 entry hentry).2 (hstrings entry hentry).2
      | _ => exact h

/-- A format may be weakened. -/
theorem Fits.imp {tree : Tree} {weaker : Limits} (h : tree.Fits limits depth)
    (hnull : limits.null → weaker.null) (hinteger : ∀ n, limits.integer n → weaker.integer n)
    (hstring : ∀ s, limits.string s → weaker.string s) : tree.Fits weaker depth := by
  induction depth generalizing tree with
  | zero =>
      cases tree with
      | null => exact hnull h
      | integer value => exact hinteger value h
      | string value => exact hstring value h
      | _ => exact h
  | succ depth ih =>
      cases tree with
      | null => exact hnull h
      | integer value => exact hinteger value h
      | string value => exact hstring value h
      | seq items => exact fun item hitem => ih (h item hitem)
      | map entries =>
          exact ⟨h.1, fun entry hentry =>
            ⟨hstring _ (h.2 entry hentry).1, ih (h.2 entry hentry).2⟩⟩
      | _ => exact h

/-! ## The same data -/

/-- Trees that differ at most in the order of the entries of their maps. -/
def Same : Nat → Tree → Tree → Prop
  | depth + 1, .seq left, .seq right => List.Forall₂ (Same depth) left right
  | depth + 1, .map left, .map right => ∃ mid : List (Bytes × Tree), mid.Perm right ∧
      List.Forall₂ (fun a b => a.1 = b.1 ∧ Same depth a.2 b.2) left mid
  | _, left, right => left = right

theorem Same.refl (depth : Nat) (tree : Tree) : Same depth tree tree := by
  induction depth generalizing tree with
  | zero => cases tree <;> rfl
  | succ depth ih =>
      cases tree with
      | seq items => exact List.forall₂_same.mpr fun item _ => ih item
      | map entries =>
          exact ⟨entries, List.Perm.refl _, List.forall₂_same.mpr fun entry _ => ⟨rfl, ih entry.2⟩⟩
      | _ => rfl

/-- Trees with the same data are equal, or both are lists, or both are maps. -/
theorem Same.cases {left right : Tree} (h : Same depth left right) :
    left = right ∨
    (∃ items items' depth', left = .seq items ∧ right = .seq items' ∧ depth = depth' + 1 ∧
      List.Forall₂ (Same depth') items items') ∨
    ∃ entries entries' mid depth', left = .map entries ∧ right = .map entries' ∧
      depth = depth' + 1 ∧ mid.Perm entries' ∧
      List.Forall₂ (fun a b => a.1 = b.1 ∧ Same depth' a.2 b.2) entries mid := by
  cases depth with
  | zero => exact Or.inl (by cases left <;> exact h)
  | succ depth =>
      cases left with
      | seq items =>
          cases right with
          | seq items' => exact Or.inr (Or.inl ⟨items, items', depth, rfl, rfl, rfl, h⟩)
          | _ => cases h
      | map entries =>
          cases right with
          | map entries' =>
              obtain ⟨mid, hperm, hall⟩ := h
              exact Or.inr (Or.inr ⟨entries, entries', mid, depth, rfl, rfl, rfl, hperm, hall⟩)
          | _ => cases h
      | _ => exact Or.inl h

/-! ## Entries by their keys -/

theorem keys_of_same {β : Type} {R : β → β → Prop} {left right : List (Bytes × β)}
    (h : List.Forall₂ (fun a b => a.1 = b.1 ∧ R a.2 b.2) left right) :
    left.map (·.1) = right.map (·.1) := by
  induction h with
  | nil => rfl
  | cons hkey _ ih => rw [List.map_cons, List.map_cons, hkey.1, ih]

/-- The value of a key in a map whose keys are distinct. -/
theorem lookup_eq_some_iff {β : Type} {entries : List (Bytes × β)}
    (hnodup : (entries.map (·.1)).Nodup) {key : Bytes} {value : β} :
    entries.lookup key = some value ↔ (key, value) ∈ entries := by
  induction entries with
  | nil => exact ⟨fun h => (by cases h), fun h => absurd h List.not_mem_nil⟩
  | cons entry entries ih =>
      obtain ⟨first, old⟩ := entry
      rw [List.map_cons, List.nodup_cons] at hnodup
      rw [List.lookup_cons, List.mem_cons, Prod.mk.injEq]
      by_cases hkey : key = first
      · subst hkey
        have hnot : (key, value) ∉ entries := fun hmem =>
          hnodup.1 (List.mem_map.mpr ⟨_, hmem, rfl⟩)
        simp [hnot, eq_comm]
      · have hbeq : (key == first) = false := beq_eq_false_iff_ne.mpr hkey
        simp only [hbeq, hkey, false_and, false_or]
        exact ih hnodup.2

/-- The order of the entries of a map does not show in its values. -/
theorem lookup_perm {β : Type} {left right : List (Bytes × β)}
    (hnodup : (left.map (·.1)).Nodup) (h : left.Perm right) (key : Bytes) :
    left.lookup key = right.lookup key := by
  have hnodup' : (right.map (·.1)).Nodup := (h.map _).nodup_iff.mp hnodup
  refine Option.ext fun value => ?_
  rw [lookup_eq_some_iff hnodup, lookup_eq_some_iff hnodup', h.mem_iff]

end Tree

end Prep.Serde
