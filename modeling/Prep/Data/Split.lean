/-
  Data/Split.lean --- lists split at a separator, as the components of a path.
-/
import Mathlib

set_option autoImplicit false

namespace Prep.Data

variable {α : Type} [DecidableEq α] {separator : α}

theorem splitOn_injective {xs ys : List α} (h : xs.splitOn separator = ys.splitOn separator) :
    xs = ys :=
  calc
    xs = [separator].intercalate (xs.splitOn separator) :=
      (List.intercalate_splitOn separator).symm
    _ = [separator].intercalate (ys.splitOn separator) := congrArg _ h
    _ = ys := List.intercalate_splitOn separator

theorem separator_notMem_of_mem_splitOn {xs piece : List α} (h : piece ∈ xs.splitOn separator) :
    separator ∉ piece := by
  induction xs generalizing piece with
  | nil =>
      obtain rfl := List.mem_singleton.mp h
      exact List.not_mem_nil
  | cons x xs ih =>
      rw [List.splitOn_cons_eq_if_modifyHead] at h
      split at h
      · rcases List.mem_cons.mp h with rfl | hmem
        · exact List.not_mem_nil
        · exact ih hmem
      · rename_i hx
        cases hsplit : xs.splitOn separator with
        | nil => exact absurd hsplit (List.splitOn_ne_nil separator xs)
        | cons first rest =>
            rw [hsplit, List.modifyHead_cons] at h
            rcases List.mem_cons.mp h with rfl | hmem
            · intro hmem
              rcases List.mem_cons.mp hmem with rfl | hmem
              · exact hx (beq_self_eq_true separator)
              · exact ih (hsplit ▸ List.mem_cons_self) hmem
            · exact ih (hsplit ▸ List.mem_cons_of_mem first hmem)

/-- The pieces of one list begin the pieces of another when it is that list or what
stands before one of its separators. -/
theorem splitOn_prefix_iff {xs ys : List α} :
    xs.splitOn separator <+: ys.splitOn separator ↔
      xs = ys ∨ ∃ rest, ys = xs ++ separator :: rest := by
  constructor
  · rintro ⟨more, hmore⟩
    cases more with
    | nil =>
        rw [List.append_nil] at hmore
        exact Or.inl (splitOn_injective hmore)
    | cons piece more =>
        refine Or.inr ⟨[separator].intercalate (piece :: more), ?_⟩
        have hfree : ∀ other ∈ piece :: more, separator ∉ other := by
          intro other hother
          have hmem : other ∈ ys.splitOn separator := hmore ▸ List.mem_append_right _ hother
          exact separator_notMem_of_mem_splitOn hmem
        have hpieces : (xs ++ separator :: [separator].intercalate (piece :: more)).splitOn
            separator = ys.splitOn separator := by
          rw [List.splitOn_append_cons_self, List.splitOn_intercalate separator hfree
            (List.cons_ne_nil piece more), hmore]
        exact (splitOn_injective hpieces).symm
  · rintro (rfl | ⟨rest, rfl⟩)
    · exact List.prefix_rfl
    · rw [List.splitOn_append_cons_self]
      exact List.prefix_append _ _

/-- A map that keeps the separator apart commutes with splitting. -/
theorem splitOn_map {f : α → α} (hf : ∀ x, f x = separator ↔ x = separator) (xs : List α) :
    (xs.map f).splitOn separator = (xs.splitOn separator).map (List.map f) := by
  induction xs with
  | nil => rfl
  | cons x xs ih =>
      rw [List.map_cons, List.splitOn_cons_eq_if_modifyHead, List.splitOn_cons_eq_if_modifyHead,
        ih]
      have hcond : (f x == separator) = (x == separator) := by
        rw [Bool.eq_iff_iff, beq_iff_eq, beq_iff_eq, hf]
      rw [hcond]
      split
      · rfl
      · cases xs.splitOn separator <;> rfl

omit [DecidableEq α] in
/-- One more piece behind a separator. -/
theorem intercalate_concat {xs piece : List α} {pieces : List (List α)} (h : pieces ≠ []) :
    xs.intercalate (pieces ++ [piece]) = xs.intercalate pieces ++ xs ++ piece := by
  induction pieces with
  | nil => exact absurd rfl h
  | cons first pieces ih =>
      cases pieces with
      | nil =>
          rw [List.singleton_append, List.intercalate_cons_cons, List.intercalate_singleton,
            List.intercalate_singleton]
      | cons second pieces =>
          rw [List.cons_append, List.cons_append, List.intercalate_cons_cons, ← List.cons_append,
            ih (List.cons_ne_nil _ _), List.intercalate_cons_cons]
          simp only [List.append_assoc]

omit [DecidableEq α] in
/-- Each piece but the first has its separator before it. -/
theorem intercalate_eq_flatMap {first : List α} {rest : List (List α)} :
    [separator].intercalate (first :: rest) = first ++ rest.flatMap (separator :: ·) := by
  induction rest generalizing first with
  | nil => rw [List.intercalate_singleton, List.flatMap_nil, List.append_nil]
  | cons next rest ih =>
      rw [List.intercalate_cons_cons, ih, List.flatMap_cons, List.append_assoc,
        List.singleton_append]
      rfl

/-- Pieces without separators are found again. -/
theorem intercalate_inj {left right : List (List α)} (hleft : ∀ piece ∈ left, separator ∉ piece)
    (hright : ∀ piece ∈ right, separator ∉ piece) (hleft' : left ≠ []) (hright' : right ≠ [])
    (h : [separator].intercalate left = [separator].intercalate right) : left = right :=
  calc
    left = ([separator].intercalate left).splitOn separator :=
      (List.splitOn_intercalate separator hleft hleft').symm
    _ = ([separator].intercalate right).splitOn separator := congrArg (List.splitOn separator) h
    _ = right := List.splitOn_intercalate separator hright hright'

/-! ## Pieces with an end -/

omit [DecidableEq α] in
/-- Pieces that each end with a separator are pieces between separators and one more. -/
theorem flatMap_terminated {pieces : List (List α)} (h : pieces ≠ []) :
    (pieces.flatMap fun piece => piece ++ [separator]) =
      [separator].intercalate pieces ++ [separator] := by
  induction pieces with
  | nil => exact absurd rfl h
  | cons first pieces ih =>
      cases pieces with
      | nil => rw [List.flatMap_singleton, List.intercalate_singleton]
      | cons second pieces =>
          rw [List.flatMap_cons, ih (List.cons_ne_nil _ _), List.intercalate_cons_cons,
            List.append_assoc, List.append_assoc, List.append_assoc]

omit [DecidableEq α] in
/-- What does not occur in the front of a list occurs behind it. -/
theorem exists_behind {xs ys front back : List α} {x : α} (h : xs ++ ys = front ++ x :: back)
    (hfree : x ∉ xs) : ∃ more, front = xs ++ more ∧ ys = more ++ x :: back := by
  rcases List.append_eq_append_iff.mp h with ⟨more, hfront, hys⟩ | ⟨more, hxs, hback⟩
  · exact ⟨more, hfront, hys⟩
  · cases more with
    | nil =>
        rw [List.append_nil] at hxs
        exact ⟨[], by rw [hxs, List.append_nil], hback.symm⟩
    | cons y more =>
        obtain ⟨rfl, _⟩ := List.cons.inj hback
        exact absurd (hxs ▸ List.mem_append_right _ List.mem_cons_self) hfree

omit [DecidableEq α] in
/-- A list is cut in one way at the first place of a value. -/
theorem cut_unique {front front' back back' : List α} {x : α}
    (h : front ++ x :: back = front' ++ x :: back') (hfree : x ∉ front) (hfree' : x ∉ front') :
    front = front' ∧ back = back' := by
  obtain ⟨more, rfl, hback⟩ := exists_behind h hfree
  cases more with
  | nil => exact ⟨(List.append_nil _).symm, (List.cons.inj hback).2⟩
  | cons y more =>
      obtain ⟨rfl, _⟩ := List.cons.inj hback
      exact absurd (List.mem_append_right _ List.mem_cons_self) hfree'

end Prep.Data
