/-
  Data/Traverse.lean --- lists that are read element by element.
-/
import Mathlib

set_option autoImplicit false

namespace Prep.Data

variable {α β : Type}

/-- Lists of elements that are read alike are read alike. -/
theorem mapM_congr {read : α → Option β} {R : α → α → Prop}
    (hread : ∀ {x y}, R x y → read y = read x) {left right : List α}
    (h : List.Forall₂ R left right) : right.mapM read = left.mapM read := by
  induction h with
  | nil => rfl
  | cons hxy _ ih => rw [List.mapM_cons, List.mapM_cons, hread hxy, ih]

theorem forall₂_of_mem {R : α → α → Prop} {P : α → Prop} {left right : List α}
    (hP : ∀ x ∈ left, P x) (h : List.Forall₂ R left right) :
    List.Forall₂ (fun x y => P x ∧ R x y) left right := by
  induction h with
  | nil => exact .nil
  | cons hxy _ ih =>
      exact .cons ⟨hP _ List.mem_cons_self, hxy⟩
        (ih fun x hx => hP x (List.mem_cons_of_mem _ hx))

theorem exists_mem_of_forall₂_right {α : Type*} {R : α → β → Prop} {left : List α}
    {right : List β} (h : List.Forall₂ R left right) {y : β} (hy : y ∈ right) : ∃ x ∈ left, R x y := by
  induction h with
  | nil => exact absurd hy List.not_mem_nil
  | @cons x _ _ _ hxy _ ih =>
      rcases List.mem_cons.mp hy with rfl | hy
      · exact ⟨x, List.mem_cons_self, hxy⟩
      · obtain ⟨x', hx', hR⟩ := ih hy
        exact ⟨x', List.mem_cons_of_mem _ hx', hR⟩

/-- Reading the elements in another order gives the same values in another order. -/
theorem mapM_perm {read : α → Option β} {left right : List α} (h : left.Perm right) :
    Option.Rel List.Perm (left.mapM read) (right.mapM read) := by
  induction h with
  | nil => exact .some (List.Perm.refl _)
  | cons x _ ih =>
      rw [List.mapM_cons, List.mapM_cons]
      cases read x with
      | none => exact .none
      | some a =>
          revert ih
          cases List.mapM read _ <;> cases List.mapM read _ <;> rintro (h | _)
          · exact .none
          · exact .some (h.cons a)
  | swap x y rest =>
      simp only [List.mapM_cons]
      cases read x <;> cases read y <;> cases List.mapM read rest <;> first
        | exact .none
        | exact .some (List.Perm.swap _ _ _)
  | trans _ _ ih ih' =>
      revert ih ih'
      cases List.mapM read _ <;> cases List.mapM read _ <;> cases List.mapM read _ <;>
        rintro (h | _) (h' | _)
      · exact .none
      · exact .some (h.trans h')

end Prep.Data
