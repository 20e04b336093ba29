/-
  Data/Keyed.lean --- lists whose elements carry distinct keys.

  Such a list is a finite map.  Sorting it by key gives one list for every order
  it may be written in, so the sorted list stands for the map.
-/
import Mathlib

set_option autoImplicit false

namespace Prep.Data

variable {α κ : Type} {key : α → κ}

/-- In a list with distinct keys, the key determines the element. -/
theorem eq_of_key_eq {values : List α} (hdistinct : (values.map key).Nodup)
    {left right : α} (hleft : left ∈ values) (hright : right ∈ values)
    (hkey : key left = key right) : left = right :=
  List.inj_on_of_nodup_map hdistinct hleft hright hkey

/-! ## Sorting by key -/

section Sorting

variable [Ord κ] (key)

/-- The key of `left` is not after the key of `right`. -/
def KeyLE (left right : α) : Prop := (compare (key left) (key right)).isLE = true

instance : DecidableRel (KeyLE key) := fun _ _ => inferInstanceAs (Decidable (_ = true))

/-- `sort_by(|left, right| left.key.cmp(&right.key))`: a stable sort. -/
def sortByKey (values : List α) : List α := values.insertionSort (KeyLE key)

theorem sortByKey_perm (values : List α) : (sortByKey key values).Perm values :=
  List.perm_insertionSort (KeyLE key) values

variable [Std.TransOrd κ]

instance : Std.Total (KeyLE key) where
  total left right := by
    unfold KeyLE
    cases h : compare (key left) (key right) with
    | lt => exact Or.inl rfl
    | eq => exact Or.inl rfl
    | gt =>
        refine Or.inr ?_
        rw [Std.OrientedCmp.lt_of_gt h]
        rfl

instance : IsTrans α (KeyLE key) where
  trans _ _ _ := Std.TransCmp.isLE_trans

variable {key} [Std.LawfulEqOrd κ]

/-- A list is sorted the same in every order, when its keys determine its elements. -/
theorem sortByKey_eq_of_perm {left right : List α}
    (hkeys : ∀ a ∈ left, ∀ b ∈ left, key a = key b → a = b) (h : left.Perm right) :
    sortByKey key left = sortByKey key right := by
  have hperm : (sortByKey key left).Perm (sortByKey key right) :=
    (sortByKey_perm key left).trans (h.trans (sortByKey_perm key right).symm)
  refine hperm.eq_of_pairwise ?_ (List.pairwise_insertionSort _ left)
    (List.pairwise_insertionSort _ right)
  intro a b ha hb hab hba
  have hkey : key a = key b :=
    Std.LawfulEqOrd.eq_of_compare (Std.OrientedCmp.isLE_antisymm hab hba)
  exact hkeys a ((sortByKey_perm key left).mem_iff.mp ha) b
    (h.mem_iff.mpr ((sortByKey_perm key right).mem_iff.mp hb)) hkey

/-- Lists with distinct keys are sorted alike exactly when one is a permutation of
the other. -/
theorem sortByKey_eq_iff_perm {left right : List α} (hdistinct : (left.map key).Nodup) :
    sortByKey key left = sortByKey key right ↔ left.Perm right := by
  refine ⟨fun h => ?_, sortByKey_eq_of_perm fun a ha b hb => eq_of_key_eq hdistinct ha hb⟩
  have hleft := sortByKey_perm key left
  rw [h] at hleft
  exact hleft.symm.trans (sortByKey_perm key right)

omit [Std.LawfulEqOrd κ] in
/-- What is sorted stays as it is. -/
theorem sortByKey_sortByKey (values : List α) :
    sortByKey key (sortByKey key values) = sortByKey key values :=
  (List.pairwise_insertionSort (KeyLE key) values).insertionSort_eq

omit [Std.TransOrd κ] [Std.LawfulEqOrd κ] in
/-- Elements may be changed before or after sorting, if their keys stay. -/
theorem map_sortByKey {f : α → α} (hf : ∀ a, key (f a) = key a) (values : List α) :
    (sortByKey key values).map f = sortByKey key (values.map f) := by
  refine List.map_insertionSort _ _ f values fun a _ b _ => ?_
  unfold KeyLE
  rw [hf, hf]

end Sorting

/-! ## The map a list stands for -/

section Map

variable [DecidableEq κ] (key)

/-- The element a list holds under a key. -/
def valueAt (values : List α) (k : κ) : Option α := values.find? fun a => key a = k

variable {key}

theorem key_of_valueAt {values : List α} {k : κ} {a : α} (h : valueAt key values k = some a) :
    key a = k := by
  have hkey := List.find?_some h
  exact of_decide_eq_true hkey

theorem valueAt_eq_some_iff {values : List α} (hdistinct : (values.map key).Nodup)
    {k : κ} {a : α} : valueAt key values k = some a ↔ a ∈ values ∧ key a = k := by
  constructor
  · intro h
    exact ⟨List.mem_of_find?_eq_some h, key_of_valueAt h⟩
  · rintro ⟨hmem, rfl⟩
    unfold valueAt
    cases hfind : values.find? fun b => key b = key a with
    | none =>
        rw [List.find?_eq_none] at hfind
        exact absurd (decide_eq_true rfl) (hfind a hmem)
    | some b =>
        have hkey := List.find?_some hfind
        rw [eq_of_key_eq hdistinct (List.mem_of_find?_eq_some hfind) hmem
          (of_decide_eq_true hkey)]

/-- Lists with distinct keys are permutations of each other exactly when they
stand for one map. -/
theorem perm_iff_valueAt_eq {left right : List α} (hleft : (left.map key).Nodup)
    (hright : (right.map key).Nodup) :
    left.Perm right ↔ ∀ k, valueAt key left k = valueAt key right k := by
  rw [List.perm_ext_iff_of_nodup hleft.of_map hright.of_map]
  constructor
  · intro h k
    apply Option.ext
    intro a
    rw [valueAt_eq_some_iff hleft, valueAt_eq_some_iff hright, h a]
  · intro h a
    have ha := h (key a)
    constructor
    · intro hmem
      rw [(valueAt_eq_some_iff hleft).mpr ⟨hmem, rfl⟩] at ha
      exact ((valueAt_eq_some_iff hright).mp ha.symm).1
    · intro hmem
      rw [(valueAt_eq_some_iff hright).mpr ⟨hmem, rfl⟩] at ha
      exact ((valueAt_eq_some_iff hleft).mp ha).1

/-- The value under a key is known from the part of it that the key leaves open. -/
theorem valueAt_map_inj {β : Type} {f : α → β} {left right : List α} {k : κ}
    (hf : ∀ a b, key a = key b → f a = f b → a = b) :
    (valueAt key left k).map f = (valueAt key right k).map f ↔
      valueAt key left k = valueAt key right k := by
  refine ⟨fun h => ?_, congrArg _⟩
  cases hleft : valueAt key left k with
  | none =>
      rw [hleft, Option.map_none, eq_comm, Option.map_eq_none_iff] at h
      exact h.symm
  | some a =>
      rw [hleft, Option.map_some, eq_comm, Option.map_eq_some_iff] at h
      obtain ⟨b, hright, hfb⟩ := h
      have hkey := (key_of_valueAt hleft).trans (key_of_valueAt hright).symm
      rw [hright, hf a b hkey hfb.symm]

end Map

end Prep.Data
