/-
  Manifest/Reorder.lean --- files that differ in the order of their lists.

  The lists of a manifest and of a lockfile are sets to every check: what is accepted
  does not depend on their order.
-/
import Prep.Manifest.Model

set_option autoImplicit false
set_option linter.dupNamespace false

namespace Prep.Manifest

open Prep.Data

/-- Two locked packages that differ in the order of their dependencies. -/
structure LockedPackage.Reordered (left right : LockedPackage) : Prop where
  name : left.name = right.name
  version : left.version = right.version
  dependencies : left.dependencies.Perm right.dependencies
  source : left.source = right.source

/-- Two lockfiles that differ in the order of their lists. -/
structure Lockfile.Reordered (left right : Lockfile) : Prop where
  schema : left.schema = right.schema
  name : left.root.name = right.root.name
  version : left.root.version = right.root.version
  roots : left.root.dependencies.Perm right.root.dependencies
  packages : ∃ packages, left.packages.Perm packages ∧
    List.Forall₂ LockedPackage.Reordered packages right.packages

/-- Two manifests that differ in the order of their lists. -/
structure Manifest.Reordered (left right : Manifest) : Prop where
  schema : left.schema = right.schema
  package : left.package = right.package
  options : left.build.options = right.build.options
  systems : left.build.systems.Perm right.build.systems
  dependencies : left.dependencies.Perm right.dependencies

/-! ## Reordered lists hold the same -/

theorem exists_of_forall₂_left {α β : Type} {r : α → β → Prop} {left : List α} {right : List β}
    (h : List.Forall₂ r left right) {a : α} (ha : a ∈ left) : ∃ b ∈ right, r a b := by
  induction h with
  | nil => exact absurd ha List.not_mem_nil
  | cons hhead _ ih =>
      rcases List.mem_cons.mp ha with rfl | ha
      · exact ⟨_, List.mem_cons_self, hhead⟩
      · obtain ⟨b, hb, hab⟩ := ih ha
        exact ⟨b, List.mem_cons_of_mem _ hb, hab⟩

theorem exists_of_forall₂_right {α β : Type} {r : α → β → Prop} {left : List α} {right : List β}
    (h : List.Forall₂ r left right) {b : β} (hb : b ∈ right) : ∃ a ∈ left, r a b :=
  exists_of_forall₂_left h.flip hb

theorem map_eq_of_forall₂ {α β γ : Type} {r : α → β → Prop} {f : α → γ} {g : β → γ}
    {left : List α} {right : List β} (h : List.Forall₂ r left right)
    (hr : ∀ a b, a ∈ left → r a b → f a = g b) : left.map f = right.map g := by
  induction h with
  | nil => rfl
  | cons hhead _ ih =>
      rw [List.map_cons, List.map_cons, hr _ _ List.mem_cons_self hhead,
        ih fun a b ha => hr a b (List.mem_cons_of_mem _ ha)]

namespace Lockfile.Reordered

variable {left right : Lockfile}

theorem exists_right (h : left.Reordered right) {package : LockedPackage}
    (hpackage : package ∈ left.packages) :
    ∃ other ∈ right.packages, package.Reordered other := by
  obtain ⟨packages, hperm, hsame⟩ := h.packages
  exact exists_of_forall₂_left hsame (hperm.mem_iff.mp hpackage)

theorem exists_left (h : left.Reordered right) {package : LockedPackage}
    (hpackage : package ∈ right.packages) :
    ∃ other ∈ left.packages, other.Reordered package := by
  obtain ⟨packages, hperm, hsame⟩ := h.packages
  obtain ⟨other, hother, hreordered⟩ := exists_of_forall₂_right hsame hpackage
  exact ⟨other, hperm.mem_iff.mpr hother, hreordered⟩

theorem names (h : left.Reordered right) :
    (left.packages.map (·.name)).Perm (right.packages.map (·.name)) := by
  obtain ⟨packages, hperm, hsame⟩ := h.packages
  rw [← map_eq_of_forall₂ hsame fun _ _ _ hsame => hsame.name]
  exact hperm.map _

/-- A reordered lockfile is as valid. -/
theorem validate_iff (h : left.Reordered right) :
    left.validate = .ok () ↔ right.validate = .ok () := by
  rw [Lockfile.validate_eq_ok_iff, Lockfile.validate_eq_ok_iff, h.schema, h.names.nodup_iff,
    h.roots.nodup_iff]
  refine and_congr_right fun _ => and_congr_left fun _ => ?_
  constructor
  · intro hall package hpackage
    obtain ⟨other, hother, hsame⟩ := h.exists_left hpackage
    rw [← hsame.source, ← hsame.dependencies.nodup_iff]
    exact hall other hother
  · intro hall package hpackage
    obtain ⟨other, hother, hsame⟩ := h.exists_right hpackage
    rw [hsame.source, hsame.dependencies.nodup_iff]
    exact hall other hother

end Lockfile.Reordered

/-- A reordered manifest is as valid. -/
theorem Manifest.Reordered.validate_iff {left right : Manifest} (h : left.Reordered right) :
    left.validate = .ok () ↔ right.validate = .ok () := by
  rw [Manifest.validate_eq_ok_iff, Manifest.validate_eq_ok_iff, h.schema,
    (h.dependencies.map _).nodup_iff]
  refine and_congr_right fun _ => and_congr_left fun _ => ?_
  exact forall_congr' fun dependency => imp_congr_left h.dependencies.mem_iff

end Prep.Manifest
