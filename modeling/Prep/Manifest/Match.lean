/-
  Manifest/Match.lean --- what a lockfile that is accepted for a manifest covers.

  The reference of a Git declaration is compared as it stands, also if there is none; the digest
  of an archive is compared if one is declared.  Whether a reference names the locked commit is
  not asked.
-/
import Prep.Manifest.Reorder

set_option autoImplicit false

namespace Prep.Manifest

open Prep.Data

/-- A locked source is of the declared kind and from the declared place, at the declared
reference or with the declared digest if there is one. -/
inductive SourceMatches : SourceDeclaration → LockedSource → Prop where
  | git (url : SourceUrl) (reference : Option SourceReference) (commit : GitCommit)
      (provider : ProviderIdentity) :
      SourceMatches (.git url reference) (.git url commit reference provider)
  | archive (url : SourceUrl) (declared : Option Sha256Digest) (sha256 : Sha256Digest)
      (provider : ProviderIdentity) (h : ∀ digest, declared = some digest → digest = sha256) :
      SourceMatches (.archive url declared) (.archive url sha256 provider)
  | path (path : LocalSourcePath) : SourceMatches (.path path) (.path path)

theorem validateSourceMatch_eq_ok_iff {declaration : SourceDeclaration} {locked : LockedSource} :
    validateSourceMatch declaration locked = .ok () ↔ SourceMatches declaration locked := by
  constructor
  · intro h
    unfold validateSourceMatch at h
    dsimp only at h
    split at h
    · split at h
      · rename_i heq
        obtain ⟨rfl, rfl⟩ := heq
        exact .git _ _ _ _
      · cases h
    · split at h
      · rename_i heq
        obtain ⟨rfl, hdigest⟩ := heq
        refine .archive _ _ _ _ ?_
        rintro digest rfl
        rw [Option.all_some] at hdigest
        exact of_decide_eq_true hdigest
      · cases h
    · split at h
      · rename_i heq
        subst heq
        exact .path _
      · cases h
    · cases h
  · intro h
    cases h with
    | git url reference commit provider => exact if_pos ⟨rfl, rfl⟩
    | archive url declared sha256 provider h =>
        refine if_pos ⟨rfl, ?_⟩
        cases declared with
        | none => rfl
        | some digest => exact decide_eq_true (h digest rfl)
    | path path => exact if_pos rfl

/-- A package is locked for a declared dependency. -/
def Covers (lockfile : Lockfile) (declaration : DependencyDeclaration) : Prop :=
  ∃ package ∈ lockfile.packages, package.name = declaration.name ∧
    package.version = declaration.version ∧ SourceMatches declaration.source package.source

section Loop

variable {lockfile : Lockfile} {manifest : Manifest}

theorem nodup_declared (h : manifest.validate = .ok ()) :
    ((manifest.dependencies.map fun d => (d.name, d)).map (·.1)).Nodup := by
  rw [List.map_map]
  exact (Manifest.validate_eq_ok_iff.mp h).2.2

theorem nodup_locked (h : lockfile.validate = .ok ()) :
    ((lockfile.packages.map fun p => (p.name, p)).map (·.1)).Nodup := by
  rw [List.map_map]
  exact (Lockfile.validate_eq_ok_iff.mp h).2.2.1

theorem nodup_rootDependencies (h : lockfile.validate = .ok ()) :
    ((lockfile.root.dependencies.map fun n => (n, ())).map (·.1)).Nodup := by
  rw [List.map_map]
  exact (List.map_id _).symm ▸ (Lockfile.validate_eq_ok_iff.mp h).2.2.2

/-- The check on one declared dependency finds the package that covers it. -/
theorem validateLocked_eq_ok_iff (h : lockfile.validate = .ok ())
    {declaration : DependencyDeclaration} :
    validateLocked (SortedMap.ofEntries (lockfile.packages.map fun p => (p.name, p)))
      (declaration.name, declaration) = .ok () ↔ Covers lockfile declaration := by
  have hget : ∀ package,
      (SortedMap.ofEntries (lockfile.packages.map fun p => (p.name, p))).get? declaration.name =
        some package ↔ package ∈ lockfile.packages ∧ package.name = declaration.name := by
    intro package
    rw [SortedMap.get?_ofEntries (nodup_locked h), List.mem_map]
    constructor
    · rintro ⟨found, hfound, heq⟩
      obtain ⟨hname, rfl⟩ := Prod.mk.inj heq
      exact ⟨hfound, hname⟩
    · rintro ⟨hpackage, hname⟩
      exact ⟨package, hpackage, by rw [hname]⟩
  unfold validateLocked Covers
  dsimp only
  split
  · rename_i hnone
    refine ⟨fun h => (by cases h), ?_⟩
    rintro ⟨package, hpackage, hname, _⟩
    rw [(hget package).mpr ⟨hpackage, hname⟩] at hnone
    cases hnone
  · rename_i package hsome
    obtain ⟨hpackage, hname⟩ := (hget package).mp hsome
    have honly : ∀ other ∈ lockfile.packages, other.name = declaration.name → other = package :=
      fun other hother hname' => Option.some.inj
        (((hget other).mpr ⟨hother, hname'⟩).symm.trans hsome)
    split
    · rename_i hversion
      refine ⟨fun h => (by cases h), ?_⟩
      rintro ⟨other, hother, hname', hversion', _⟩
      exact absurd (honly other hother hname' ▸ hversion') hversion
    · rename_i hversion
      rw [not_not] at hversion
      split
      · rename_i hsource
        exact ⟨fun _ => ⟨package, hpackage, hname, hversion,
          validateSourceMatch_eq_ok_iff.mp hsource⟩, fun _ => rfl⟩
      · rename_i e hsource
        refine ⟨fun h => (by cases h), ?_⟩
        rintro ⟨other, hother, hname', _, hmatches⟩
        obtain rfl := honly other hother hname'
        rw [validateSourceMatch_eq_ok_iff.mpr hmatches] at hsource
        cases hsource

/-- Two sets are compared by their elements in order. -/
theorem keys_eq_iff (hlockfile : lockfile.validate = .ok ()) (hmanifest : manifest.validate = .ok ()) :
    (SortedMap.ofEntries (lockfile.root.dependencies.map fun n => (n, ()))).keys =
        (SortedMap.ofEntries (manifest.dependencies.map fun d => (d.name, d))).keys ↔
      ∀ name, name ∈ lockfile.root.dependencies ↔ name ∈ manifest.dependencies.map (·.name) := by
  have hleft : ∀ name, name ∈
      (SortedMap.ofEntries (lockfile.root.dependencies.map fun n => (n, ()))).keys ↔
        name ∈ lockfile.root.dependencies := by
    intro name
    rw [SortedMap.mem_keys_ofEntries (nodup_rootDependencies hlockfile), List.map_map]
    exact (List.map_id lockfile.root.dependencies).symm ▸ Iff.rfl
  have hright : ∀ name, name ∈
      (SortedMap.ofEntries (manifest.dependencies.map fun d => (d.name, d))).keys ↔
        name ∈ manifest.dependencies.map (·.name) := by
    intro name
    rw [SortedMap.mem_keys_ofEntries (nodup_declared hmanifest), List.map_map]
    rfl
  constructor
  · intro h name
    rw [← hleft, h, hright]
  · intro h
    refine SortedMap.keys_ext fun name => ?_
    rw [hleft, h, hright]

end Loop

/-- What `validate_against` accepts. -/
theorem validateAgainst_eq_ok_iff {lockfile : Lockfile} {manifest : Manifest} :
    lockfile.validateAgainst manifest = .ok () ↔
      lockfile.validate = .ok () ∧ manifest.validate = .ok () ∧
      lockfile.root.name = manifest.package.name ∧
      lockfile.root.version = manifest.package.version ∧
      (∀ name, name ∈ lockfile.root.dependencies ↔ name ∈ manifest.dependencies.map (·.name)) ∧
      ∀ declaration ∈ manifest.dependencies, Covers lockfile declaration := by
  unfold Lockfile.validateAgainst
  rw [check_bind_eq_ok_iff, check_bind_eq_ok_iff]
  refine and_congr_right fun hlockfile => and_congr_right fun hmanifest => ?_
  by_cases hroot : lockfile.root.name ≠ manifest.package.name ∨
      lockfile.root.version ≠ manifest.package.version
  · rw [if_pos hroot]
    refine ⟨fun h => (by cases h), fun h => ?_⟩
    rcases hroot with hname | hversion
    · exact absurd h.1 hname
    · exact absurd h.2.1 hversion
  · rw [if_neg hroot]
    rw [not_or, not_not, not_not] at hroot
    dsimp only [pure_bind]
    have hloop : (SortedMap.ofEntries (manifest.dependencies.map fun d => (d.name, d))).entries.forM
          (validateLocked (SortedMap.ofEntries (lockfile.packages.map fun p => (p.name, p)))) =
          .ok () ↔ ∀ declaration ∈ manifest.dependencies, Covers lockfile declaration := by
      rw [List.forM_eq_forM, forM_eq_ok_iff]
      constructor
      · intro h declaration hdeclaration
        refine (validateLocked_eq_ok_iff hlockfile).mp (h (declaration.name, declaration) ?_)
        rw [← SortedMap.get?_eq_some_iff, SortedMap.get?_ofEntries (nodup_declared hmanifest)]
        exact List.mem_map_of_mem hdeclaration
      · rintro h ⟨name, declaration⟩ hentry
        rw [← SortedMap.get?_eq_some_iff, SortedMap.get?_ofEntries (nodup_declared hmanifest),
          List.mem_map] at hentry
        obtain ⟨found, hfound, heq⟩ := hentry
        obtain ⟨rfl, rfl⟩ := Prod.mk.inj heq
        exact (validateLocked_eq_ok_iff hlockfile).mpr (h found hfound)
    have hkeys := keys_eq_iff hlockfile hmanifest
    by_cases hsame : (SortedMap.ofEntries (lockfile.root.dependencies.map fun n => (n, ()))).keys =
        (SortedMap.ofEntries (manifest.dependencies.map fun d => (d.name, d))).keys
    · rw [if_neg (not_not.mpr hsame)]
      rw [← hloop, ← hkeys]
      exact ⟨fun h => ⟨hroot.1, hroot.2, hsame, h⟩, fun h => h.2.2.2⟩
    · rw [if_pos hsame]
      exact ⟨fun h => (by cases h), fun h => absurd (hkeys.mpr h.2.2.1) hsame⟩

/-- The order of the lists does not matter. -/
theorem validateAgainst_reordered {lockfile lockfile' : Lockfile} {manifest manifest' : Manifest}
    (hlockfile : lockfile.Reordered lockfile') (hmanifest : manifest.Reordered manifest') :
    lockfile.validateAgainst manifest = .ok () ↔ lockfile'.validateAgainst manifest' = .ok () := by
  have hcovers : ∀ declaration, Covers lockfile declaration ↔ Covers lockfile' declaration := by
    intro declaration
    constructor
    · rintro ⟨package, hpackage, hname, hversion, hsource⟩
      obtain ⟨other, hother, hsame⟩ := hlockfile.exists_right hpackage
      exact ⟨other, hother, hsame.name ▸ hname, hsame.version ▸ hversion, hsame.source ▸ hsource⟩
    · rintro ⟨package, hpackage, hname, hversion, hsource⟩
      obtain ⟨other, hother, hsame⟩ := hlockfile.exists_left hpackage
      exact ⟨other, hother, hsame.name.trans hname, hsame.version.trans hversion,
        hsame.source.symm ▸ hsource⟩
  rw [validateAgainst_eq_ok_iff, validateAgainst_eq_ok_iff, hlockfile.validate_iff,
    hmanifest.validate_iff, hlockfile.name, hlockfile.version, hmanifest.package]
  simp only [hlockfile.roots.mem_iff, (hmanifest.dependencies.map _).mem_iff,
    hmanifest.dependencies.mem_iff, hcovers]

end Prep.Manifest
