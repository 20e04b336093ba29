/-
  Core/ArchiveAdmission.lean --- the policy of `validate_archive_inventory` as a law on
  entries and pairs of entries.

  Nothing in it mentions the order of the list, so neither does the verdict.

  The policy is what is accepted.  Which of several reasons a refusal names does depend on the
  order of the list, and is left to the definition in `Core/ArchivePolicy.lean`.
-/
import Prep.Core.ArchiveInventory

set_option autoImplicit false

namespace Prep.Core

open Prep.Data
open Prep.Text

/-! ## The policy -/

/-- What an entry must be, whatever else the archive holds. -/
structure AllowedEntry (limits : ArchiveLimits) (entry : ArchiveEntry) : Prop where
  kind : entry.kind = .regularFile ∨ entry.kind = .directory
  ascii : ∀ b ∈ entry.name, isAscii b = true
  path : validateArchiveEntryPath entry.name limits.maxPathBytes.toNat = .ok ()
  depth : (components entry.name).length ≤ 128
  portable : ∀ component ∈ components entry.name, component.getLast? ≠ some 46 ∧
    component.getLast? ≠ some 32 ∧ windowsReservedName component = false
  directory : entry.kind = .directory → entry.expandedBytes = 0
  size : entry.expandedBytes ≤ limits.maxEntryBytes.toNat

/-- What the entries must be together. -/
structure InventoryPolicy (limits : ArchiveLimits) (entries : List ArchiveEntry) : Prop where
  count : entries.length ≤ limits.maxEntries.toNat
  allowed : ∀ entry ∈ entries, AllowedEntry limits entry
  spelling : ∀ entry ∈ entries, ∀ other ∈ entries, ∀ front front',
    front <+: components entry.name → front' <+: components other.name →
      lowered front = lowered front' → front = front'
  distinct : (entries.map fun entry => toAsciiLowercase entry.name).Nodup
  files : ∀ file ∈ entries, file.kind = .regularFile → ∀ other ∈ entries,
    lowered (components file.name) <+: lowered (components other.name) →
      lowered (components file.name) = lowered (components other.name)
  total : (entries.map (·.expandedBytes)).sum ≤ limits.maxTotalBytes.toNat

variable {limits : ArchiveLimits} {entries : List ArchiveEntry}

/-- The policy does not see the order of the entries. -/
theorem InventoryPolicy.perm {other : List ArchiveEntry} (h : InventoryPolicy limits entries)
    (hperm : entries.Perm other) : InventoryPolicy limits other where
  count := hperm.length_eq ▸ h.count
  allowed entry hentry := h.allowed entry (hperm.mem_iff.mpr hentry)
  spelling entry hentry other hother :=
    h.spelling entry (hperm.mem_iff.mpr hentry) other (hperm.mem_iff.mpr hother)
  distinct := (hperm.map _).nodup_iff.mp h.distinct
  files file hfile hkind other hother :=
    h.files file (hperm.mem_iff.mpr hfile) hkind other (hperm.mem_iff.mpr hother)
  total := by
    rw [← (hperm.map (·.expandedBytes)).sum_eq]
    exact h.total

/-! ## The loop's checks are the policy's -/

theorem admitName_eq_ok_iff {entry : ArchiveEntry} : admitName limits entry = .ok () ↔
    validateArchiveEntryPath entry.name limits.maxPathBytes.toNat = .ok () ∧
    (∀ b ∈ entry.name, isAscii b = true) ∧
    (∀ component ∈ components entry.name, component.getLast? ≠ some 46 ∧
      component.getLast? ≠ some 32 ∧ windowsReservedName component = false) ∧
    (entry.kind = .regularFile ∨ entry.kind = .directory) := by
  rw [admitName, check_bind_eq_ok_iff, ← List.all_eq_true]
  have hportable : (∀ component ∈ components entry.name, component.getLast? ≠ some 46 ∧
      component.getLast? ≠ some 32 ∧ windowsReservedName component = false) ↔
      ((components entry.name).any fun component => component.getLast? == some 46 ||
        component.getLast? == some 32 || windowsReservedName component) = false := by
    rw [List.any_eq_false]
    refine forall₂_congr fun component _ => ?_
    simp only [Bool.or_eq_true, beq_iff_eq, not_or, ne_eq, Bool.not_eq_true, and_assoc]
  rw [hportable]
  refine and_congr_right fun _ => ?_
  cases hascii : entry.name.all isAscii with
  | false =>
      refine ⟨fun h => (by cases h), ?_⟩
      rintro ⟨h, _⟩
      cases h
  | true =>
      cases hany : (components entry.name).any fun component => component.getLast? == some 46 ||
          component.getLast? == some 32 || windowsReservedName component with
      | true =>
          refine ⟨fun h => (by cases h), ?_⟩
          rintro ⟨_, h, _⟩
          cases h
      | false =>
          rw [if_neg (by decide)]
          split
          · rename_i hkind
            refine ⟨fun h => (by cases h), ?_⟩
            rintro ⟨_, _, hfile | hdir⟩
            · exact absurd hfile hkind.1
            · exact absurd hdir hkind.2
          · rename_i hkind
            refine ⟨fun _ => ⟨rfl, rfl, ?_⟩, fun _ => rfl⟩
            rwa [not_and_or, not_not, not_not] at hkind

theorem portableEntry_iff {entry : ArchiveEntry} :
    PortableEntry limits entry ↔ AllowedEntry limits entry := by
  constructor
  · intro h
    obtain ⟨hpath, hascii, hportable, hkind⟩ := admitName_eq_ok_iff.mp h.name
    exact ⟨hkind, hascii, hpath, h.depth, hportable, h.directory, h.size⟩
  · intro h
    exact ⟨admitName_eq_ok_iff.mpr ⟨h.path, h.ascii, h.portable, h.kind⟩, h.depth, h.directory,
      h.size⟩

/-- A name in lower case has the components of the name in lower case. -/
theorem components_toAsciiLowercase (name : Bytes) :
    components (toAsciiLowercase name) = lowered (components name) := by
  have hslash : ∀ b : UInt8, asciiLower b = 47 ↔ b = 47 := by decide +kernel
  exact splitOn_map hslash name

/-- A name is behind a separator of another when its components go on from those. -/
theorem below_iff {name below : Bytes} :
    (∃ rest, toAsciiLowercase below = toAsciiLowercase name ++ 47 :: rest) ↔
      lowered (components name) <+: lowered (components below) ∧
        lowered (components name) ≠ lowered (components below) := by
  rw [← components_toAsciiLowercase, ← components_toAsciiLowercase]
  constructor
  · intro hbelow
    refine ⟨splitOn_prefix_iff.mpr (.inr hbelow), fun heq => ?_⟩
    obtain ⟨rest, hrest⟩ := hbelow
    rw [splitOn_injective heq] at hrest
    exact List.cons_ne_nil _ _ (List.self_eq_append_right.mp hrest)
  · rintro ⟨hleads, hne⟩
    rcases splitOn_prefix_iff.mp hleads with heq | hbelow
    · exact absurd (congrArg components heq) hne
    · exact hbelow

theorem admissible_iff : Admissible limits entries ↔ InventoryPolicy limits entries := by
  constructor
  · intro h
    refine ⟨h.count, fun entry hentry => portableEntry_iff.mp (h.portable entry hentry), ?_,
      h.distinct, ?_, h.total⟩
    · intro entry hentry other hother front front' hfront hfront'
      exact h.spelling _ (List.mem_map_of_mem hentry) _ (List.mem_map_of_mem hother) front front'
        hfront hfront'
    · intro file hfile hkind other hother hleads
      by_contra hne
      have hdir := h.ancestors file hfile other hother (below_iff.mpr ⟨hleads, hne⟩)
      rw [hkind] at hdir
      cases hdir
  · intro h
    refine ⟨⟨fun entry hentry => portableEntry_iff.mpr (h.allowed entry hentry), ?_, h.distinct,
      h.total⟩, h.count, ?_⟩
    · intro path hpath other hother front front' hfront hfront'
      obtain ⟨entry, hentry, rfl⟩ := List.mem_map.mp hpath
      obtain ⟨entry', hentry', rfl⟩ := List.mem_map.mp hother
      exact h.spelling entry hentry entry' hentry' front front' hfront hfront'
    · intro entry hentry below hbelow hname
      obtain ⟨hleads, hne⟩ := below_iff.mp hname
      refine (h.allowed entry hentry).kind.resolve_left fun hkind => ?_
      exact hne (h.files entry hentry hkind below hbelow hleads)

/-- `validate_archive_inventory` accepts exactly the inventories of the policy, with the sum
of their sizes, and does not depend on the order of the entries. -/
theorem validateArchiveInventory_policy (entries : List ArchiveEntry) (limits : ArchiveLimits) :
    (∀ total, validateArchiveInventory entries limits = .ok total ↔
      InventoryPolicy limits entries ∧ total = (entries.map (·.expandedBytes)).sum) ∧
    ∀ other, entries.Perm other → ∀ total,
      validateArchiveInventory entries limits = .ok total ↔
        validateArchiveInventory other limits = .ok total := by
  have hpolicy : ∀ entries total, validateArchiveInventory entries limits = .ok total ↔
      InventoryPolicy limits entries ∧ total = (entries.map (·.expandedBytes)).sum := by
    intro entries total
    rw [validateArchiveInventory_eq_ok_iff, admissible_iff]
  refine ⟨hpolicy entries, fun other hperm total => ?_⟩
  rw [hpolicy, hpolicy, (hperm.map (·.expandedBytes)).sum_eq]
  exact and_congr_left fun _ => ⟨fun h => h.perm hperm, fun h => h.perm hperm.symm⟩

/-- A file and the directory it stands in, in either order. -/
theorem validateArchiveInventory_policy_swapped :
    validateArchiveInventory
        [⟨ascii "src/a", .regularFile, 3⟩, ⟨ascii "src", .directory, 0⟩] ⟨2, 3, 3, 16⟩ = .ok 3 :=
  ((validateArchiveInventory_policy
    [⟨ascii "src", .directory, 0⟩, ⟨ascii "src/a", .regularFile, 3⟩] ⟨2, 3, 3, 16⟩).2 _
    (List.Perm.swap _ _ []) 3).mp (by decide +kernel)

end Prep.Core
