/-
  Data/SortedMap.lean --- finite maps as lists of entries in key order.

  The order is part of the type, so maps with the same values under the same keys are
  equal.
-/
import Prep.Data.Keyed

set_option autoImplicit false

namespace Prep.Data

/-- A finite map: entries with increasing keys. -/
structure SortedMap (κ β : Type) [Ord κ] where
  entries : List (κ × β)
  sorted : entries.Pairwise fun left right => compare left.1 right.1 = .lt

namespace SortedMap

variable {κ β γ : Type} [Ord κ]

@[ext] theorem ext_entries {m n : SortedMap κ β} (h : m.entries = n.entries) : m = n := by
  cases m
  cases n
  cases h
  rfl

instance [DecidableEq κ] [DecidableEq β] : DecidableEq (SortedMap κ β) := fun m n =>
  decidable_of_iff (m.entries = n.entries) ⟨ext_entries, congrArg entries⟩

/-- The map without entries. -/
def empty : SortedMap κ β := ⟨[], List.Pairwise.nil⟩

/-- The keys in order. -/
def keys (m : SortedMap κ β) : List κ := m.entries.map (·.1)

/-- An entry put in its place, over one with the same key. -/
def insertEntry (key : κ) (value : β) : List (κ × β) → List (κ × β)
  | [] => [(key, value)]
  | (other, old) :: rest =>
      match compare key other with
      | .lt => (key, value) :: (other, old) :: rest
      | .eq => (key, value) :: rest
      | .gt => (other, old) :: insertEntry key value rest

theorem mem_insertEntry {key : κ} {value : β} {entry : κ × β} {entries : List (κ × β)}
    (h : entry ∈ insertEntry key value entries) : entry = (key, value) ∨ entry ∈ entries := by
  induction entries with
  | nil => exact Or.inl (List.mem_singleton.mp h)
  | cons first rest ih =>
      obtain ⟨other, old⟩ := first
      rw [insertEntry] at h
      split at h
      · rcases List.mem_cons.mp h with rfl | h
        · exact Or.inl rfl
        · exact Or.inr h
      · rcases List.mem_cons.mp h with rfl | h
        · exact Or.inl rfl
        · exact Or.inr (List.mem_cons_of_mem _ h)
      · rcases List.mem_cons.mp h with rfl | h
        · exact Or.inr List.mem_cons_self
        · rcases ih h with rfl | h
          · exact Or.inl rfl
          · exact Or.inr (List.mem_cons_of_mem _ h)

theorem nodup_keys [Std.LawfulEqOrd κ] (m : SortedMap κ β) : (m.entries.map (·.1)).Nodup := by
  refine List.pairwise_map.mpr (m.sorted.imp ?_)
  intro left right hlt heq
  rw [heq, Std.ReflOrd.compare_self] at hlt
  cases hlt

section Laws

variable [Std.TransOrd κ] [Std.LawfulEqOrd κ]

theorem sorted_insertEntry {key : κ} {value : β} {entries : List (κ × β)}
    (h : entries.Pairwise fun left right => compare left.1 right.1 = .lt) :
    (insertEntry key value entries).Pairwise fun left right => compare left.1 right.1 = .lt := by
  induction entries with
  | nil => exact List.pairwise_singleton _ _
  | cons first rest ih =>
      obtain ⟨other, old⟩ := first
      rw [List.pairwise_cons] at h
      rw [insertEntry]
      split
      · rename_i hlt
        refine List.pairwise_cons.mpr ⟨fun entry hentry => ?_, List.pairwise_cons.mpr h⟩
        rcases List.mem_cons.mp hentry with rfl | hentry
        · exact hlt
        · exact Std.TransCmp.lt_trans hlt (h.1 entry hentry)
      · rename_i heq
        obtain rfl := Std.LawfulEqOrd.eq_of_compare heq
        exact List.pairwise_cons.mpr h
      · rename_i hgt
        refine List.pairwise_cons.mpr ⟨fun entry hentry => ?_, ih h.2⟩
        rcases mem_insertEntry hentry with rfl | hentry
        · exact Std.OrientedCmp.lt_of_gt hgt
        · exact h.1 entry hentry

/-- `BTreeMap::insert`. -/
def insert (m : SortedMap κ β) (key : κ) (value : β) : SortedMap κ β :=
  ⟨insertEntry key value m.entries, sorted_insertEntry m.sorted⟩

/-- A map collected from its entries: of several with one key the last one stays. -/
def ofEntries (entries : List (κ × β)) : SortedMap κ β :=
  entries.foldl (fun m entry => m.insert entry.1 entry.2) empty

omit [Std.LawfulEqOrd κ] in
/-- Maps with the same keys have them in the same order. -/
theorem keys_ext {m : SortedMap κ β} {n : SortedMap κ γ}
    (h : ∀ key, key ∈ m.keys ↔ key ∈ n.keys) : m.keys = n.keys := by
  have hm : m.keys.Pairwise fun left right => compare left right = .lt :=
    List.pairwise_map.mpr m.sorted
  have hn : n.keys.Pairwise fun left right => compare left right = .lt :=
    List.pairwise_map.mpr n.sorted
  have hnodup : ∀ {keys : List κ}, (keys.Pairwise fun left right => compare left right = .lt) →
      keys.Nodup := fun hkeys => hkeys.imp fun hlt heq => by
    rw [heq, Std.ReflOrd.compare_self] at hlt
    cases hlt
  refine ((List.perm_ext_iff_of_nodup (hnodup hm) (hnodup hn)).mpr h).eq_of_pairwise ?_ hm hn
  intro a b _ _ hab hba
  rw [Std.OrientedCmp.gt_of_lt hba] at hab
  cases hab

theorem mem_insertEntry_iff {key : κ} {value : β} {entry : κ × β} {entries : List (κ × β)}
    (hsorted : entries.Pairwise fun left right => compare left.1 right.1 = .lt) :
    entry ∈ insertEntry key value entries ↔
      entry = (key, value) ∨ (entry ∈ entries ∧ entry.1 ≠ key) := by
  induction entries with
  | nil => simp [insertEntry]
  | cons first rest ih =>
      obtain ⟨other, old⟩ := first
      rw [List.pairwise_cons] at hsorted
      have hne : ∀ entry ∈ rest, entry.1 ≠ other := by
        intro entry hentry heq
        have hlt := hsorted.1 entry hentry
        rw [heq, Std.ReflOrd.compare_self] at hlt
        cases hlt
      rw [insertEntry]
      split
      · rename_i hlt
        have hkey : ∀ entry ∈ (other, old) :: rest, entry.1 ≠ key := by
          intro entry hentry heq
          rcases List.mem_cons.mp hentry with rfl | hentry
          · rw [← heq, Std.ReflOrd.compare_self] at hlt
            cases hlt
          · have hgt := hsorted.1 entry hentry
            rw [heq, Std.OrientedCmp.gt_of_lt hlt] at hgt
            cases hgt
        rw [List.mem_cons]
        refine or_congr_right ⟨fun hentry => ⟨hentry, hkey entry hentry⟩, And.left⟩
      · rename_i heq
        obtain rfl := Std.LawfulEqOrd.eq_of_compare heq
        rw [List.mem_cons, List.mem_cons]
        refine or_congr_right ⟨fun hentry => ⟨Or.inr hentry, hne entry hentry⟩, ?_⟩
        rintro ⟨rfl | hentry, hother⟩
        · exact absurd rfl hother
        · exact hentry
      · rename_i hgt
        have hother : other ≠ key := by
          rintro rfl
          rw [Std.ReflOrd.compare_self] at hgt
          cases hgt
        rw [List.mem_cons, List.mem_cons, ih hsorted.2]
        constructor
        · rintro (rfl | rfl | ⟨hentry, hkey⟩)
          · exact Or.inr ⟨Or.inl rfl, hother⟩
          · exact Or.inl rfl
          · exact Or.inr ⟨Or.inr hentry, hkey⟩
        · rintro (rfl | ⟨rfl | hentry, hkey⟩)
          · exact Or.inr (Or.inl rfl)
          · exact Or.inl rfl
          · exact Or.inr (Or.inr ⟨hentry, hkey⟩)

/-! ## Values -/

variable [DecidableEq κ]

/-- `BTreeMap::get`. -/
def get? (m : SortedMap κ β) (key : κ) : Option β := (valueAt (·.1) m.entries key).map (·.2)

omit [Std.TransOrd κ] in
theorem get?_eq_some_iff {m : SortedMap κ β} {key : κ} {value : β} :
    m.get? key = some value ↔ (key, value) ∈ m.entries := by
  unfold get?
  rw [Option.map_eq_some_iff]
  constructor
  · rintro ⟨entry, hentry, rfl⟩
    obtain ⟨hmem, rfl⟩ := (valueAt_eq_some_iff m.nodup_keys).mp hentry
    exact hmem
  · intro hmem
    exact ⟨(key, value), (valueAt_eq_some_iff m.nodup_keys).mpr ⟨hmem, rfl⟩, rfl⟩

omit [Std.TransOrd κ] in
theorem mem_keys_iff {m : SortedMap κ β} {key : κ} :
    key ∈ m.keys ↔ (m.get? key).isSome = true := by
  unfold keys
  rw [Option.isSome_iff_exists, List.mem_map]
  constructor
  · rintro ⟨⟨_, value⟩, hmem, rfl⟩
    exact ⟨value, get?_eq_some_iff.mpr hmem⟩
  · rintro ⟨value, h⟩
    exact ⟨(key, value), get?_eq_some_iff.mp h, rfl⟩

/-- Maps with the same values are equal. -/
theorem ext_get? {m n : SortedMap κ β} (h : ∀ key, m.get? key = n.get? key) : m = n := by
  refine ext_entries ?_
  have hperm : m.entries.Perm n.entries := by
    rw [List.perm_ext_iff_of_nodup m.nodup_keys.of_map n.nodup_keys.of_map]
    rintro ⟨key, value⟩
    rw [← get?_eq_some_iff, ← get?_eq_some_iff, h]
  refine hperm.eq_of_pairwise ?_ m.sorted n.sorted
  intro a b _ _ hab hba
  rw [Std.OrientedCmp.gt_of_lt hba] at hab
  cases hab

theorem get?_insert (m : SortedMap κ β) (key other : κ) (value : β) :
    (m.insert key value).get? other = if other = key then some value else m.get? other := by
  refine Option.ext fun found => ?_
  rw [get?_eq_some_iff]
  show (other, found) ∈ insertEntry key value m.entries ↔ _
  rw [mem_insertEntry_iff m.sorted, Prod.mk.injEq]
  split
  · rename_i h
    obtain rfl := h
    simp [eq_comm]
  · rename_i h
    rw [get?_eq_some_iff]
    simp [h]

theorem get?_foldl_insert {entries : List (κ × β)} (hnodup : (entries.map (·.1)).Nodup) :
    ∀ (m : SortedMap κ β) (key : κ) (value : β),
      (entries.foldl (fun m entry => m.insert entry.1 entry.2) m).get? key = some value ↔
        (key, value) ∈ entries ∨ (key ∉ entries.map (·.1) ∧ m.get? key = some value) := by
  induction entries with
  | nil => simp
  | cons entry entries ih =>
      intro m key value
      obtain ⟨first, old⟩ := entry
      rw [List.map_cons, List.nodup_cons] at hnodup
      rw [List.foldl_cons, ih hnodup.2, get?_insert, List.mem_cons, List.map_cons, List.mem_cons,
        Prod.mk.injEq]
      by_cases hkey : key = first
      · subst hkey
        have hnot : (key, value) ∉ entries := fun hmem =>
          hnodup.1 (List.mem_map.mpr ⟨_, hmem, rfl⟩)
        simp [hnot, hnodup.1, eq_comm]
      · simp [hkey]

/-- A map collected from entries with distinct keys holds just these. -/
theorem get?_ofEntries {entries : List (κ × β)} (hnodup : (entries.map (·.1)).Nodup) (key : κ)
    (value : β) : (ofEntries entries).get? key = some value ↔ (key, value) ∈ entries := by
  unfold ofEntries
  rw [get?_foldl_insert hnodup]
  refine ⟨?_, Or.inl⟩
  rintro (hmem | ⟨_, hempty⟩)
  · exact hmem
  · rw [get?_eq_some_iff] at hempty
    exact absurd hempty List.not_mem_nil

theorem mem_keys_ofEntries {entries : List (κ × β)} (hnodup : (entries.map (·.1)).Nodup)
    (key : κ) : key ∈ (ofEntries entries).keys ↔ key ∈ entries.map (·.1) := by
  rw [mem_keys_iff, Option.isSome_iff_exists, List.mem_map]
  constructor
  · rintro ⟨value, h⟩
    exact ⟨(key, value), (get?_ofEntries hnodup key value).mp h, rfl⟩
  · rintro ⟨⟨_, value⟩, hmem, rfl⟩
    exact ⟨value, (get?_ofEntries hnodup _ value).mpr hmem⟩

/-- The order of the entries does not show in the map. -/
theorem ofEntries_perm {left right : List (κ × β)} (hnodup : (left.map (·.1)).Nodup)
    (h : left.Perm right) : ofEntries left = ofEntries right := by
  have hnodup' : (right.map (·.1)).Nodup := (h.map _).nodup_iff.mp hnodup
  refine ext_get? fun key => Option.ext fun value => ?_
  rw [get?_ofEntries hnodup, get?_ofEntries hnodup', h.mem_iff]

end Laws

end SortedMap

end Prep.Data
