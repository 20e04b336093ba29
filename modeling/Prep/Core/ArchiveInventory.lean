/-
  Core/ArchiveInventory.lean --- what `validate_archive_inventory` admits, said
  without its maps and its order of checks.

  The two maps of the source are described by what they have met: lists of components in lower
  case, and the one spelling of each.  Lower case is that of ASCII letters only, as in the
  source.
-/
import Prep.Core.ArchivePolicy
import Prep.Data.Split

set_option autoImplicit false

namespace Prep.Core

open Prep.Data
open Prep.Text

/-- A list of components in lower case. -/
def lowered (path : List Bytes) : List Bytes := path.map toAsciiLowercase

@[simp] theorem lowered_append (left right : List Bytes) :
    lowered (left ++ right) = lowered left ++ lowered right :=
  List.map_append

/-! ## The policy -/

/-- What an entry must be on its own. -/
structure PortableEntry (limits : ArchiveLimits) (entry : ArchiveEntry) : Prop where
  name : admitName limits entry = .ok ()
  depth : (components entry.name).length ≤ 128
  directory : entry.kind = .directory → entry.expandedBytes = 0
  size : entry.expandedBytes ≤ limits.maxEntryBytes.toNat

/-- No two spellings of one component, wherever it occurs. -/
def SpelledAlike (paths : List (List Bytes)) : Prop :=
  ∀ path ∈ paths, ∀ other ∈ paths, ∀ left right,
    left <+: path → right <+: other → lowered left = lowered right → left = right

/-- What the loop over the entries asks of them. -/
structure Listed (limits : ArchiveLimits) (entries : List ArchiveEntry) : Prop where
  portable : ∀ entry ∈ entries, PortableEntry limits entry
  spelling : SpelledAlike (entries.map fun entry => components entry.name)
  distinct : (entries.map fun entry => toAsciiLowercase entry.name).Nodup
  total : (entries.map (·.expandedBytes)).sum ≤ limits.maxTotalBytes.toNat

/-- The policy of `validate_archive_inventory`. -/
structure Admissible (limits : ArchiveLimits) (entries : List ArchiveEntry) : Prop
    extends Listed limits entries where
  count : entries.length ≤ limits.maxEntries.toNat
  ancestors : ∀ entry ∈ entries, ∀ below ∈ entries,
    (∃ rest, toAsciiLowercase below.name = toAsciiLowercase entry.name ++ 47 :: rest) →
      entry.kind = .directory

/-! ## The map of components

Every number stands for a list of components, zero for none, and the map holds the
last component of each list under the number of the rest. -/

/-- `spelled` says which components each number of the map stands for. -/
structure Spells (known : Components) (spelled : Nat → List Bytes) : Prop where
  root : spelled 0 = []
  node : ∀ parent lower spelling id, known.lookup (parent, lower) = some (spelling, id) →
    lower = toAsciiLowercase spelling ∧ parent ≤ known.length ∧ id ≤ known.length ∧
      spelled id = spelled parent ++ [spelling]
  every : ∀ id, 0 < id → id ≤ known.length → ∃ parent spelling,
    known.lookup (parent, toAsciiLowercase spelling) = some (spelling, id)
  alike : ∀ i j, i ≤ known.length → j ≤ known.length →
    lowered (spelled i) = lowered (spelled j) → i = j

/-- The lists of components the map has met. -/
def Met (known : Components) (spelled : Nat → List Bytes) (path : List Bytes) : Prop :=
  ∃ id, id ≤ known.length ∧ spelled id = path

theorem spells_nil : Spells [] fun _ => [] where
  root := rfl
  node _ _ _ _ h := by cases h
  every id hpos hle := absurd hpos (Nat.not_lt.mpr hle)
  alike i j hi hj _ := by
    rw [Nat.le_zero.mp hi, Nat.le_zero.mp hj]

/-- A component that is not in the map gets the next number. -/
theorem Spells.insert {known : Components} {spelled : Nat → List Bytes}
    (h : Spells known spelled) {parent : Nat} (hparent : parent ≤ known.length)
    {component : Bytes} (hnew : known.lookup (parent, toAsciiLowercase component) = none) :
    Spells (((parent, toAsciiLowercase component), (component, known.length + 1)) :: known)
      (Function.update spelled (known.length + 1) (spelled parent ++ [component])) := by
  have hold : ∀ id, id ≤ known.length →
      Function.update spelled (known.length + 1) (spelled parent ++ [component]) id =
        spelled id := by
    intro id hid
    exact Function.update_of_ne (by omega) _ _
  -- a known list in the same lower case would have been found under the parent
  have hfresh : ∀ id, id ≤ known.length →
      lowered (spelled id) ≠ lowered (spelled parent ++ [component]) := by
    intro id hid heq
    rcases Nat.eq_zero_or_pos id with rfl | hpos
    · rw [h.root, lowered_append] at heq
      exact List.append_ne_nil_of_right_ne_nil _ (List.cons_ne_nil _ _) heq.symm
    · obtain ⟨parent', spelling, hlookup⟩ := h.every id hpos hid
      obtain ⟨_, hparent', _, hspelled⟩ := h.node _ _ _ _ hlookup
      rw [hspelled, lowered_append, lowered_append] at heq
      obtain ⟨hfront, hlast⟩ := List.append_inj' heq rfl
      obtain rfl := h.alike _ _ hparent' hparent hfront
      have hsame : toAsciiLowercase spelling = toAsciiLowercase component :=
        (List.cons.inj hlast).1
      rw [hsame, hnew] at hlookup
      cases hlookup
  refine ⟨?_, ?_, ?_, ?_⟩
  · rw [hold 0 (Nat.zero_le _), h.root]
  · intro parent' lower spelling id hlookup
    rw [List.lookup_cons] at hlookup
    rw [List.length_cons]
    split at hlookup
    · rename_i heq
      obtain ⟨rfl, rfl⟩ := Prod.mk.inj (eq_of_beq heq)
      cases hlookup
      refine ⟨rfl, Nat.le_succ_of_le hparent, le_refl _, ?_⟩
      rw [Function.update_self, hold parent' hparent]
    · obtain ⟨hlower, hparent', hid, hspelled⟩ := h.node _ _ _ _ hlookup
      refine ⟨hlower, Nat.le_succ_of_le hparent', Nat.le_succ_of_le hid, ?_⟩
      rw [hold id hid, hold parent' hparent', hspelled]
  · intro id hpos hid
    rw [List.length_cons] at hid
    rcases Nat.lt_or_ge known.length id with hlt | hle
    · obtain rfl : id = known.length + 1 := by omega
      exact ⟨parent, component, List.lookup_cons_self⟩
    · obtain ⟨parent', spelling, hlookup⟩ := h.every id hpos hle
      refine ⟨parent', spelling, ?_⟩
      rw [List.lookup_cons]
      split
      · rename_i heq
        rw [eq_of_beq heq, hnew] at hlookup
        cases hlookup
      · exact hlookup
  · intro i j hi hj heq
    rw [List.length_cons] at hi hj
    rcases Nat.lt_or_ge known.length i with hlti | hlei
    · obtain rfl : i = known.length + 1 := by omega
      rcases Nat.lt_or_ge known.length j with hltj | hlej
      · omega
      · rw [Function.update_self, hold j hlej] at heq
        exact absurd heq.symm (hfresh j hlej)
    · rcases Nat.lt_or_ge known.length j with hltj | hlej
      · obtain rfl : j = known.length + 1 := by omega
        rw [Function.update_self, hold i hlei] at heq
        exact absurd heq (hfresh i hlei)
      · rw [hold i hlei, hold j hlej] at heq
        exact h.alike i j hlei hlej heq

/-- The new number adds one list to those met. -/
theorem met_insert {known : Components} {spelled : Nat → List Bytes} {parent : Nat}
    {component : Bytes} {path : List Bytes} :
    Met (((parent, toAsciiLowercase component), (component, known.length + 1)) :: known)
      (Function.update spelled (known.length + 1) (spelled parent ++ [component])) path ↔
      Met known spelled path ∨ path = spelled parent ++ [component] := by
  constructor
  · rintro ⟨id, hid, rfl⟩
    rw [List.length_cons] at hid
    rcases Nat.lt_or_ge known.length id with hlt | hle
    · obtain rfl : id = known.length + 1 := by omega
      exact Or.inr (Function.update_self _ _ _)
    · exact Or.inl ⟨id, hle, (Function.update_of_ne (by omega) _ _).symm⟩
  · rintro (⟨id, hid, rfl⟩ | rfl)
    · exact ⟨id, Nat.le_succ_of_le hid, Function.update_of_ne (by omega) _ _⟩
    · exact ⟨known.length + 1, le_refl _, Function.update_self _ _ _⟩

/-- The lists of components a walk of `rest` from `parent` meets. -/
theorem prefix_cons_iff {component : Bytes} {front rest path : List Bytes} :
    (∃ left, left <+: component :: rest ∧ path = front ++ left) ↔
      path = front ∨ ∃ left, left <+: rest ∧ path = front ++ [component] ++ left := by
  constructor
  · rintro ⟨left, hleft, rfl⟩
    cases left with
    | nil => exact Or.inl (List.append_nil front)
    | cons first left =>
        obtain ⟨rfl, hrest⟩ := List.cons_prefix_cons.mp hleft
        exact Or.inr ⟨left, hrest, List.append_cons front first left⟩
  · rintro (rfl | ⟨left, hleft, rfl⟩)
    · exact ⟨[], List.nil_prefix, (List.append_nil path).symm⟩
    · exact ⟨component :: left, List.cons_prefix_cons.mpr ⟨rfl, hleft⟩,
        (List.append_cons front component left).symm⟩

/-- A name whose components are admitted is within the depth, and the map then
knows its components beside what it knew. -/
theorem admitComponents_ok {rest : List Bytes} :
    ∀ {known known' : Components} {spelled : Nat → List Bytes} {parent depth : Nat},
      Spells known spelled → parent ≤ known.length → depth ≤ 128 →
      admitComponents known parent depth rest = .ok known' →
      depth + rest.length ≤ 128 ∧ ∃ spelled', Spells known' spelled' ∧
        ∀ path, Met known' spelled' path ↔
          Met known spelled path ∨ ∃ left, left <+: rest ∧ path = spelled parent ++ left := by
  induction rest with
  | nil =>
      intro known known' spelled parent depth hspells hparent hdepth hok
      cases hok
      refine ⟨hdepth, spelled, hspells, fun path => ?_⟩
      rw [or_iff_left_of_imp]
      rintro ⟨left, hleft, rfl⟩
      obtain rfl := List.prefix_nil.mp hleft
      exact ⟨parent, hparent, (List.append_nil _).symm⟩
  | cons component rest ih =>
      intro known known' spelled parent depth hspells hparent hdepth hok
      rw [admitComponents] at hok
      split at hok
      · cases hok
      · rename_i hshallow
        dsimp only at hok
        split at hok
        · rename_i spelling id hlookup
          split at hok
          · cases hok
          · rename_i hspelling
            rw [not_not] at hspelling
            obtain rfl := hspelling
            obtain ⟨_, _, hid, hspelled⟩ := hspells.node _ _ _ _ hlookup
            obtain ⟨hlength, spelled', hspells', hmet⟩ := ih hspells hid (by omega) hok
            refine ⟨by rw [List.length_cons]; omega, spelled', hspells', fun path => ?_⟩
            have hhere : path = spelled parent → Met known spelled path := by
              rintro rfl
              exact ⟨parent, hparent, rfl⟩
            rw [hmet, hspelled, prefix_cons_iff]
            tauto
        · rename_i hnew
          obtain ⟨hlength, spelled', hspells', hmet⟩ :=
            ih (hspells.insert hparent hnew) (le_refl _) (by omega) hok
          refine ⟨by rw [List.length_cons]; omega, spelled', hspells', fun path => ?_⟩
          have hhere : path = spelled parent → Met known spelled path := by
            rintro rfl
            exact ⟨parent, hparent, rfl⟩
          have hthere : path = spelled parent ++ [component] →
              ∃ left, left <+: rest ∧ path = spelled parent ++ [component] ++ left := by
            rintro rfl
            exact ⟨[], List.nil_prefix, (List.append_nil _).symm⟩
          rw [hmet, met_insert, List.length_cons, Function.update_self, prefix_cons_iff]
          tauto

/-- A name within the depth is admitted when its components are spelled like those
the map knows. -/
theorem admitComponents_of_alike {rest : List Bytes} :
    ∀ {known : Components} {spelled : Nat → List Bytes} {parent depth : Nat},
      Spells known spelled → parent ≤ known.length → depth + rest.length ≤ 128 →
      (∀ path left, Met known spelled path → left <+: rest →
        lowered path = lowered (spelled parent ++ left) → path = spelled parent ++ left) →
      ∃ known', admitComponents known parent depth rest = .ok known' := by
  induction rest with
  | nil =>
      intro known spelled parent depth _ _ _ _
      exact ⟨known, rfl⟩
  | cons component rest ih =>
      intro known spelled parent depth hspells hparent hdepth halike
      rw [List.length_cons] at hdepth
      rw [admitComponents, if_neg (by omega)]
      dsimp only
      cases hlookup : known.lookup (parent, toAsciiLowercase component) with
      | some entry =>
          obtain ⟨spelling, id⟩ := entry
          obtain ⟨hlower, _, hid, hspelled⟩ := hspells.node _ _ _ _ hlookup
          have hsame : spelled id = spelled parent ++ [component] := by
            refine halike _ [component] ⟨id, hid, rfl⟩
              (List.cons_prefix_cons.mpr ⟨rfl, List.nil_prefix⟩) ?_
            rw [hspelled, lowered_append, lowered_append]
            exact congrArg (lowered (spelled parent) ++ [·]) hlower.symm
          have hspelling : spelling = component := by
            rw [hspelled] at hsame
            exact (List.cons.inj (List.append_cancel_left hsame)).1
          simp only [hspelling, ne_eq, not_true_eq_false, if_false]
          refine @ih known spelled id (depth + 1) hspells hid (by omega)
            fun path left hmet hleft heq => ?_
          rw [hsame, ← List.append_cons] at heq ⊢
          exact halike path (component :: left) hmet
            (List.cons_prefix_cons.mpr ⟨rfl, hleft⟩) heq
      | none =>
          dsimp only
          refine @ih _ _ (known.length + 1) (depth + 1) (hspells.insert hparent hlookup)
            (le_refl _) (by omega) fun path left hmet hleft heq => ?_
          rw [Function.update_self] at heq ⊢
          rcases met_insert.mp hmet with hmet | rfl
          · rw [← List.append_cons] at heq ⊢
            exact halike path (component :: left) hmet
              (List.cons_prefix_cons.mpr ⟨rfl, hleft⟩) heq
          · -- lists of different lengths are not equal in lower case
            rw [lowered_append _ left] at heq
            have hnil : lowered left = [] := List.self_eq_append_right.mp heq
            rw [List.map_eq_nil_iff.mp hnil, List.append_nil]

/-! ## The loop over the entries -/

/-- The variables of the loop describe the entries it has passed. -/
structure Describes (state : InventoryState) (spelled : Nat → List Bytes)
    (passed : List ArchiveEntry) : Prop where
  total : state.total = (passed.map (·.expandedBytes)).sum
  paths : ∀ path kind, state.paths[path]? = some kind ↔
    ∃ entry ∈ passed, toAsciiLowercase entry.name = path ∧ entry.kind = kind
  spells : Spells state.known spelled
  met : ∀ path, Met state.known spelled path ↔
    path = [] ∨ ∃ entry ∈ passed, path <+: components entry.name

theorem describes_nil : Describes ⟨0, ∅, []⟩ (fun _ => []) [] where
  total := rfl
  paths path kind := by simp
  spells := spells_nil
  met path := by
    constructor
    · rintro ⟨_, _, rfl⟩
      exact Or.inl rfl
    · rintro (rfl | ⟨_, hmem, _⟩)
      · exact ⟨0, le_refl 0, rfl⟩
      · cases hmem

theorem Describes.spelledAlike {state : InventoryState} {spelled : Nat → List Bytes}
    {passed : List ArchiveEntry} (h : Describes state spelled passed) :
    SpelledAlike (passed.map fun entry => components entry.name) := by
  intro path hpath other hother left right hleft hright heq
  obtain ⟨entry, hentry, rfl⟩ := List.mem_map.mp hpath
  obtain ⟨entry', hentry', rfl⟩ := List.mem_map.mp hother
  obtain ⟨i, hi, rfl⟩ := (h.met left).mpr (Or.inr ⟨entry, hentry, hleft⟩)
  obtain ⟨j, hj, rfl⟩ := (h.met right).mpr (Or.inr ⟨entry', hentry', hright⟩)
  rw [h.spells.alike i j hi hj heq]

theorem Describes.contains_iff {state : InventoryState} {spelled : Nat → List Bytes}
    {passed : List ArchiveEntry} (h : Describes state spelled passed) {path : Bytes} :
    state.paths.contains path = true ↔
      path ∈ passed.map fun entry => toAsciiLowercase entry.name := by
  rw [Std.TreeMap.contains_eq_isSome_getElem?, Option.isSome_iff_exists, List.mem_map]
  constructor
  · rintro ⟨kind, hkind⟩
    obtain ⟨entry, hentry, hpath, _⟩ := (h.paths path kind).mp hkind
    exact ⟨entry, hentry, hpath⟩
  · rintro ⟨entry, hentry, hpath⟩
    exact ⟨entry.kind, (h.paths path entry.kind).mpr ⟨entry, hentry, hpath, rfl⟩⟩

/-- A passed entry is added to what the variables describe. -/
theorem Describes.append {state : InventoryState} {spelled spelled' : Nat → List Bytes}
    {passed : List ArchiveEntry} (h : Describes state spelled passed) {entry : ArchiveEntry}
    {known : Components}
    (hnew : toAsciiLowercase entry.name ∉ passed.map fun entry => toAsciiLowercase entry.name)
    (hspells : Spells known spelled')
    (hmet : ∀ path, Met known spelled' path ↔ Met state.known spelled path ∨
      ∃ left, left <+: components entry.name ∧ path = spelled 0 ++ left) :
    Describes ⟨state.total + entry.expandedBytes,
      state.paths.insert (toAsciiLowercase entry.name) entry.kind, known⟩ spelled'
      (passed ++ [entry]) where
  total := by
    rw [List.map_append, List.sum_append, h.total]
    rfl
  paths path kind := by
    rw [Std.TreeMap.getElem?_insert]
    simp only [List.mem_append, List.mem_singleton, or_and_right, exists_or, exists_eq_left]
    split
    · rename_i heq
      obtain rfl := Std.LawfulEqOrd.eq_of_compare heq
      have hnone : ¬ ∃ other ∈ passed, toAsciiLowercase other.name =
          toAsciiLowercase entry.name ∧ other.kind = kind := by
        rintro ⟨other, hother, hname, _⟩
        exact hnew (List.mem_map.mpr ⟨other, hother, hname⟩)
      rw [Option.some.injEq]
      constructor
      · intro hkind
        exact Or.inr ⟨rfl, hkind⟩
      · rintro (hold | ⟨_, hkind⟩)
        · exact absurd hold hnone
        · exact hkind
    · rename_i hne
      rw [h.paths]
      constructor
      · exact Or.inl
      · rintro (hold | ⟨rfl, _⟩)
        · exact hold
        · exact absurd Std.ReflOrd.compare_self hne
  spells := hspells
  met path := by
    rw [hmet, h.met, h.spells.root]
    simp only [List.nil_append, List.mem_append, List.mem_singleton, or_and_right, exists_or,
      exists_eq_left, exists_eq_right', or_assoc]

/-- An entry that passes keeps the list in order. -/
theorem admitEntry_ok {limits : ArchiveLimits} {state state' : InventoryState}
    {spelled : Nat → List Bytes} {passed : List ArchiveEntry} {entry : ArchiveEntry}
    (hlisted : Listed limits passed) (hdescribes : Describes state spelled passed)
    (hok : admitEntry limits state entry = .ok state') :
    Listed limits (passed ++ [entry]) ∧
      ∃ spelled', Describes state' spelled' (passed ++ [entry]) := by
  unfold admitEntry at hok
  obtain ⟨_, hname, hok⟩ := bind_eq_ok_iff.mp hok
  obtain ⟨known, hknown, hok⟩ := bind_eq_ok_iff.mp hok
  obtain ⟨hdepth, spelled', hspells, hmet⟩ :=
    admitComponents_ok hdescribes.spells (Nat.zero_le _) (Nat.zero_le _) hknown
  dsimp only at hok
  split at hok
  · cases hok
  · rename_i hcontains
    split at hok
    · cases hok
    · rename_i hdirectory
      split at hok
      · cases hok
      · rename_i hsize
        obtain ⟨total, hadd, hok⟩ := bind_eq_ok_iff.mp hok
        obtain ⟨rfl, _⟩ := checkedAdd_eq_ok_iff.mp hadd
        split at hok
        · cases hok
        · rename_i htotal
          cases hok
          have hnew := hdescribes.contains_iff.not.mp hcontains
          have hnext := hdescribes.append hnew hspells hmet
          have hportable : PortableEntry limits entry :=
            ⟨hname, by omega, fun hkind => by_contra fun hne => hdirectory ⟨hkind, hne⟩,
              by omega⟩
          refine ⟨⟨?_, hnext.spelledAlike, ?_, ?_⟩, spelled', hnext⟩
          · intro other hother
            rcases List.mem_append.mp hother with hother | hother
            · exact hlisted.portable other hother
            · exact List.mem_singleton.mp hother ▸ hportable
          · rw [List.map_append, List.nodup_append]
            refine ⟨hlisted.distinct, List.nodup_singleton _, fun path hpath other hother => ?_⟩
            rw [List.map_singleton, List.mem_singleton] at hother
            rintro rfl
            exact hnew (hother ▸ hpath)
          · rw [← hnext.total]
            exact Nat.le_of_not_lt htotal

/-- An entry that keeps the list in order passes. -/
theorem admitEntry_of_listed {limits : ArchiveLimits} {state : InventoryState}
    {spelled : Nat → List Bytes} {passed : List ArchiveEntry} {entry : ArchiveEntry}
    (hlisted : Listed limits (passed ++ [entry])) (hdescribes : Describes state spelled passed) :
    ∃ state', admitEntry limits state entry = .ok state' := by
  have hportable := hlisted.portable entry (List.mem_append_right _ (List.mem_singleton.mpr rfl))
  have hdistinct := hlisted.distinct
  rw [List.map_append, List.map_singleton, ← List.concat_eq_append, List.nodup_concat] at hdistinct
  have htotal := hlisted.total
  rw [List.map_append, List.sum_append, ← hdescribes.total, List.map_singleton,
    List.sum_singleton] at htotal
  have hlimit := limits.maxTotalBytes.toNat_lt
  obtain ⟨known, hknown⟩ : ∃ known,
      admitComponents state.known 0 0 (components entry.name) = .ok known := by
    refine admitComponents_of_alike hdescribes.spells (Nat.zero_le _)
      (by rw [Nat.zero_add]; exact hportable.depth) fun path left hmet hleft heq => ?_
    rw [hdescribes.spells.root, List.nil_append] at heq ⊢
    have hentry : components entry.name ∈
        (passed ++ [entry]).map fun entry => components entry.name :=
      List.mem_map_of_mem (List.mem_append_right _ (List.mem_singleton.mpr rfl))
    rcases (hdescribes.met path).mp hmet with rfl | ⟨other, hother, hpath⟩
    · exact (List.map_eq_nil_iff.mp heq.symm).symm
    · exact hlisted.spelling _ (List.mem_map_of_mem (List.mem_append_left _ hother)) _ hentry
        path left hpath hleft heq
  refine ⟨⟨state.total + entry.expandedBytes,
    state.paths.insert (toAsciiLowercase entry.name) entry.kind, known⟩, ?_⟩
  unfold admitEntry
  refine bind_eq_ok_iff.mpr ⟨(), hportable.name, bind_eq_ok_iff.mpr ⟨known, hknown, ?_⟩⟩
  dsimp only
  rw [if_neg (hdescribes.contains_iff.not.mpr hdistinct.1),
    if_neg (fun h => h.2 (hportable.directory h.1)), if_neg (Nat.not_lt.mpr hportable.size)]
  refine bind_eq_ok_iff.mpr ⟨_, checkedAdd_eq_ok_iff.mpr ⟨rfl, by omega⟩, ?_⟩
  rw [if_neg (Nat.not_lt.mpr htotal)]

theorem Listed.of_append {limits : ArchiveLimits} {front back : List ArchiveEntry}
    (h : Listed limits (front ++ back)) : Listed limits front where
  portable entry hentry := h.portable entry (List.mem_append_left _ hentry)
  spelling path hpath other hother := by
    refine h.spelling path ?_ other ?_
    · rw [List.map_append]
      exact List.mem_append_left _ hpath
    · rw [List.map_append]
      exact List.mem_append_left _ hother
  distinct := by
    have hdistinct := h.distinct
    rw [List.map_append] at hdistinct
    exact hdistinct.of_append_left
  total := by
    have htotal := h.total
    rw [List.map_append, List.sum_append] at htotal
    omega

theorem listed_nil (limits : ArchiveLimits) : Listed limits [] where
  portable _ h := absurd h List.not_mem_nil
  spelling _ h := absurd h List.not_mem_nil
  distinct := List.nodup_nil
  total := Nat.zero_le _

/-- The loop passes exactly the lists in order, and its variables then describe
them. -/
theorem foldlM_admitEntry_isOk {limits : ArchiveLimits} {entries : List ArchiveEntry} :
    ∀ {passed : List ArchiveEntry} {state : InventoryState} {spelled : Nat → List Bytes},
      Listed limits passed → Describes state spelled passed →
      ((∃ state', entries.foldlM (admitEntry limits) state = .ok state') ↔
        Listed limits (passed ++ entries)) ∧
      ∀ state', entries.foldlM (admitEntry limits) state = .ok state' →
        ∃ spelled', Describes state' spelled' (passed ++ entries) := by
  induction entries with
  | nil =>
      intro passed state spelled hlisted hdescribes
      rw [List.append_nil]
      refine ⟨⟨fun _ => hlisted, fun _ => ⟨state, rfl⟩⟩, fun state' hok => ?_⟩
      cases hok
      exact ⟨spelled, hdescribes⟩
  | cons entry entries ih =>
      intro passed state spelled hlisted hdescribes
      rw [List.append_cons]
      refine ⟨⟨?_, fun hall => ?_⟩, fun state' hok => ?_⟩
      · rintro ⟨state', hok⟩
        rw [List.foldlM_cons] at hok
        obtain ⟨next, hnext, hrest⟩ := bind_eq_ok_iff.mp hok
        obtain ⟨hlisted', spelled', hdescribes'⟩ := admitEntry_ok hlisted hdescribes hnext
        exact (ih hlisted' hdescribes').1.mp ⟨state', hrest⟩
      · obtain ⟨next, hnext⟩ := admitEntry_of_listed hall.of_append hdescribes
        obtain ⟨hlisted', spelled', hdescribes'⟩ := admitEntry_ok hlisted hdescribes hnext
        obtain ⟨state', hrest⟩ := (ih hlisted' hdescribes').1.mpr hall
        refine ⟨state', ?_⟩
        rw [List.foldlM_cons]
        exact bind_eq_ok_iff.mpr ⟨next, hnext, hrest⟩
      · rw [List.foldlM_cons] at hok
        obtain ⟨next, hnext, hrest⟩ := bind_eq_ok_iff.mp hok
        obtain ⟨hlisted', spelled', hdescribes'⟩ := admitEntry_ok hlisted hdescribes hnext
        exact (ih hlisted' hdescribes').2 state' hrest

/-! ## The ancestors -/

/-- A path has a file among its ancestors when what stands before one of its
separators is one. -/
theorem hasFileAncestor_iff {paths : Std.TreeMap Bytes ArchiveEntryKind} {path : Bytes} :
    hasFileAncestor paths path = true ↔ ∃ ancestor rest kind,
      path = ancestor ++ 47 :: rest ∧ paths[ancestor]? = some kind ∧ kind ≠ .directory := by
  unfold hasFileAncestor
  rw [List.any_eq_true]
  simp only [Prod.exists, List.mem_zipIdx_iff_getElem?, Bool.and_eq_true, beq_iff_eq,
    Option.any_eq_true, bne_iff_ne]
  constructor
  · rintro ⟨byte, index, hindex, rfl, kind, hkind, hfile⟩
    obtain ⟨hlt, hbyte⟩ := List.getElem?_eq_some_iff.mp hindex
    refine ⟨path.take index, path.drop (index + 1), kind, ?_, hkind, hfile⟩
    rw [← hbyte, List.cons_getElem_drop_succ, List.take_append_drop]
  · rintro ⟨ancestor, rest, kind, rfl, hkind, hfile⟩
    refine ⟨47, ancestor.length, ?_, rfl, kind, ?_, hfile⟩
    · rw [List.getElem?_append_right (le_refl _), Nat.sub_self]
      rfl
    · rw [List.take_left]
      exact hkind

/-- The last check of the inventory finds no file among the ancestors of a path. -/
theorem any_hasFileAncestor_iff {state : InventoryState} {spelled : Nat → List Bytes}
    {entries : List ArchiveEntry} (h : Describes state spelled entries) :
    state.paths.keys.any (hasFileAncestor state.paths) = true ↔
      ∃ entry ∈ entries, ∃ below ∈ entries,
        (∃ rest, toAsciiLowercase below.name = toAsciiLowercase entry.name ++ 47 :: rest) ∧
        entry.kind ≠ .directory := by
  rw [List.any_eq_true]
  constructor
  · rintro ⟨path, hpath, hfile⟩
    obtain ⟨ancestor, rest, kind, rfl, hkind, hne⟩ := hasFileAncestor_iff.mp hfile
    rw [Std.TreeMap.mem_keys, ← Std.TreeMap.contains_iff_mem, h.contains_iff] at hpath
    obtain ⟨below, hbelow, hname⟩ := List.mem_map.mp hpath
    obtain ⟨entry, hentry, rfl, rfl⟩ := (h.paths ancestor kind).mp hkind
    exact ⟨entry, hentry, below, hbelow, ⟨rest, hname⟩, hne⟩
  · rintro ⟨entry, hentry, below, hbelow, ⟨rest, hname⟩, hne⟩
    refine ⟨toAsciiLowercase below.name, ?_, hasFileAncestor_iff.mpr ?_⟩
    · rw [Std.TreeMap.mem_keys, ← Std.TreeMap.contains_iff_mem, h.contains_iff]
      exact List.mem_map_of_mem hbelow
    · exact ⟨_, rest, entry.kind, hname, (h.paths _ _).mpr ⟨entry, hentry, rfl, rfl⟩, hne⟩

/-- `validate_archive_inventory` accepts exactly the lists its policy admits, with
the sum of their sizes. -/
theorem validateArchiveInventory_eq_ok_iff {entries : List ArchiveEntry}
    {limits : ArchiveLimits} {total : Nat} :
    validateArchiveInventory entries limits = .ok total ↔
      Admissible limits entries ∧ total = (entries.map (·.expandedBytes)).sum := by
  obtain ⟨hisOk, hdescribes⟩ :=
    @foldlM_admitEntry_isOk limits entries _ _ _ (listed_nil limits) describes_nil
  rw [List.nil_append] at hisOk
  unfold validateArchiveInventory
  constructor
  · intro hok
    split at hok
    · cases hok
    · rename_i hcount
      obtain ⟨state, hstate, hok⟩ := bind_eq_ok_iff.mp hok
      obtain ⟨spelled, hdescribes⟩ := hdescribes state hstate
      split at hok
      · cases hok
      · rename_i hancestors
        rw [any_hasFileAncestor_iff hdescribes] at hancestors
        cases hok
        refine ⟨⟨hisOk.mp ⟨state, hstate⟩, Nat.le_of_not_lt hcount, ?_⟩, hdescribes.total⟩
        intro entry hentry below hbelow hname
        by_contra hne
        exact hancestors ⟨entry, hentry, below, hbelow, hname, hne⟩
  · rintro ⟨hadmissible, rfl⟩
    rw [if_neg (Nat.not_lt.mpr hadmissible.count)]
    obtain ⟨state, hstate⟩ := hisOk.mpr hadmissible.toListed
    obtain ⟨spelled, hdescribes⟩ := hdescribes state hstate
    refine bind_eq_ok_iff.mpr ⟨state, hstate, ?_⟩
    have hancestors : ¬ state.paths.keys.any (hasFileAncestor state.paths) = true := by
      rw [any_hasFileAncestor_iff hdescribes]
      rintro ⟨entry, hentry, below, hbelow, hname, hne⟩
      exact hne (hadmissible.ancestors entry hentry below hbelow hname)
    rw [if_neg hancestors, hdescribes.total]
    rfl

end Prep.Core
