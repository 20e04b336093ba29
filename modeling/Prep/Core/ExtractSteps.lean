/-
  Core/ExtractSteps.lean --- what an extraction has put into the target, and what each
  of its calls adds.

  The target is described by two collections: the paths of its directories, and the
  contents of its files by path.  Whatever the order of the entries, both stay within
  what the archive asks for, and no path is asked for as a file and as a directory.

  Names are compared under a rule of the file system, which may take letters of either case for
  the same.  An inventory that is admitted has no two names that such a rule confuses.
-/
import Prep.Core.ArchiveInventory
import Prep.Core.SourceExtract
import Prep.Data.Effect

set_option autoImplicit false

namespace Prep.Core

open Prep.Data
open Prep.Fs
open Prep.Text

/-! ## What an archive asks for -/

/-- A directory an entry needs: an ancestor of it, or the entry itself. -/
def DirectoryOf (entry : ArchiveEntry) (path : Path) : Prop :=
  path ≠ [] ∧ path <+: components entry.name ∧
    (path = components entry.name → entry.kind = .directory)

/-- The file of a regular entry. -/
def FileOf (entry : ArchiveEntry) (path : Path) : Prop :=
  entry.kind = .regularFile ∧ path = components entry.name

/-- Directories and files that an archive asks for. -/
structure Within (entries : List ArchiveEntry) (dirs : Set Path) (files : Path → Option Bytes) :
    Prop where
  dir : ∀ path ∈ dirs, ∃ entry ∈ entries, DirectoryOf entry path
  file : ∀ path, files path ≠ none → ∃ entry ∈ entries, FileOf entry path

section Policy

variable {limits : ArchiveLimits} {entries : List ArchiveEntry}

theorem Admissible.alike (h : Admissible limits entries) {left right : Path}
    (hleft : ∃ entry ∈ entries, left <+: components entry.name)
    (hright : ∃ entry ∈ entries, right <+: components entry.name)
    (heq : lowered left = lowered right) : left = right := by
  obtain ⟨entry, hentry, hleft⟩ := hleft
  obtain ⟨other, hother, hright⟩ := hright
  exact h.spelling _ (List.mem_map_of_mem hentry) _ (List.mem_map_of_mem hother) left right
    hleft hright heq

theorem Admissible.components_inj (h : Admissible limits entries) {entry other : ArchiveEntry}
    (hentry : entry ∈ entries) (hother : other ∈ entries)
    (heq : components entry.name = components other.name) : entry = other :=
  List.inj_on_of_nodup_map h.distinct hentry hother
    (congrArg toAsciiLowercase (splitOn_injective heq))

/-- A file of the archive is no directory of it. -/
theorem Admissible.not_directoryOf (h : Admissible limits entries) {entry other : ArchiveEntry}
    (hentry : entry ∈ entries) (hother : other ∈ entries) {path : Path}
    (hfile : FileOf entry path) : ¬ DirectoryOf other path := by
  rintro ⟨_, hbegins, hdirectory⟩
  obtain ⟨hkind, rfl⟩ := hfile
  have hdir : entry.kind = .directory := by
    rcases splitOn_prefix_iff.mp hbegins with hname | ⟨rest, hname⟩
    · obtain rfl := h.components_inj hentry hother (congrArg components hname)
      exact hdirectory rfl
    · refine h.ancestors entry hentry other hother ⟨toAsciiLowercase rest, ?_⟩
      rw [hname, toAsciiLowercase_append, toAsciiLowercase_cons]
      rfl
  rw [hkind] at hdir
  cases hdir

theorem PortableEntry.ordinaryName {entry : ArchiveEntry} (h : PortableEntry limits entry)
    {component : Bytes} (hmem : component ∈ components entry.name) : OrdinaryName component := by
  have hname := h.name
  unfold admitName at hname
  obtain ⟨_, hvalid, _⟩ := bind_eq_ok_iff.mp hname
  unfold validateArchiveEntryPath at hvalid
  split at hvalid
  · cases hvalid
  · rename_i hpath
    rw [Bool.or_eq_true, not_or] at hpath
    have hcomponent := List.any_eq_false.mp (Bool.eq_false_iff.mpr hpath.2) component hmem
    rw [Bool.or_eq_true, Bool.or_eq_true, not_or, not_or] at hcomponent
    refine ⟨fun hnil => hcomponent.1.1 (by rw [hnil]; rfl), ?_⟩
    rw [relativeName, Bool.or_eq_false_iff]
    exact ⟨Bool.eq_false_iff.mpr hcomponent.1.2, Bool.eq_false_iff.mpr hcomponent.2⟩

theorem PortableEntry.regularFile {entry : ArchiveEntry} (h : PortableEntry limits entry)
    (hkind : entry.kind ≠ .directory) : entry.kind = .regularFile := by
  have hname := h.name
  unfold admitName at hname
  obtain ⟨_, _, hname⟩ := bind_eq_ok_iff.mp hname
  split at hname
  · cases hname
  · split at hname
    · cases hname
    · rename_i hother
      by_contra hfile
      exact hother ⟨hfile, hkind⟩

end Policy

/-! ## What is seen -/

open Classical in
/-- What is seen of a tree with these directories and files in it and nothing else. -/
noncomputable def layout (dirs : Set Path) (files : Path → Option Bytes) (path : Path) :
    Option Shape :=
  if path = [] ∨ path ∈ dirs then some .dir
  else (files path).map fun contents => .file contents 1

section Layout

variable {dirs : Set Path} {files : Path → Option Bytes} {path : Path}

theorem layout_of_dir (h : path = [] ∨ path ∈ dirs) : layout dirs files path = some .dir :=
  if_pos h

theorem layout_of_not_dir (h : ¬ (path = [] ∨ path ∈ dirs)) :
    layout dirs files path = (files path).map fun contents => .file contents 1 :=
  if_neg h

theorem dir_or_file_of_layout (h : layout dirs files path ≠ none) :
    path = [] ∨ path ∈ dirs ∨ files path ≠ none := by
  by_cases hdir : path = [] ∨ path ∈ dirs
  · exact or_assoc.mp (Or.inl hdir)
  · rw [layout_of_not_dir hdir] at h
    exact Or.inr (Or.inr fun hnone => h (by rw [hnone]; rfl))

theorem update_layout_dir :
    Function.update (layout dirs files) path (some .dir) = layout (insert path dirs) files := by
  funext other
  rcases eq_or_ne other path with rfl | hne
  · rw [Function.update_self, layout_of_dir (Or.inr (Set.mem_insert _ _))]
  · rw [Function.update_of_ne hne, layout, layout, Set.mem_insert_iff, or_iff_right hne]

theorem update_layout_file (h : ¬ (path = [] ∨ path ∈ dirs)) (contents : Bytes) :
    Function.update (layout dirs files) path (some (.file contents 1)) =
      layout dirs (Function.update files path (some contents)) := by
  funext other
  rcases eq_or_ne other path with rfl | hne
  · rw [Function.update_self, layout_of_not_dir h, Function.update_self, Option.map_some]
  · rw [Function.update_of_ne hne, layout, layout, Function.update_of_ne hne]

end Layout

/-! ## Relative paths -/

/-- The text of a relative path. -/
def relative (path : Path) : Bytes := [47].intercalate path

theorem relative_concat {path : Path} (h : ∀ component ∈ path, component ≠ [])
    (component : Bytes) :
    (if (relative path).isEmpty then relative path else relative path ++ [47]) ++ component =
      relative (path ++ [component]) := by
  cases path with
  | nil => exact (@List.intercalate_singleton _ [47] component).symm
  | cons first path =>
      have hne : relative (first :: path) ≠ [] := by
        cases path with
        | nil =>
            rw [relative, List.intercalate_singleton]
            exact h first List.mem_cons_self
        | cons second path =>
            rw [relative, List.intercalate_cons_cons]
            simp
      rw [if_neg (fun hempty => hne (List.isEmpty_iff.mp hempty)), relative, relative,
        intercalate_concat (List.cons_ne_nil _ _)]

/-! ## The state of an extraction -/

/-- The errors of faults that were due. -/
def Due (faults : List (Option Fault)) (e : SourceExtractionError) : Prop :=
  ∃ fault, some fault ∈ faults ∧ e = .io (.os fault.code)

/-- The target holds these directories and files and nothing else. -/
structure Holds (rule : CaseRule) (all : List (Option Fault)) (entries : List ArchiveEntry)
    (dirs : Set Path) (files : Path → Option Bytes) (w : World) : Prop where
  within : Within entries dirs files
  faults : w.faults ⊆ all
  tidy : Tidy rule w.tree
  seen : w.tree.shapeAt = layout dirs files

/-- The set `created` holds the paths of the directories. -/
def Records (created : Created) (dirs : Set Path) : Prop :=
  ∀ path, path ≠ [] → (∀ component ∈ path, 47 ∉ component) →
    (created.contains (relative path) = true ↔ path ∈ dirs)

theorem Records.insert {created : Created} {dirs : Set Path} (h : Records created dirs)
    {path : Path} (hne : path ≠ []) (hpath : ∀ component ∈ path, 47 ∉ component) :
    Records (created.insert (relative path)) (insert path dirs) := by
  intro other hother hseparated
  rw [Std.TreeSet.contains_insert, Bool.or_eq_true, beq_iff_eq, h other hother hseparated,
    Set.mem_insert_iff]
  refine or_congr_left ⟨fun heq => ?_, ?_⟩
  · exact intercalate_inj hseparated hpath hother hne (Std.LawfulEqOrd.eq_of_compare heq).symm
  · rintro rfl
    exact Std.ReflOrd.compare_self

/-! ## Calls -/

section Calls

variable {α β : Type} {all : List (Option Fault)} {w : World}

/-- A call ends as it says or with a fault that was due. -/
theorem yields_liftM_call {act : Node → Except Errno (α × Node)} {spoil : Fault → Node → Node}
    {next : Except Errno α → Extraction β} {post : β → World → Prop} (hfaults : w.faults ⊆ all)
    (hdue : ∀ code, next (.error (.os code)) = throw (.io (.os code)))
    (hok : ∀ a tree faults, act w.tree = .ok (a, tree) → faults ⊆ all →
      Yields (Due all) ⟨tree, faults⟩ (next (.ok a)) post)
    (herror : ∀ e faults, act w.tree = .error e → faults ⊆ all →
      Yields (Due all) ⟨w.tree, faults⟩ (next (.error e)) post) :
    Yields (Due all) w ((liftM (call act spoil) : Extraction (Except Errno α)) >>= next) post := by
  have htail : w.faults.tail ⊆ all := List.Subset.trans (List.tail_subset _) hfaults
  refine yields_lift_bind ?_
  unfold call
  cases hfault : w.faults.head?.join with
  | some fault =>
      dsimp only
      rw [hdue]
      refine ⟨fault, hfaults ?_, rfl⟩
      exact List.mem_of_mem_head? (Option.join_eq_some_iff.mp hfault)
  | none =>
      dsimp only
      cases hact : act w.tree with
      | ok result => exact hok result.1 result.2 _ hact htail
      | error e => exact herror e _ hact htail

/-- A call that succeeds is the only way on. -/
theorem yields_call {act : Node → Except Errno (α × Node)} {spoil : Fault → Node → Node}
    {next : α → Extraction β} {a : α} {tree : Node} {post : β → World → Prop}
    (hfaults : w.faults ⊆ all) (hact : act w.tree = .ok (a, tree))
    (hnext : ∀ faults, faults ⊆ all → Yields (Due all) ⟨tree, faults⟩ (next a) post) :
    Yields (Due all) w (orIo (call act spoil) >>= next) post := by
  rw [orIo, bind_assoc]
  refine yields_liftM_call hfaults (fun code => rfl) ?_ ?_
  · intro a' tree' faults hact' hsubset
    obtain ⟨rfl, rfl⟩ := Prod.mk.inj (Except.ok.inj (hact.symm.trans hact'))
    exact hnext faults hsubset
  · intro e faults herror
    cases hact.symm.trans herror

theorem yields_ask {act : Node → Except Errno α} {next : α → Extraction β} {a : α}
    {post : β → World → Prop} (hfaults : w.faults ⊆ all) (hact : act w.tree = .ok a)
    (hnext : ∀ faults, faults ⊆ all → Yields (Due all) ⟨w.tree, faults⟩ (next a) post) :
    Yields (Due all) w (orIo (ask act) >>= next) post :=
  yields_call hfaults (by rw [hact]; rfl) hnext

end Calls

/-! ## Steps -/

section Steps

variable {limits : ArchiveLimits} {entries : List ArchiveEntry} {rule : CaseRule}
  {all : List (Option Fault)} {dirs : Set Path} {files : Path → Option Bytes} {w : World}

/-- A path the archive asks for is the only spelling of it that is seen. -/
theorem Holds.alone (h : Holds rule all entries dirs files w) (hadmissible : Admissible limits entries)
    {parent : Path} {name other : Bytes}
    (hpath : ∃ entry ∈ entries, parent ++ [name] <+: components entry.name)
    (hfold : rule.fold other = rule.fold name)
    (hseen : w.tree.shapeAt (parent ++ [other]) ≠ none) : other = name := by
  rw [h.seen] at hseen
  have hother : ∃ entry ∈ entries, parent ++ [other] <+: components entry.name := by
    rcases dir_or_file_of_layout hseen with hnil | hdir | hfile
    · exact absurd hnil (List.append_ne_nil_of_right_ne_nil _ (List.cons_ne_nil _ _))
    · obtain ⟨entry, hentry, _, hbegins, _⟩ := h.within.dir _ hdir
      exact ⟨entry, hentry, hbegins⟩
    · obtain ⟨entry, hentry, _, heq⟩ := h.within.file _ hfile
      exact ⟨entry, hentry, heq ▸ List.prefix_refl _⟩
  have hsame := hadmissible.alike hother hpath
    (by simp only [lowered, List.map_append, List.map_singleton,
      CaseRule.lowercase_of_fold hfold])
  exact (List.cons.inj (List.append_cancel_left hsame)).1

/-- `ensure_subdirectory` opens a directory the archive asks for, new or not. -/
theorem ensureSubdirectory_yields (hadmissible : Admissible limits entries)
    (h : Holds rule all entries dirs files w) {parent : Path} {component : Bytes}
    {created : Created} (hcreated : Records created dirs)
    (hparent : parent = [] ∨ parent ∈ dirs) (hname : OrdinaryName component)
    {entry : ArchiveEntry} (hentry : entry ∈ entries)
    (hpath : DirectoryOf entry (parent ++ [component])) :
    Yields (Due all) w
      (ensureSubdirectory rule parent component (relative (parent ++ [component])) created)
      fun result w' => result.1 = parent ++ [component] ∧
        Records result.2 (insert (parent ++ [component]) dirs) ∧
        Holds rule all entries (insert (parent ++ [component]) dirs) files w' := by
  have hne : parent ++ [component] ≠ [] := hpath.1
  have hasked : ∃ entry ∈ entries, parent ++ [component] <+: components entry.name :=
    ⟨entry, hentry, hpath.2.1⟩
  have hseparated : ∀ name ∈ parent ++ [component], 47 ∉ name := fun name hmem =>
    separator_notMem_of_mem_splitOn (hpath.2.1.subset hmem)
  have hdir : w.tree.shapeAt parent = some .dir := by
    rw [h.seen]
    exact layout_of_dir hparent
  have hwithin : Within entries (insert (parent ++ [component]) dirs) files := by
    refine ⟨fun path hmem => ?_, h.within.file⟩
    rcases Set.mem_insert_iff.mp hmem with rfl | hmem
    · exact ⟨entry, hentry, hpath⟩
    · exact h.within.dir path hmem
  -- the open that follows, in a tree in which the directory is there
  have hopen : ∀ (tree : Node) (faults : List (Option Fault)) (created' : Created),
      Holds rule all entries (insert (parent ++ [component]) dirs) files ⟨tree, faults⟩ →
      Records created' (insert (parent ++ [component]) dirs) →
      Yields (Due all) ⟨tree, faults⟩
        (do let directory ← orIo (ask (openDirectory rule parent component))
            return (directory, created'))
        fun result w' => result.1 = parent ++ [component] ∧
          Records result.2 (insert (parent ++ [component]) dirs) ∧
          Holds rule all entries (insert (parent ++ [component]) dirs) files w' := by
    intro tree faults created' hholds hrecords
    refine yields_ask hholds.faults (openDirectory_of_present hname ?_ ?_ ?_)
      fun faults' hfaults' => yields_pure ?_
    · exact hholds.seen ▸ layout_of_dir (hparent.imp_right fun hmem => Set.mem_insert_of_mem _ hmem)
    · exact hholds.seen ▸ layout_of_dir (Or.inr (Set.mem_insert _ _))
    · exact fun other hfold hseen => hholds.alone hadmissible hasked hfold hseen
    · exact ⟨rfl, hrecords, hwithin, hfaults', hholds.tidy, hholds.seen⟩
  unfold ensureSubdirectory
  by_cases hknown : parent ++ [component] ∈ dirs
  · have hinsert : insert (parent ++ [component]) dirs = dirs := Set.insert_eq_of_mem hknown
    have htaken : mkdirat rule parent component w.tree = .error .exist := by
      refine mkdirat_of_present hname hdir ?_
      rw [h.seen, layout_of_dir (Or.inr hknown)]
      exact Option.some_ne_none _
    refine yields_liftM_call h.faults (fun code => rfl) ?_ ?_
    · intro _ tree faults hmkdir _
      rw [htaken] at hmkdir
      cases hmkdir
    · intro e faults hmkdir hfaults
      rw [htaken] at hmkdir
      cases hmkdir
      dsimp only
      rw [if_pos ((hcreated _ hne hseparated).mpr hknown), pure_bind]
      refine hopen _ _ _ ?_ (hinsert.symm ▸ hcreated)
      rw [hinsert]
      exact ⟨h.within, hfaults, h.tidy, h.seen⟩
  · have hfree : Free rule w.tree parent component := by
      intro other hfold
      by_contra hseen
      obtain rfl := h.alone hadmissible hasked hfold hseen
      rw [h.seen] at hseen
      rcases dir_or_file_of_layout hseen with hnil | hdir | hfile
      · exact hne hnil
      · exact hknown hdir
      · obtain ⟨file, hmem, hfile⟩ := h.within.file _ hfile
        exact hadmissible.not_directoryOf hmem hentry hfile hpath
    obtain ⟨next, hmkdir, htidy, hseen⟩ := mkdirat_of_free hname hdir hfree h.tidy
    refine yields_liftM_call h.faults (fun code => rfl) ?_ ?_
    · intro _ tree faults hok hfaults
      rw [hmkdir] at hok
      cases hok
      dsimp only
      rw [pure_bind]
      refine hopen _ _ _ ⟨hwithin, hfaults, htidy, ?_⟩ (hcreated.insert hne hseparated)
      rw [hseen, h.seen, update_layout_dir]
    · intro e faults herror _
      rw [hmkdir] at herror
      cases herror

/-- What a snapshot must give for its regular files. -/
def Delivers (snapshot : VerifiedUstarSnapshot) : Prop :=
  ∀ entry ∈ snapshot.inventory, entry.kind = .regularFile → ∃ bytes,
    snapshot.fileBytes entry.name = some bytes ∧ bytes.length = entry.expandedBytes

/-- A regular file is written once, under a name that is free. -/
theorem extractFile_yields {snapshot : VerifiedUstarSnapshot} (hdelivers : Delivers snapshot)
    (hadmissible : Admissible limits snapshot.inventory)
    (h : Holds rule all snapshot.inventory dirs files w) {entry : ArchiveEntry}
    (hentry : entry ∈ snapshot.inventory) (hkind : entry.kind = .regularFile) {parent : Path}
    {component : Bytes} (hpath : parent ++ [component] = components entry.name)
    (hparent : parent = [] ∨ parent ∈ dirs) (hnew : files (components entry.name) = none)
    {written : Nat} (hwritten : written + entry.expandedBytes ≤ limits.maxTotalBytes.toNat) :
    Yields (Due all) w (extractFile rule snapshot limits entry parent component written)
      fun written' w' => written' = written + entry.expandedBytes ∧
        Holds rule all snapshot.inventory dirs
          (Function.update files (components entry.name) (snapshot.fileBytes entry.name)) w' := by
  obtain ⟨bytes, hbytes, hlength⟩ := hdelivers entry hentry hkind
  have hportable := hadmissible.portable entry hentry
  have hfile : FileOf entry (components entry.name) := ⟨hkind, rfl⟩
  have hnotDir : ¬ (components entry.name = [] ∨ components entry.name ∈ dirs) := by
    rintro (hnil | hmem)
    · exact List.append_ne_nil_of_right_ne_nil _ (List.cons_ne_nil _ _) (hpath.trans hnil)
    · obtain ⟨other, hother, hdirectory⟩ := h.within.dir _ hmem
      exact hadmissible.not_directoryOf hentry hother hfile hdirectory
  have hunseen : w.tree.shapeAt (components entry.name) = none := by
    rw [h.seen, layout_of_not_dir hnotDir, hnew, Option.map_none]
  have hfree : Free rule w.tree parent component := by
    intro other hfold
    by_contra hseen
    obtain rfl := h.alone hadmissible ⟨entry, hentry, hpath ▸ List.prefix_refl _⟩ hfold hseen
    exact hseen (hpath ▸ hunseen)
  have hname : OrdinaryName component :=
    hportable.ordinaryName (hpath ▸ List.mem_append_right _ (List.mem_singleton.mpr rfl))
  have hdir : w.tree.shapeAt parent = some .dir := by
    rw [h.seen]
    exact layout_of_dir hparent
  obtain ⟨next, hcreate, htidy, hseen⟩ := createExclusive_of_free hname hdir hfree h.tidy
  rw [hpath] at hcreate hseen
  obtain ⟨htidy', hseen'⟩ := appendContents_of_file
    (by rw [hseen, Function.update_self] :
      next.shapeAt (components entry.name) = some (.file [] 1))
    htidy bytes
  have hlimit := limits.maxTotalBytes.toNat_lt
  have hsize := hportable.size
  unfold extractFile
  rw [if_neg (fun hne => hne hkind), hbytes]
  dsimp only
  rw [if_neg (fun hne => hne hlength), checkedAdd_eq_ok_iff.mpr ⟨rfl, by omega⟩]
  show Yields _ _ (if _ then _ else _) _
  rw [if_neg (by omega)]
  refine yields_call h.faults hcreate fun faults hfaults => ?_
  refine yields_call hfaults rfl fun faults hfaults => ?_
  refine yields_ask hfaults rfl fun faults hfaults => yields_pure ?_
  refine ⟨by rw [hlength], ⟨h.within.dir, fun path hpath => ?_⟩, hfaults, htidy', ?_⟩
  · rcases eq_or_ne path (components entry.name) with rfl | hne
    · exact ⟨entry, hentry, hfile⟩
    · rw [Function.update_of_ne hne] at hpath
      exact h.within.file path hpath
  · rw [hseen', hseen, Function.update_idem, h.seen, List.nil_append,
      update_layout_file hnotDir]

end Steps

end Prep.Core
