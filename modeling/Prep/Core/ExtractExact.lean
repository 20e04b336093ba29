/-
  Core/ExtractExact.lean --- an extraction puts a snapshot's archive into the target:
  all of it, nothing else, and nothing at all when it refuses.

  Every call of the operating system may fail, and an extraction that fails says so with the
  error of the call.  What it had written before stays in the target, as in the source, and
  nothing more is said of it.  Modes, owners and times are not part of a tree.
-/
import Prep.Core.ExtractSteps
import Prep.Core.UstarSnapshot

set_option autoImplicit false

namespace Prep.Core

open Prep.Data
open Prep.Fs
open Prep.Io
open Prep.Manifest
open Prep.Text

/-! ## The loops -/

section Loops

variable {limits : ArchiveLimits} {rule : CaseRule} {all : List (Option Fault)}
  {snapshot : VerifiedUstarSnapshot}

/-- The directories some entries need. -/
def directoriesOf (entries : List ArchiveEntry) : Set Path :=
  {path | ∃ entry ∈ entries, DirectoryOf entry path}

/-- The contents of the regular files among some entries. -/
def FilesOf (snapshot : VerifiedUstarSnapshot) (entries : List ArchiveEntry)
    (files : Path → Option Bytes) : Prop :=
  ∀ path contents, files path = some contents ↔
    ∃ entry ∈ entries, FileOf entry path ∧ snapshot.fileBytes entry.name = some contents

/-- The files once an entry is through. -/
def addFile (snapshot : VerifiedUstarSnapshot) (entry : ArchiveEntry)
    (files : Path → Option Bytes) : Path → Option Bytes :=
  if entry.kind = .regularFile then
    Function.update files (components entry.name) (snapshot.fileBytes entry.name)
  else files

/-- The loop over the components makes the directories of an entry and writes its
file. -/
theorem extractComponents_yields (hdelivers : Delivers snapshot)
    (hadmissible : Admissible limits snapshot.inventory) {entry : ArchiveEntry}
    (hentry : entry ∈ snapshot.inventory) {files : Path → Option Bytes}
    (hnew : files (components entry.name) = none) {written : Nat}
    (hwritten : written + entry.expandedBytes ≤ limits.maxTotalBytes.toNat) (rest : List Bytes) :
    ∀ {parent : Path} {dirs : Set Path} {created : Created} {w : World},
      parent ++ rest = components entry.name → (rest = [] → entry.kind = .directory) →
      Holds rule all snapshot.inventory dirs files w → Records created dirs →
      (parent = [] ∨ parent ∈ dirs) →
      (∀ path, DirectoryOf entry path → path <+: parent → path ∈ dirs) →
      Yields (Due all) w
        (extractComponents rule snapshot limits entry parent (relative parent)
          ⟨created, written⟩ rest)
        fun progress w' => progress.written = written + entry.expandedBytes ∧
          Records progress.created (dirs ∪ directoriesOf [entry]) ∧
          Holds rule all snapshot.inventory (dirs ∪ directoriesOf [entry])
            (addFile snapshot entry files) w' := by
  have hportable := hadmissible.portable entry hentry
  have hordinary : ∀ component ∈ components entry.name, OrdinaryName component :=
    fun component hmem => hportable.ordinaryName hmem
  have hunion : ∀ {dirs : Set Path}, (∀ path, DirectoryOf entry path → path ∈ dirs) →
      dirs ∪ directoriesOf [entry] = dirs := by
    intro dirs hall
    refine Set.union_eq_self_of_subset_right ?_
    rintro path ⟨other, hother, hpath⟩
    obtain rfl := List.mem_singleton.mp hother
    exact hall path hpath
  induction rest with
  | nil =>
      intro parent dirs created w hpath hkind hholds hrecords _ hmade
      have hdirectory := hkind rfl
      rw [List.append_nil] at hpath
      rw [hunion fun path hdir => hmade path hdir (hpath ▸ hdir.2.1), extractComponents,
        addFile, if_neg (by rw [hdirectory]; exact ArchiveEntryKind.noConfusion),
        hportable.directory hdirectory]
      exact yields_pure ⟨rfl, hrecords, hholds⟩
  | cons component rest ih =>
      intro parent dirs created w hpath hkind hholds hrecords hparent hmade
      have hmem : component ∈ components entry.name :=
        hpath ▸ List.mem_append_right _ List.mem_cons_self
      have hconcat : (parent ++ [component]) ++ rest = components entry.name :=
        (List.append_cons parent component rest).symm.trans hpath
      have hnonempty : ∀ name ∈ parent, name ≠ [] := fun name hname =>
        (hordinary name (hpath ▸ List.mem_append_left _ hname)).1
      unfold extractComponents
      dsimp only
      rw [relative_concat hnonempty]
      split
      · rename_i hdown
        have hdir : DirectoryOf entry (parent ++ [component]) := by
          refine ⟨List.append_ne_nil_of_right_ne_nil _ (List.cons_ne_nil _ _),
            ⟨rest, hconcat⟩, fun heq => ?_⟩
          rcases hdown with hmore | hdirectory
          · rw [← heq] at hconcat
            exact absurd (List.append_right_eq_self.mp hconcat) hmore
          · exact hdirectory
        have hsame : insert (parent ++ [component]) dirs ∪ directoriesOf [entry] =
            dirs ∪ directoriesOf [entry] := by
          rw [Set.insert_union]
          exact Set.insert_eq_of_mem (Or.inr ⟨entry, List.mem_singleton.mpr rfl, hdir⟩)
        refine (ensureSubdirectory_yields hadmissible hholds hrecords hparent
          (hordinary component hmem) hentry hdir).bind ?_
        rintro ⟨parent', created'⟩ w' ⟨rfl, hrecords', hholds'⟩
        rw [← hsame]
        refine ih hconcat (fun hnil => hdown.resolve_left (fun hne => hne hnil)) hholds'
          hrecords' (Or.inr (Set.mem_insert _ _)) fun path hpath hbegins => ?_
        rcases List.prefix_concat_iff.mp hbegins with rfl | hbegins
        · exact Set.mem_insert _ _
        · exact Set.mem_insert_of_mem _ (hmade path hpath hbegins)
      · rename_i hlast
        rw [not_or, not_not] at hlast
        obtain ⟨rfl, hfile⟩ := hlast
        have hregular := hportable.regularFile hfile
        rw [hunion fun path hdir => ?_]
        · refine (extractFile_yields hdelivers hadmissible hholds hentry hregular hpath hparent
            hnew hwritten).bind ?_
          rintro written' w' ⟨rfl, hholds'⟩
          rw [extractComponents, addFile, if_pos hregular]
          exact yields_pure ⟨rfl, hrecords, hholds'⟩
        · rcases List.prefix_concat_iff.mp (hpath ▸ hdir.2.1) with heq | hbegins
          · exact absurd (hdir.2.2 (heq.trans hpath)) hfile
          · exact hmade path hdir hbegins

/-- What the loop over the entries has done after some of them. -/
def Extracted (rule : CaseRule) (all : List (Option Fault)) (snapshot : VerifiedUstarSnapshot)
    (done : List ArchiveEntry) (progress : Progress) (w : World) : Prop :=
  progress.written = (done.map (·.expandedBytes)).sum ∧
    Records progress.created (directoriesOf done) ∧
    ∃ files, FilesOf snapshot done files ∧
      Holds rule all snapshot.inventory (directoriesOf done) files w

/-- A pass extracts one more entry. -/
theorem extractEntry_yields (hdelivers : Delivers snapshot)
    (hadmissible : Admissible limits snapshot.inventory) (done : List ArchiveEntry)
    (entry : ArchiveEntry) (left : List ArchiveEntry) (progress : Progress) (w : World)
    (hinventory : snapshot.inventory = done ++ entry :: left)
    (h : Extracted rule all snapshot done progress w) :
    Yields (Due all) w (extractEntry rule snapshot limits progress entry)
      (Extracted rule all snapshot (done ++ [entry])) := by
  obtain ⟨hwritten, hrecords, files, hfiles, hholds⟩ := h
  have hentry : entry ∈ snapshot.inventory :=
    hinventory ▸ List.mem_append_right _ List.mem_cons_self
  have hfresh : entry ∉ done := by
    have hnodup := hadmissible.distinct.of_map
    rw [hinventory, List.nodup_middle, List.nodup_cons, List.mem_append, not_or] at hnodup
    exact hnodup.1.1
  have hnew : files (components entry.name) = none := by
    rw [Option.eq_none_iff_forall_ne_some]
    intro contents hcontents
    obtain ⟨other, hother, ⟨_, heq⟩, _⟩ := (hfiles _ _).mp hcontents
    obtain rfl := hadmissible.components_inj hentry
      (hinventory ▸ List.mem_append_left _ hother) heq
    exact hfresh hother
  have htotal : progress.written + entry.expandedBytes ≤ limits.maxTotalBytes.toNat := by
    have hsum := hadmissible.total
    rw [hinventory, List.map_append, List.sum_append, List.map_cons, List.sum_cons] at hsum
    omega
  have hdirs : directoriesOf (done ++ [entry]) = directoriesOf done ∪ directoriesOf [entry] := by
    ext path
    simp only [directoriesOf, List.mem_append, or_and_right, exists_or, Set.mem_ofPred_eq,
      Set.mem_union]
  unfold extractEntry
  refine yields_ask hholds.faults (openDirectory_dot (hholds.seen ▸ layout_of_dir (Or.inl rfl)))
    fun faults hfaults => ?_
  have hopened : Holds rule all snapshot.inventory (directoriesOf done) files
      ⟨w.tree, faults⟩ := ⟨hholds.within, hfaults, hholds.tidy, hholds.seen⟩
  refine (extractComponents_yields hdelivers hadmissible hentry hnew htotal
    (components entry.name) rfl (fun hnil => absurd hnil (List.splitOn_ne_nil _ _))
    hopened hrecords (Or.inl rfl)
    fun path hpath hbegins => absurd (List.prefix_nil.mp hbegins) hpath.1).mono ?_
  rintro progress' w' ⟨hwritten', hrecords', hholds'⟩
  rw [Extracted, hdirs]
  refine ⟨?_, hrecords', addFile snapshot entry files, fun path contents => ?_, hholds'⟩
  · rw [hwritten', hwritten, List.map_append, List.sum_append, List.map_singleton,
      List.sum_singleton]
  · simp only [List.mem_append, List.mem_singleton, or_and_right, exists_or, exists_eq_left]
    unfold addFile
    split
    · rename_i hregular
      rcases eq_or_ne path (components entry.name) with rfl | hne
      · rw [Function.update_self, ← hfiles, hnew, or_iff_right (fun h => by cases h),
          and_iff_right ⟨hregular, rfl⟩]
      · rw [Function.update_of_ne hne, hfiles, or_iff_left fun h => hne h.1.2]
    · rename_i hother
      rw [hfiles, or_iff_left fun h => hother h.1.1]

/-- An empty target is seen to be empty. -/
theorem directoryIsEmpty_yields {faults : List (Option Fault)} (hfaults : faults ⊆ all) :
    Yields (Due all) ⟨.dir [], faults⟩ directoryIsEmpty fun empty w' =>
      empty = true ∧ w'.tree = .dir [] ∧ w'.faults ⊆ all := by
  unfold directoryIsEmpty
  refine yields_ask hfaults rfl fun faults hfaults => ?_
  show Yields _ _ (onlyDots [ascii ".", ascii ".."]) _
  rw [onlyDots]
  refine yields_ask hfaults rfl fun faults hfaults => ?_
  rw [if_pos (Or.inl rfl), onlyDots]
  refine yields_ask hfaults rfl fun faults hfaults => ?_
  rw [if_pos (Or.inr rfl), onlyDots]
  exact yields_ask hfaults rfl fun faults hfaults => yields_pure ⟨rfl, rfl, hfaults⟩

/-- All of an admitted archive is extracted. -/
theorem extractVerifiedUstar_yields (hdelivers : Delivers snapshot)
    (hadmissible : Admissible limits snapshot.inventory) (all : List (Option Fault)) :
    Yields (Due all) ⟨.dir [], all⟩ (extractVerifiedUstar rule snapshot limits)
      fun written w' => written = (snapshot.inventory.map (·.expandedBytes)).sum ∧
        ∃ files, FilesOf snapshot snapshot.inventory files ∧
          Holds rule all snapshot.inventory (directoriesOf snapshot.inventory) files w' := by
  have hvalid := validateArchiveInventory_eq_ok_iff.mpr ⟨hadmissible, rfl⟩
  unfold extractVerifiedUstar
  rw [hvalid]
  show Yields _ _ (directoryIsEmpty >>= _) _
  refine (directoryIsEmpty_yields (List.Subset.refl all)).bind ?_
  rintro empty ⟨tree, faults⟩ ⟨rfl, htree, hfaults⟩
  obtain rfl : tree = .dir [] := htree
  rw [if_neg (by decide)]
  have hstart : Extracted rule all snapshot [] ⟨∅, 0⟩ ⟨.dir [], faults⟩ := by
    have hempty : directoriesOf [] = ∅ := by
      ext path
      simp [directoriesOf]
    rw [Extracted, hempty]
    refine ⟨rfl, fun path hne _ => ?_, fun _ => none, fun path contents => ?_,
      ⟨fun path h => absurd h (Set.notMem_empty path), fun path h => absurd rfl h⟩, hfaults,
      .dir [] List.nodup_nil fun _ h => (by cases h), ?_⟩
    · rw [Std.TreeSet.contains_emptyc]
      simp
    · simp
    · funext path
      cases path with
      | nil => rw [Node.shapeAt_nil, layout_of_dir (Or.inl rfl), Node.shape]
      | cons name rest =>
          rw [Node.shapeAt_cons, layout_of_not_dir (by simp), Node.child, List.lookup_nil,
            Option.bind_none, Option.map_none]
  refine (yields_foldlM (fun done entry left progress w hinventory h =>
    extractEntry_yields hdelivers hadmissible done entry left progress w hinventory h)
    hstart).bind ?_
  rintro progress w' ⟨hwritten, _, hfiles⟩
  rw [if_neg (fun hne => hne hwritten)]
  exact yields_pure ⟨hwritten, hfiles⟩

end Loops

/-! ## Refusals -/

/-- A computation that only asks ends in the tree it began in, and its result, if it
has one, is as said. -/
def Asks {α : Type} (act : Extraction α) (tree : Node) (said : α → Prop) : Prop :=
  ∀ faults, ∃ result faults', act.run ⟨tree, faults⟩ = (result, ⟨tree, faults'⟩) ∧
    ∀ a, result = .ok a → said a

theorem asks_pure {α : Type} {tree : Node} {said : α → Prop} {a : α} (h : said a) :
    Asks (pure a) tree said := by
  intro faults
  refine ⟨.ok a, faults, rfl, fun a' heq => ?_⟩
  cases heq
  exact h

theorem asks_ask {α : Type} (act : Node → Except Errno α) (tree : Node) :
    Asks (orIo (ask act)) tree fun a => act tree = .ok a := by
  intro faults
  unfold orIo
  rw [run_lift_bind_eq]
  unfold ask call
  cases faults.head?.join with
  | some fault => exact ⟨.error (.io (.os fault.code)), faults.tail, rfl, fun a h => by cases h⟩
  | none =>
      dsimp only
      cases act tree with
      | error e => exact ⟨.error (.io e), faults.tail, rfl, fun a h => by cases h⟩
      | ok a =>
          refine ⟨.ok a, faults.tail, rfl, fun a' h => ?_⟩
          cases h
          rfl

theorem Asks.bind {α β : Type} {act : Extraction α} {next : α → Extraction β} {tree : Node}
    {mid : α → Prop} {said : β → Prop} (h : Asks act tree mid)
    (hnext : ∀ a, mid a → Asks (next a) tree said) : Asks (act >>= next) tree said := by
  intro faults
  obtain ⟨result, faults', hrun, hmid⟩ := h faults
  rw [run_bind_eq, hrun]
  cases result with
  | error e => exact ⟨.error e, faults', rfl, fun b heq => by cases heq⟩
  | ok a => exact hnext a (hmid a rfl) faults'

/-- A directory is found empty only when it has no names but the two every directory
has. -/
theorem directoryIsEmpty_asks (tree : Node) :
    Asks directoryIsEmpty tree fun empty => empty = true →
      ∀ entries, tree = .dir entries → ∀ entry ∈ entries, relativeName entry.1 = true := by
  have hloop : ∀ names, Asks (onlyDots names) tree fun only => only = true →
      ∀ name ∈ names, relativeName name = true := by
    intro names
    induction names with
    | nil => exact (asks_ask _ _).bind fun _ _ => asks_pure fun _ _ hmem => (by cases hmem)
    | cons name rest ih =>
        refine (asks_ask _ _).bind fun _ _ => ?_
        split
        · rename_i hdots
          intro faults
          obtain ⟨result, faults', hrun, hsaid⟩ := ih faults
          refine ⟨result, faults', hrun, fun only heq htrue other hother => ?_⟩
          rcases List.mem_cons.mp hother with rfl | hother
          · simpa [relativeName] using hdots
          · exact hsaid only heq htrue other hother
        · exact asks_pure fun hfalse => absurd hfalse Bool.false_ne_true
  refine (asks_ask _ _).bind fun names hnames => ?_
  intro faults
  obtain ⟨result, faults', hrun, hsaid⟩ := hloop names faults
  refine ⟨result, faults', hrun, ?_⟩
  rintro empty hempty htrue entries rfl entry hentry
  rw [readdir, Node.get?_nil] at hnames
  refine hsaid empty hempty htrue entry.1 ?_
  rw [← Except.ok.inj hnames]
  exact List.mem_cons_of_mem _ (List.mem_cons_of_mem _ (List.mem_map_of_mem hentry))

/-- A target that is not empty is refused as it is. -/
theorem extractVerifiedUstar_of_occupied (rule : CaseRule) (snapshot : VerifiedUstarSnapshot)
    (limits : ArchiveLimits) (faults : List (Option Fault)) {entries : List (Bytes × Node)}
    {entry : Bytes × Node} (hentry : entry ∈ entries) (hname : relativeName entry.1 = false) :
    ∃ e faults', (extractVerifiedUstar rule snapshot limits).run ⟨.dir entries, faults⟩ =
      (.error e, ⟨.dir entries, faults'⟩) := by
  unfold extractVerifiedUstar
  cases hvalid : validateArchiveInventory snapshot.inventory limits with
  | error e => exact ⟨.invalidSource e, faults, rfl⟩
  | ok expected =>
      show ∃ e faults', ((directoryIsEmpty >>= _ : Extraction Nat)).run ⟨.dir entries, faults⟩ = _
      obtain ⟨result, faults', hrun, hsaid⟩ := directoryIsEmpty_asks (.dir entries) faults
      rw [run_bind_eq, hrun]
      cases result with
      | error e => exact ⟨e, faults', rfl⟩
      | ok empty =>
          cases empty with
          | false => exact ⟨.unsafeTarget, faults', rfl⟩
          | true =>
              have hdots := hsaid true rfl rfl entries rfl entry hentry
              rw [hname] at hdots
              cases hdots

/-! ## Extraction -/

/-- The tree holds a snapshot's archive and nothing else. -/
structure Materialises (snapshot : VerifiedUstarSnapshot) (tree : Node) : Prop where
  directory : ∀ path, tree.shapeAt path = some .dir ↔
    path = [] ∨ ∃ entry ∈ snapshot.inventory, DirectoryOf entry path
  file : ∀ path contents, tree.shapeAt path = some (.file contents 1) ↔
    ∃ entry ∈ snapshot.inventory, FileOf entry path ∧
      snapshot.fileBytes entry.name = some contents
  only : ∀ path shape, tree.shapeAt path = some shape →
    shape = .dir ∨ ∃ contents, shape = .file contents 1
  members : ∀ entry ∈ snapshot.inventory, entry.kind = .regularFile →
    ∃ contents, snapshot.fileBytes entry.name = some contents ∧
      tree.shapeAt (components entry.name) = some (.file contents 1)
  distinct : (snapshot.inventory.map fun entry => components entry.name).Nodup

theorem Holds.materialises {rule : CaseRule} {all : List (Option Fault)} {limits : ArchiveLimits}
    {snapshot : VerifiedUstarSnapshot} {files : Path → Option Bytes} {w : World}
    (hadmissible : Admissible limits snapshot.inventory) (hdelivers : Delivers snapshot)
    (hfiles : FilesOf snapshot snapshot.inventory files)
    (h : Holds rule all snapshot.inventory (directoriesOf snapshot.inventory) files w) :
    Materialises snapshot w.tree := by
  have hdir : ∀ path, ¬ (path = [] ∨ path ∈ directoriesOf snapshot.inventory) →
      w.tree.shapeAt path = (files path).map fun contents => .file contents 1 := by
    intro path hpath
    rw [h.seen, layout_of_not_dir hpath]
  have hnotDir : ∀ {entry path}, entry ∈ snapshot.inventory → FileOf entry path →
      ¬ (path = [] ∨ path ∈ directoriesOf snapshot.inventory) := by
    rintro entry path hentry ⟨hkind, rfl⟩ (hnil | ⟨other, hother, hdirectory⟩)
    · exact List.splitOn_ne_nil _ _ hnil
    · exact hadmissible.not_directoryOf hentry hother ⟨hkind, rfl⟩ hdirectory
  have hfile : ∀ path contents, w.tree.shapeAt path = some (.file contents 1) ↔
      ∃ entry ∈ snapshot.inventory, FileOf entry path ∧
        snapshot.fileBytes entry.name = some contents := by
    intro path contents
    rw [← hfiles]
    constructor
    · intro hseen
      by_cases hpath : path = [] ∨ path ∈ directoriesOf snapshot.inventory
      · rw [h.seen, layout_of_dir hpath] at hseen
        cases hseen
      · rw [hdir path hpath] at hseen
        obtain ⟨contents', hcontents, heq⟩ := Option.map_eq_some_iff.mp hseen
        cases heq
        exact hcontents
    · intro hcontents
      obtain ⟨entry, hentry, hfile, _⟩ := (hfiles path contents).mp hcontents
      rw [hdir path (hnotDir hentry hfile), hcontents, Option.map_some]
  refine ⟨fun path => ?_, hfile, fun path shape hseen => ?_, fun entry hentry hkind => ?_, ?_⟩
  · constructor
    · intro hseen
      by_contra hpath
      rw [hdir path hpath] at hseen
      obtain ⟨_, _, heq⟩ := Option.map_eq_some_iff.mp hseen
      cases heq
    · intro hpath
      rw [h.seen, layout_of_dir hpath]
  · by_cases hpath : path = [] ∨ path ∈ directoriesOf snapshot.inventory
    · rw [h.seen, layout_of_dir hpath] at hseen
      exact Or.inl (Option.some.inj hseen).symm
    · rw [hdir path hpath] at hseen
      obtain ⟨contents, _, heq⟩ := Option.map_eq_some_iff.mp hseen
      exact Or.inr ⟨contents, heq.symm⟩
  · obtain ⟨contents, hcontents, _⟩ := hdelivers entry hentry hkind
    exact ⟨contents, hcontents, (hfile _ _).mpr ⟨entry, hentry, ⟨hkind, rfl⟩, hcontents⟩⟩
  · rw [List.nodup_map_iff_inj_on hadmissible.distinct.of_map]
    exact fun entry hentry other hother heq => hadmissible.components_inj hentry hother heq

/-- A snapshot that is read gives the bytes of its regular files. -/
theorem ReadFrom.delivers {sha256 : Bytes → Sha256Output} {source : LockedSource}
    {input : Reader} {limits : ArchiveLimits} {maxArchiveBytes : UInt64}
    {snapshot : VerifiedUstarSnapshot}
    (h : ReadFrom sha256 source input limits maxArchiveBytes snapshot) : Delivers snapshot := by
  obtain ⟨members, hexact⟩ := h.exact
  intro entry hentry hkind
  rw [hexact.inventory] at hentry
  obtain ⟨m, hm, rfl⟩ := List.mem_map.mp hentry
  obtain ⟨k, hk⟩ := List.mem_iff_getElem?.mp hm
  exact ⟨m.data, (hexact.data k m hk hkind).2, m.data_length⟩

/-- Extraction puts exactly the archive of a verified snapshot into an empty target, and
fails only with faults of the operating system; a refused inventory and a target that
is not empty are left as they were. -/
theorem extractVerifiedUstar_exact (sha256 : Bytes → Sha256Output) (source : LockedSource)
    (input : Reader) (readLimits : ArchiveLimits) (maxArchiveBytes : UInt64)
    (snapshot : VerifiedUstarSnapshot)
    (hread : readVerifiedUstarSnapshot sha256 source input readLimits maxArchiveBytes =
      .ok snapshot) (rule : CaseRule) (limits : ArchiveLimits) :
    (∀ total, validateArchiveInventory snapshot.inventory limits = .ok total →
      total = (snapshot.inventory.map (·.expandedBytes)).sum ∧
      (∃ after, (extractVerifiedUstar rule snapshot limits).run ⟨.dir [], []⟩ =
          (.ok total, after) ∧ Tidy rule after.tree ∧ Materialises snapshot after.tree) ∧
      ∀ faults, match (extractVerifiedUstar rule snapshot limits).run ⟨.dir [], faults⟩ with
        | (.ok written, after) =>
            written = total ∧ Tidy rule after.tree ∧ Materialises snapshot after.tree
        | (.error e, _) => ∃ fault, some fault ∈ faults ∧ e = .io (.os fault.code)) ∧
    (∀ e, validateArchiveInventory snapshot.inventory limits = .error e → ∀ w,
      (extractVerifiedUstar rule snapshot limits).run w = (.error (.invalidSource e), w)) ∧
    ∀ entries faults, (∃ entry ∈ entries, relativeName entry.1 = false) →
      ∃ e faults', (extractVerifiedUstar rule snapshot limits).run ⟨.dir entries, faults⟩ =
        (.error e, ⟨.dir entries, faults'⟩) := by
  have hdelivers := (readVerifiedUstarSnapshot_eq_ok_iff.mp hread).delivers
  refine ⟨fun total htotal => ?_, fun e he w => ?_, ?_⟩
  · obtain ⟨hadmissible, rfl⟩ := validateArchiveInventory_eq_ok_iff.mp htotal
    have hall : ∀ faults, Yields (Due faults) ⟨.dir [], faults⟩
        (extractVerifiedUstar rule snapshot limits) fun written after =>
          written = (snapshot.inventory.map (·.expandedBytes)).sum ∧ Tidy rule after.tree ∧
            Materialises snapshot after.tree := by
      intro faults
      refine (extractVerifiedUstar_yields hdelivers hadmissible faults).mono ?_
      rintro written after ⟨hwritten, files, hfiles, hholds⟩
      exact ⟨hwritten, hholds.tidy, hholds.materialises hadmissible hdelivers hfiles⟩
    refine ⟨rfl, ?_, fun faults => ?_⟩
    · cases hrun : (extractVerifiedUstar rule snapshot limits).run ⟨.dir [], []⟩ with
      | mk result after =>
          cases result with
          | ok written =>
              obtain ⟨rfl, htidy, hmaterialises⟩ := (hall []).of_ok hrun
              exact ⟨after, rfl, htidy, hmaterialises⟩
          | error e =>
              obtain ⟨_, hmem, _⟩ := (hall []).of_error hrun
              cases hmem
    · split
      · rename_i written after hrun
        exact (hall faults).of_ok hrun
      · rename_i e after hrun
        exact (hall faults).of_error hrun
  · unfold extractVerifiedUstar
    rw [he]
    rfl
  · rintro entries faults ⟨entry, hentry, hname⟩
    exact extractVerifiedUstar_of_occupied rule snapshot limits faults hentry hname

theorem extractVerifiedUstar_exact_sample :
    ∃ snapshot, readVerifiedUstarSnapshot (fun _ => zeroDigest)
        (.archive sampleUrl sampleDigest sampleProvider)
        (.ofBytes (encodeArchive sampleMembers)) sampleLimits 4096 = .ok snapshot ∧
      (∃ after, (extractVerifiedUstar .asciiInsensitive snapshot sampleLimits).run ⟨.dir [], []⟩ =
          (.ok 3, after) ∧ Materialises snapshot after.tree) ∧
      (∀ e, validateArchiveInventory snapshot.inventory ⟨1, 0, 0, 100⟩ = .error e → ∀ w,
        (extractVerifiedUstar .asciiInsensitive snapshot ⟨1, 0, 0, 100⟩).run w =
          (.error (.invalidSource e), w)) ∧
      ∃ e faults, (extractVerifiedUstar .sensitive snapshot sampleLimits).run
          ⟨.dir [(ascii "existing", .file [] 1)], []⟩ =
        (.error e, ⟨.dir [(ascii "existing", .file [] 1)], faults⟩) := by
  have hlength : (encodeArchive sampleMembers).length ≤ (4096 : UInt64).toNat := by
    rw [length_sample]
    decide
  obtain ⟨snapshot, hread, _, hentries⟩ := exists_readFrom_encodeArchive (fun _ => zeroDigest)
    sampleMembers_admitted hlength (by decide)
    (Reader.contents_ofBytes (encodeArchive sampleMembers)) sampleUrl
    (show sampleDigest.asStr = finishHex zeroDigest from rfl) sampleProvider
  have hsnapshot := readVerifiedUstarSnapshot_eq_ok_iff.mpr hread
  have hexact := extractVerifiedUstar_exact _ _ _ _ _ _ hsnapshot
  have hadmitted : validateArchiveInventory snapshot.inventory sampleLimits = .ok 3 := by
    rw [VerifiedUstarSnapshot.inventory, hentries]
    exact sampleMembers_admitted
  refine ⟨snapshot, hsnapshot, ?_, (hexact .asciiInsensitive ⟨1, 0, 0, 100⟩).2.1, ?_⟩
  · obtain ⟨_, ⟨after, hrun, _, hmaterialises⟩, _⟩ :=
      (hexact .asciiInsensitive sampleLimits).1 3 hadmitted
    exact ⟨after, hrun, hmaterialises⟩
  · exact (hexact .sensitive sampleLimits).2.2 [(ascii "existing", .file [] 1)] []
      ⟨_, List.mem_singleton.mpr rfl, by decide⟩

end Prep.Core
