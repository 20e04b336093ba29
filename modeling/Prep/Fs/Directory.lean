/-
  Fs/Directory.lean --- the directory calls of the operating system, relative to an
  open directory.

  An open directory is the path of the directory it holds, by the names its entries
  have.  Names are looked up under a rule of the file system: the bytes as they are,
  or ASCII letters in either case.
-/
import Prep.Fs.Update

set_option autoImplicit false

namespace Prep.Fs

open Prep.Text

/-- How a file system compares names. -/
inductive CaseRule where
  | sensitive
  | asciiInsensitive
  deriving DecidableEq, Repr

/-- What two names have in common that a rule takes for one. -/
def CaseRule.fold : CaseRule → Bytes → Bytes
  | .sensitive, name => name
  | .asciiInsensitive, name => toAsciiLowercase name

/-- Names that differ only in ways a rule ignores agree in lower case. -/
theorem CaseRule.lowercase_of_fold {rule : CaseRule} {name other : Bytes}
    (h : rule.fold name = rule.fold other) : toAsciiLowercase name = toAsciiLowercase other := by
  cases rule with
  | sensitive => exact congrArg toAsciiLowercase h
  | asciiInsensitive => exact h

/-- The errors of the calls below; the last stands for every other one. -/
inductive Errno where
  | exist
  | noEnt
  | notDir
  | os (code : Nat)
  deriving DecidableEq, Repr

/-- The first entry the file system takes for a name. -/
def find (rule : CaseRule) (name : Bytes) (entries : List (Bytes × Node)) :
    Option (Bytes × Node) :=
  entries.find? fun entry => rule.fold entry.1 == rule.fold name

/-- `.` and `..`. -/
def relativeName (name : Bytes) : Bool := name == ascii "." || name == ascii ".."

/-- `mkdirat(dir, name, _)`. -/
def mkdirat (rule : CaseRule) (dir : Path) (name : Bytes) (tree : Node) : Except Errno Node :=
  match tree.get? dir with
  | some (.dir entries) =>
      if name = [] then .error .noEnt
      else if relativeName name then .error .exist
      else
        match find rule name entries with
        | some _ => .error .exist
        | none => .ok (tree.modifyAt (Node.addEntry name (.dir [])) dir)
  | _ => .error .notDir

/-- `openat(dir, name, O_DIRECTORY | O_NOFOLLOW)`.  The parent of the whole tree is not
part of it. -/
def openDirectory (rule : CaseRule) (dir : Path) (name : Bytes) (tree : Node) :
    Except Errno Path :=
  match tree.get? dir with
  | some (.dir entries) =>
      if name = [] then .error .noEnt
      else if name = ascii "." then .ok dir
      else if name = ascii ".." then if dir = [] then .error .noEnt else .ok dir.dropLast
      else
        match find rule name entries with
        | some (actual, .dir _) => .ok (dir ++ [actual])
        -- a link is not followed, so it is no directory either
        | some _ => .error .notDir
        | none => .error .noEnt
  | _ => .error .notDir

/-- `openat(dir, name, O_WRONLY | O_CREAT | O_EXCL | O_NOFOLLOW)`: the new file, and the
tree with it. -/
def createExclusive (rule : CaseRule) (dir : Path) (name : Bytes) (tree : Node) :
    Except Errno (Path × Node) :=
  match tree.get? dir with
  | some (.dir entries) =>
      if name = [] then .error .noEnt
      else if relativeName name then .error .exist
      else
        match find rule name entries with
        | some _ => .error .exist
        | none => .ok (dir ++ [name], tree.modifyAt (Node.addEntry name (.file [] 1)) dir)
  | _ => .error .notDir

/-- The names of a directory, as `readdir` returns them. -/
def readdir (dir : Path) (tree : Node) : Except Errno (List Bytes) :=
  match tree.get? dir with
  | some (.dir entries) => .ok (ascii "." :: ascii ".." :: entries.map (·.1))
  | _ => .error .notDir

/-! ## Lookup -/

theorem find_eq_some {rule : CaseRule} {name actual : Bytes} {node : Node}
    {entries : List (Bytes × Node)} (h : find rule name entries = some (actual, node)) :
    entries.lookup actual = some node ∧ rule.fold actual = rule.fold name := by
  obtain ⟨hsame, before, after, rfl, hbefore⟩ := List.find?_eq_some_iff_append.mp h
  have hfold : rule.fold actual = rule.fold name := eq_of_beq hsame
  refine ⟨?_, hfold⟩
  rw [List.lookup_eq_some_iff]
  refine ⟨before, after, rfl, fun entry hentry => ?_⟩
  have hother := hbefore entry hentry
  rw [bne_iff_ne]
  rintro rfl
  rw [hfold, beq_self_eq_true] at hother
  cases hother

theorem find_isSome_of_lookup {rule : CaseRule} {name : Bytes} {node : Node}
    {entries : List (Bytes × Node)} (h : entries.lookup name = some node) :
    (find rule name entries).isSome := by
  obtain ⟨before, after, rfl, _⟩ := List.lookup_eq_some_iff.mp h
  rw [find, List.find?_isSome]
  exact ⟨(name, node), List.mem_append_right _ List.mem_cons_self, beq_self_eq_true _⟩

theorem lookup_of_find_eq_none {rule : CaseRule} {name other : Bytes}
    {entries : List (Bytes × Node)} (h : find rule name entries = none)
    (hfold : rule.fold other = rule.fold name) : entries.lookup other = none := by
  rw [find, List.find?_eq_none] at h
  rw [List.lookup_eq_none_iff]
  intro entry hentry
  rw [bne_iff_ne]
  rintro rfl
  exact h entry hentry (beq_iff_eq.mpr hfold)

/-- A name is free in a directory when nothing is seen under any spelling of it. -/
theorem find_eq_none_of_shapeAt {rule : CaseRule} {tree : Node} {dir : Path} {name : Bytes}
    {entries : List (Bytes × Node)} (hdir : tree.get? dir = some (.dir entries))
    (hfree : ∀ other, rule.fold other = rule.fold name → tree.shapeAt (dir ++ [other]) = none) :
    find rule name entries = none := by
  cases hfind : find rule name entries with
  | none => rfl
  | some entry =>
      obtain ⟨hlookup, hfold⟩ := find_eq_some hfind
      have hnone := hfree entry.1 hfold
      rw [Node.shapeAt_concat hdir, hlookup] at hnone
      cases hnone

/-- A spelling that alone is seen is the one that is found. -/
theorem find_eq_some_of_shapeAt {rule : CaseRule} {tree : Node} {dir : Path} {name : Bytes}
    {entries : List (Bytes × Node)} {shape : Shape}
    (hdir : tree.get? dir = some (.dir entries))
    (hshape : tree.shapeAt (dir ++ [name]) = some shape)
    (halone : ∀ other, rule.fold other = rule.fold name →
      tree.shapeAt (dir ++ [other]) ≠ none → other = name) :
    ∃ node, find rule name entries = some (name, node) ∧ node.shape = shape := by
  rw [Node.shapeAt_concat hdir] at hshape
  obtain ⟨node, hlookup, hnode⟩ := Option.map_eq_some_iff.mp hshape
  obtain ⟨⟨actual, found⟩, hfind⟩ :=
    Option.isSome_iff_exists.mp (@find_isSome_of_lookup rule _ _ _ hlookup)
  obtain ⟨hactual, hfold⟩ := find_eq_some hfind
  obtain rfl : actual = name := by
    refine halone actual hfold ?_
    rw [Node.shapeAt_concat hdir, hactual]
    exact Option.some_ne_none _
  obtain rfl := Option.some.inj (hlookup.symm.trans hactual)
  exact ⟨node, hfind, hnode⟩

/-! ## Tidy trees -/

/-- No directory holds two names the file system takes for one. -/
inductive Tidy (rule : CaseRule) : Node → Prop
  | file (contents : Bytes) (nlink : Nat) : Tidy rule (.file contents nlink)
  | symlink (target : Bytes) : Tidy rule (.symlink target)
  | special : Tidy rule .special
  | dir (entries : List (Bytes × Node))
      (distinct : (entries.map fun entry => rule.fold entry.1).Nodup)
      (below : ∀ entry ∈ entries, Tidy rule entry.2) : Tidy rule (.dir entries)

theorem lookup_of_mem {entries : List (Bytes × Node)} (h : (entries.map (·.1)).Nodup)
    {entry : Bytes × Node} (hentry : entry ∈ entries) :
    entries.lookup entry.1 = some entry.2 := by
  obtain ⟨before, after, rfl⟩ := List.append_of_mem hentry
  rw [List.map_append, List.map_cons, List.nodup_middle, List.nodup_cons, ← List.map_append] at h
  rw [List.lookup_eq_some_iff]
  refine ⟨before, after, rfl, fun other hother => ?_⟩
  rw [bne_iff_ne]
  intro heq
  exact h.1 (heq ▸ List.mem_map_of_mem (List.mem_append_left _ hother))

/-- A change in one place that keeps that place tidy keeps the tree tidy. -/
theorem Tidy.modifyAt {rule : CaseRule} {f : Node → Node} {path : Path} {tree : Node}
    (h : Tidy rule tree)
    (hplace : ∀ node, tree.get? path = some node → Tidy rule node → Tidy rule (f node)) :
    Tidy rule (tree.modifyAt f path) := by
  induction path generalizing tree with
  | nil => exact hplace tree (Node.get?_nil tree) h
  | cons name rest ih =>
      cases h with
      | file contents nlink => exact .file contents nlink
      | symlink target => exact .symlink target
      | special => exact .special
      | dir entries distinct below =>
          have hnames : (entries.map (·.1)).Nodup := by
            refine List.Nodup.of_map rule.fold ?_
            rw [List.map_map]
            exact distinct
          refine .dir _ ?_ ?_
          · rw [List.map_map]
            convert distinct using 2
            funext entry
            rw [Function.comp_apply]
            split <;> rfl
          · intro entry hentry
            obtain ⟨old, hold, rfl⟩ := List.mem_map.mp hentry
            split
            · rename_i heq
              obtain rfl := heq
              refine ih (below old hold) fun node hnode => ?_
              refine hplace node ?_
              rw [Node.get?_cons, Node.child, lookup_of_mem hnames hold]
              exact hnode
            · exact below old hold

/-- A name the file system did not find can be added. -/
theorem Tidy.addEntry {rule : CaseRule} {dir : Path} {tree next : Node} {name : Bytes}
    {entries : List (Bytes × Node)} (h : Tidy rule tree)
    (hdir : tree.get? dir = some (.dir entries)) (hnew : find rule name entries = none)
    (hnext : Tidy rule next) : Tidy rule (tree.modifyAt (Node.addEntry name next) dir) := by
  refine h.modifyAt fun node hnode htidy => ?_
  obtain rfl := Option.some.inj (hdir.symm.trans hnode)
  cases htidy with
  | dir _ distinct below =>
      refine .dir _ ?_ fun entry hentry => ?_
      · rw [List.map_append, List.map_singleton, ← List.concat_eq_append, List.nodup_concat]
        refine ⟨fun hmem => ?_, distinct⟩
        obtain ⟨entry, hentry, hfold⟩ := List.mem_map.mp hmem
        exact List.find?_eq_none.mp hnew entry hentry (beq_iff_eq.mpr hfold)
      · rcases List.mem_append.mp hentry with hentry | hentry
        · exact below entry hentry
        · exact List.mem_singleton.mp hentry ▸ hnext

/-! ## The calls by what is seen -/

section Calls

variable {rule : CaseRule} {tree : Node} {dir : Path} {name : Bytes}

/-- Nothing is seen under any spelling of a name. -/
def Free (rule : CaseRule) (tree : Node) (dir : Path) (name : Bytes) : Prop :=
  ∀ other, rule.fold other = rule.fold name → tree.shapeAt (dir ++ [other]) = none

/-- A name of an entry of its own. -/
def OrdinaryName (name : Bytes) : Prop := name ≠ [] ∧ relativeName name = false

theorem mkdirat_of_free (hname : OrdinaryName name) (hdir : tree.shapeAt dir = some .dir)
    (hfree : Free rule tree dir name) (htidy : Tidy rule tree) :
    ∃ next, mkdirat rule dir name tree = .ok next ∧ Tidy rule next ∧
      next.shapeAt = Function.update tree.shapeAt (dir ++ [name]) (some .dir) := by
  obtain ⟨entries, hentries⟩ := Node.get?_of_shapeAt_dir hdir
  have hfind := find_eq_none_of_shapeAt hentries hfree
  refine ⟨tree.modifyAt (Node.addEntry name (.dir [])) dir, ?_, ?_, ?_⟩
  · unfold mkdirat
    rw [hentries]
    dsimp only
    rw [if_neg hname.1, hname.2, if_neg Bool.false_ne_true, hfind]
  · exact htidy.addEntry hentries hfind (.dir [] List.nodup_nil fun _ h => (by cases h))
  · exact Node.shapeAt_addEntry hentries (lookup_of_find_eq_none hfind rfl) fun _ => rfl

theorem mkdirat_of_present (hname : OrdinaryName name) (hdir : tree.shapeAt dir = some .dir)
    (hpresent : tree.shapeAt (dir ++ [name]) ≠ none) :
    mkdirat rule dir name tree = .error .exist := by
  obtain ⟨entries, hentries⟩ := Node.get?_of_shapeAt_dir hdir
  rw [Node.shapeAt_concat hentries] at hpresent
  obtain ⟨node, hlookup⟩ := Option.ne_none_iff_exists'.mp fun hnone =>
    hpresent (Option.map_eq_none_iff.mpr hnone)
  obtain ⟨found, hfind⟩ :=
    Option.isSome_iff_exists.mp (@find_isSome_of_lookup rule _ _ _ hlookup)
  unfold mkdirat
  rw [hentries]
  dsimp only
  rw [if_neg hname.1, hname.2, if_neg Bool.false_ne_true, hfind]

theorem openDirectory_of_present (hname : OrdinaryName name)
    (hdir : tree.shapeAt dir = some .dir) (hpresent : tree.shapeAt (dir ++ [name]) = some .dir)
    (halone : ∀ other, rule.fold other = rule.fold name →
      tree.shapeAt (dir ++ [other]) ≠ none → other = name) :
    openDirectory rule dir name tree = .ok (dir ++ [name]) := by
  obtain ⟨entries, hentries⟩ := Node.get?_of_shapeAt_dir hdir
  obtain ⟨node, hfind, hshape⟩ := find_eq_some_of_shapeAt hentries hpresent halone
  have hrelative := Bool.or_eq_false_iff.mp hname.2
  unfold openDirectory
  rw [hentries]
  dsimp only
  rw [if_neg hname.1, if_neg (beq_eq_false_iff_ne.mp hrelative.1),
    if_neg (beq_eq_false_iff_ne.mp hrelative.2), hfind]
  cases node with
  | dir _ => rfl
  | file contents nlink => cases hshape
  | symlink target => cases hshape
  | special => cases hshape

theorem openDirectory_dot (hdir : tree.shapeAt dir = some .dir) :
    openDirectory rule dir (ascii ".") tree = .ok dir := by
  obtain ⟨entries, hentries⟩ := Node.get?_of_shapeAt_dir hdir
  unfold openDirectory
  rw [hentries]
  rfl

theorem createExclusive_of_free (hname : OrdinaryName name)
    (hdir : tree.shapeAt dir = some .dir) (hfree : Free rule tree dir name)
    (htidy : Tidy rule tree) :
    ∃ next, createExclusive rule dir name tree = .ok (dir ++ [name], next) ∧ Tidy rule next ∧
      next.shapeAt = Function.update tree.shapeAt (dir ++ [name]) (some (.file [] 1)) := by
  obtain ⟨entries, hentries⟩ := Node.get?_of_shapeAt_dir hdir
  have hfind := find_eq_none_of_shapeAt hentries hfree
  refine ⟨tree.modifyAt (Node.addEntry name (.file [] 1)) dir, ?_, ?_, ?_⟩
  · unfold createExclusive
    rw [hentries]
    dsimp only
    rw [if_neg hname.1, hname.2, if_neg Bool.false_ne_true, hfind]
  · exact htidy.addEntry hentries hfind (.file [] 1)
  · exact Node.shapeAt_addEntry hentries (lookup_of_find_eq_none hfind rfl) fun _ => rfl

/-- Bytes at the end of a file leave the rest of the tree as it is. -/
theorem appendContents_of_file {path : Path} {contents : Bytes} {nlink : Nat}
    (hfile : tree.shapeAt path = some (.file contents nlink)) (htidy : Tidy rule tree)
    (bytes : Bytes) :
    Tidy rule (tree.modifyAt (Node.appendContents bytes) path) ∧
      (tree.modifyAt (Node.appendContents bytes) path).shapeAt =
        Function.update tree.shapeAt path (some (.file (contents ++ bytes) nlink)) := by
  have hnode := Node.get?_of_shapeAt_file hfile
  refine ⟨htidy.modifyAt fun node hplace _ => ?_, Node.shapeAt_appendContents hnode bytes⟩
  obtain rfl := Option.some.inj (hnode.symm.trans hplace)
  exact .file _ _

end Calls

end Prep.Fs
