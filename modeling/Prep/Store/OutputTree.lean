/-
  Store/OutputTree.lean --- validation of output trees, from
  `validate_output_tree` of `prep-store/src/lib.rs`.

  `entry.file_type()` and `entry.metadata()` look at the node itself, so the walk
  descends through real directories only and a node's path is its real path.

  Scope: the tree stays as it is while it is read.  Links are judged by the text of their
  targets only, which is what `Store/Containment.lean` is about.
-/
import Prep.Data.Except
import Prep.Store.Error

set_option autoImplicit false

namespace Prep.Store

open Prep.Text
open Prep.Fs (Node Path)

/-! ## Symbolic links -/

/-- `std::path::Component` on Unix. -/
inductive Component where
  | rootDir
  | curDir
  | parentDir
  | normal (name : Bytes)
  deriving DecidableEq, Repr

/-- `Path::is_absolute`. -/
def isAbsolute (path : Bytes) : Bool := path.head? == some 47

/-- A piece between slashes as a component: empty pieces and `.` are skipped. -/
def pieceComponent (piece : Bytes) : Option Component :=
  if piece = [] ∨ piece = ascii "." then none
  else if piece = ascii ".." then some .parentDir
  else some (.normal piece)

/-- `Path::components`: a leading slash is the root, and only a leading `.` is
kept. -/
def components (path : Bytes) : List Component :=
  let pieces := path.splitOn 47
  (if isAbsolute path then [.rootDir]
    else if pieces.head? = some (ascii ".") then [.curDir] else []) ++
  pieces.filterMap pieceComponent

/-- One turn of the loop of `validate_symlink` over the components of a target. -/
def targetStep (path : Path) (stack : Path) : Component → Except StoreError Path
  | .curDir => .ok stack
  | .normal value => .ok (stack ++ [value])
  | .parentDir =>
      if stack = [] then
        .error (.invalidOutput path "relative symlink target escapes the result prefix")
      else .ok stack.dropLast
  | .rootDir =>
      .error (.invalidOutput path "symlink target contains an absolute path prefix")

/-- `validate_symlink`, with the target `read_link` gives.  Every component of the
relative parent is the name of a directory, so the source's filter on
`Component::Normal` keeps them all. -/
def validateSymlink (root path : Path) (target : Bytes) : Except StoreError Unit :=
  if isAbsolute target then
    .error (.invalidOutput path "absolute symlink target escapes the result prefix")
  else if path = [] then
    .error (.invalidOutput path "symlink has no parent directory")
  else
    match path.dropLast.dropPrefix? root with
    | none => .error (.invalidOutput path "symlink is outside the result prefix")
    | some relativeParent =>
        match (components target).foldlM (targetStep path) relativeParent with
        | .error e => .error e
        | .ok _ => .ok ()

/-! ## The walk -/

/-- `require_output_root`. -/
def requireOutputRoot (root : Path) (node : Node) : Except StoreError Unit :=
  if node.isDir then .ok ()
  else .error (.invalidOutput root "output root must be a real directory")

mutual

/-- One entry of the loop of `visit_output_tree`. -/
def visitOutputEntry (root path : Path) : Node → Except StoreError Unit
  | .dir entries => visitOutputTree root path entries
  | .symlink target => validateSymlink root path target
  | .file _ nlink =>
      if nlink > 1 then
        .error (.invalidOutput path
          "hard-linked regular files are not permitted in v1 results")
      else .ok ()
  | .special =>
      .error (.invalidOutput path "special files are not permitted in result prefixes")

/-- `visit_output_tree`: the entries of one directory in the order `read_dir`
gives them. -/
def visitOutputTree (root directory : Path) : List (Bytes × Node) → Except StoreError Unit
  | [] => .ok ()
  | (name, node) :: rest =>
      match visitOutputEntry root (directory ++ [name]) node with
      | .error e => .error e
      | .ok () => visitOutputTree root directory rest

end

/-- `validate_output_tree` on the node `lstat` finds at the root. -/
def validateOutputTree (root : Path) (node : Node) : Except StoreError Unit :=
  match requireOutputRoot root node with
  | .error e => .error e
  | .ok () => visitOutputEntry root root node

/-! ## What an accepted tree contains -/

/-- The walk accepts a directory exactly when it accepts every entry. -/
theorem visitOutputTree_eq_ok_iff {root directory : Path} {entries : List (Bytes × Node)} :
    visitOutputTree root directory entries = .ok () ↔
      ∀ name node, (name, node) ∈ entries →
        visitOutputEntry root (directory ++ [name]) node = .ok () := by
  induction entries with
  | nil =>
      rw [visitOutputTree]
      exact ⟨fun _ _ _ h => absurd h List.not_mem_nil, fun _ => rfl⟩
  | cons entry entries ih =>
      obtain ⟨name, node⟩ := entry
      rw [visitOutputTree]
      constructor
      · intro h name' node' hmem
        split at h
        · cases h
        · rename_i hentry
          rcases List.mem_cons.mp hmem with heq | hrest
          · cases heq
            exact hentry
          · exact ih.mp h name' node' hrest
      · intro h
        rw [h name node List.mem_cons_self]
        exact ih.mpr fun name' node' hmem => h name' node' (List.mem_cons_of_mem _ hmem)

/-- Every node of an accepted tree is accepted where it stands. -/
theorem visitOutputEntry_of_get? {root directory path : Path} {tree node : Node}
    (haccepted : visitOutputEntry root directory tree = .ok ())
    (hnode : tree.get? path = some node) :
    visitOutputEntry root (directory ++ path) node = .ok () := by
  induction path generalizing directory tree with
  | nil =>
      rw [Node.get?_nil, Option.some.injEq] at hnode
      rw [List.append_nil, ← hnode]
      exact haccepted
  | cons name path ih =>
      rw [Node.get?_cons, Option.bind_eq_some_iff] at hnode
      obtain ⟨next, hchild, hnode⟩ := hnode
      obtain ⟨entries, rfl, hmem⟩ := Node.mem_of_child hchild
      rw [visitOutputEntry, visitOutputTree_eq_ok_iff] at haccepted
      have hnext := ih (haccepted name next hmem) hnode
      rw [List.append_assoc, List.singleton_append] at hnext
      exact hnext

theorem validateOutputTree_eq_ok_iff {root : Path} {tree : Node} :
    validateOutputTree root tree = .ok () ↔
      tree.isDir = true ∧ visitOutputEntry root root tree = .ok () := by
  unfold validateOutputTree requireOutputRoot
  cases tree.isDir with
  | true => simp
  | false => simp

/-! ## Where the tree stands

The verdict is about the tree alone: the place only shows in the errors. -/

theorem targetStep_eq_ok_iff (path path' : Path) {stack next : Path} {component : Component} :
    targetStep path stack component = .ok next ↔ targetStep path' stack component = .ok next := by
  cases component with
  | curDir => exact Iff.rfl
  | normal value => exact Iff.rfl
  | parentDir =>
      unfold targetStep
      by_cases hstack : stack = []
      · rw [if_pos hstack, if_pos hstack]
        exact ⟨fun h => (by cases h), fun h => (by cases h)⟩
      · rw [if_neg hstack, if_neg hstack]
  | rootDir => exact ⟨fun h => (by cases h), fun h => (by cases h)⟩

theorem foldlM_targetStep_eq_ok_iff (path path' : Path) {stack last : Path}
    {parts : List Component} :
    parts.foldlM (targetStep path) stack = .ok last ↔
      parts.foldlM (targetStep path') stack = .ok last := by
  induction parts generalizing stack with
  | nil => exact Iff.rfl
  | cons component parts ih =>
      rw [List.foldlM_cons, List.foldlM_cons, Data.bind_eq_ok_iff, Data.bind_eq_ok_iff]
      refine exists_congr fun next => ?_
      rw [targetStep_eq_ok_iff path path', ih]

theorem validateSymlink_eq_ok_iff (root : Path) {parent : Path} {name target : Bytes} :
    validateSymlink root (root ++ (parent ++ [name])) target = .ok () ↔
      isAbsolute target = false ∧
        ∃ last, (components target).foldlM (targetStep []) parent = .ok last := by
  have hparent : (root ++ (parent ++ [name])).dropLast.dropPrefix? root = some parent := by
    rw [← List.append_assoc, List.dropLast_concat]
    exact List.dropPrefix?_eq_some_iff.mpr ⟨root, rfl, beq_self_eq_true root⟩
  unfold validateSymlink
  rw [hparent]
  cases habsolute : isAbsolute target with
  | true => simp
  | false =>
      rw [if_neg Bool.false_ne_true, if_neg (by simp)]
      dsimp only
      split
      · rename_i e hfold
        refine ⟨fun h => (by cases h), ?_⟩
        rintro ⟨_, last, hlast⟩
        rw [foldlM_targetStep_eq_ok_iff [] (root ++ (parent ++ [name])), hfold] at hlast
        cases hlast
      · rename_i last hfold
        exact ⟨fun _ => ⟨rfl, last, (foldlM_targetStep_eq_ok_iff _ _).mp hfold⟩, fun _ => rfl⟩

theorem visitOutputEntry_moved (root root' : Path) {node : Node} :
    ∀ {parent : Path} {name : Bytes},
      visitOutputEntry root (root ++ (parent ++ [name])) node = .ok () →
        visitOutputEntry root' (root' ++ (parent ++ [name])) node = .ok () := by
  induction node using Node.induction with
  | file contents nlink =>
      intro parent name h
      rw [visitOutputEntry] at h ⊢
      split at h
      · cases h
      · rename_i hlinks
        exact if_neg hlinks
  | symlink target =>
      intro parent name h
      rw [visitOutputEntry, validateSymlink_eq_ok_iff] at h ⊢
      exact h
  | special => exact fun h => (by cases h)
  | dir entries ih =>
      intro parent name h
      rw [visitOutputEntry, visitOutputTree_eq_ok_iff] at h ⊢
      intro first node hmem
      have hnode := h first node hmem
      rw [List.append_assoc] at hnode ⊢
      exact ih first node hmem hnode

/-- A tree that is accepted in one place is accepted in every other. -/
theorem validateOutputTree_moved (root root' : Path) {tree : Node}
    (h : validateOutputTree root tree = .ok ()) : validateOutputTree root' tree = .ok () := by
  rw [validateOutputTree_eq_ok_iff] at h ⊢
  obtain ⟨hdir, hvisit⟩ := h
  refine ⟨hdir, ?_⟩
  cases tree with
  | dir entries =>
      rw [visitOutputEntry, visitOutputTree_eq_ok_iff] at hvisit ⊢
      intro first node hmem
      exact @visitOutputEntry_moved root root' node [] first (hvisit first node hmem)
  | file contents nlink => cases hdir
  | symlink target => cases hdir
  | special => cases hdir

/-- An accepted tree holds files, links and directories only. -/
theorem hasSpecial_of_visitOutputEntry {root : Path} {node : Node} :
    ∀ {path : Path}, visitOutputEntry root path node = .ok () → node.hasSpecial = false := by
  induction node using Node.induction with
  | file contents nlink => exact fun _ => rfl
  | symlink target => exact fun _ => rfl
  | special => exact fun h => (by cases h)
  | dir entries ih =>
      intro path h
      rw [visitOutputEntry, visitOutputTree_eq_ok_iff] at h
      rw [Node.hasSpecial]
      induction entries with
      | nil => rfl
      | cons entry entries ihentries =>
          obtain ⟨name, node⟩ := entry
          rw [Node.anySpecial, Bool.or_eq_false_iff]
          refine ⟨ih name node List.mem_cons_self (h name node List.mem_cons_self), ?_⟩
          exact ihentries (fun name' node' hmem => ih name' node' (List.mem_cons_of_mem _ hmem))
            fun name' node' hmem => h name' node' (List.mem_cons_of_mem _ hmem)

end Prep.Store
