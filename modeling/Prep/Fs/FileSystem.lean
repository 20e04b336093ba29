/-
  Fs/FileSystem.lean --- a whole file system, seen from its root.

  Paths are absolute.  `lstat` goes through directories only; `stat` follows links as the
  kernel does, up to a number of them: `..` is the parent of the real directory, and of the
  root it is the root.
-/
import Prep.Fs.Directory
import Prep.Fs.Resolve

set_option autoImplicit false

namespace Prep.Fs

open Prep.Text

/-- A file system: no directory holds a name twice.  `maxLinks` is how many links are
followed in one path. -/
structure FileSystem where
  root : Node
  maxLinks : Nat
  tidy : Tidy .sensitive root

/-- The pieces of a path from a real directory on.  A link is handed over with what is left
behind it. -/
def resolvePieces (root : Node) (onLink : Path → List Bytes → Option Path) :
    Path → List Bytes → Option Path
  | path, [] => some path
  | path, piece :: rest =>
      match root.get? path with
      | some (.dir entries) =>
          if staysPut piece then resolvePieces root onLink path rest
          else if piece = ascii ".." then resolvePieces root onLink path.dropLast rest
          else
            match entries.lookup piece with
            | none => none
            | some (.symlink target) =>
                onLink (if absoluteTarget target then [] else path) (pieces target ++ rest)
            | some _ => resolvePieces root onLink (path ++ [piece]) rest
      | _ => none

/-- The real path that pieces lead to through so many links at most. -/
def resolve (root : Node) : Nat → Path → List Bytes → Option Path
  | 0 => resolvePieces root fun _ _ => none
  | links + 1 => resolvePieces root (resolve root links)

namespace FileSystem

/-- `fs::symlink_metadata` of a path that goes through no link. -/
def lstat (fs : FileSystem) (path : Path) : Option Node := fs.root.get? path

/-- `fs::metadata`. -/
def stat (fs : FileSystem) (path : Path) : Option Node :=
  (resolve fs.root fs.maxLinks [] path).bind fs.root.get?

/-- `Path::is_dir`. -/
def isDir (fs : FileSystem) (path : Path) : Bool := (fs.stat path).any Node.isDir

end FileSystem

/-- What is below a tidy tree is tidy. -/
theorem Tidy.get? {rule : CaseRule} {tree node : Node} {path : Path} (h : Tidy rule tree)
    (hnode : tree.get? path = some node) : Tidy rule node := by
  induction path generalizing tree with
  | nil =>
      rw [Node.get?_nil, Option.some.injEq] at hnode
      exact hnode ▸ h
  | cons name path ih =>
      rw [Node.get?_cons, Option.bind_eq_some_iff] at hnode
      obtain ⟨next, hchild, hnode⟩ := hnode
      obtain ⟨entries, rfl, hmem⟩ := Node.mem_of_child hchild
      cases h with
      | dir _ _ below => exact ih (below (name, next) hmem) hnode

end Prep.Fs
