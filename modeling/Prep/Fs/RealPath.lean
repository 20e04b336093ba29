/-
  Fs/RealPath.lean --- what the system finds at a path, and the real path of it.

  `seek` is `resolve` with the errors of the system.  A real path is one that goes through
  directories only; it is found again by following no link at all.
-/
import Prep.Data.Except
import Prep.Data.Split
import Prep.Fs.FileSystem
import Prep.Io.Reader

set_option autoImplicit false

namespace Prep.Fs

open Prep.Io (IoError)
open Prep.Text

/-! ## Resolution with errors -/

/-- `ENOTDIR`. -/
def notADirectory : IoError := .other 20

/-- `ELOOP`. -/
def tooManyLinks : IoError := .other 40

/-- The entries of the directory at a real path. -/
def entriesAt (root : Node) (path : Path) : Except IoError (List (Bytes × Node)) :=
  match root.get? path with
  | some (.dir entries) => .ok entries
  | some _ => .error notADirectory
  | none => .error .notFound

/-- The entry of a directory. -/
def entryOf (entries : List (Bytes × Node)) (name : Bytes) : Except IoError Node :=
  match entries.lookup name with
  | some node => .ok node
  | none => .error .notFound

/-- `resolvePieces`, with errors. -/
def seekPieces (root : Node) (onLink : Path → List Bytes → Except IoError Path) :
    Path → List Bytes → Except IoError Path
  | path, [] => .ok path
  | path, piece :: rest => do
      let entries ← entriesAt root path
      if staysPut piece then seekPieces root onLink path rest
      else if piece = ascii ".." then seekPieces root onLink path.dropLast rest
      else
        match ← entryOf entries piece with
        | .symlink target =>
            onLink (if absoluteTarget target then [] else path) (pieces target ++ rest)
        | _ => seekPieces root onLink (path ++ [piece]) rest

/-- `resolve`, with errors. -/
def seek (root : Node) : Nat → Path → List Bytes → Except IoError Path
  | 0 => seekPieces root fun _ _ => .error tooManyLinks
  | links + 1 => seekPieces root (seek root links)

/-- A name that no path treats in a way of its own. -/
def Plain (name : Bytes) : Prop :=
  name ≠ [] ∧ name ≠ ascii "." ∧ name ≠ ascii ".." ∧ (47 : UInt8) ∉ name

/-- A path through directories only, with an end that is no link. -/
structure Real (root : Node) (path : Path) : Prop where
  plain : ∀ name ∈ path, Plain name
  found : ∃ node, root.get? path = some node ∧ ∀ target, node ≠ .symlink target

/-- An absolute path as bytes. -/
def realPathBuf (path : Path) : Bytes :=
  if path = [] then ascii "/" else path.flatMap fun name => 47 :: name

namespace FileSystem

/-- `fs::canonicalize`. -/
def canonicalize (fs : FileSystem) (path : Bytes) : Except IoError Bytes :=
  (seek fs.root fs.maxLinks [] (pieces path)).map realPathBuf

/-- `fs::symlink_metadata`: of the last piece, which is not followed. -/
def symlinkMetadata (fs : FileSystem) (path : Bytes) : Except IoError Node := do
  let last := (pieces path).getLast?.getD []
  if staysPut last ∨ last = ascii ".." then
    let real ← seek fs.root fs.maxLinks [] (pieces path)
    match fs.root.get? real with
    | some node => .ok node
    | none => .error .notFound
  else
    let parent ← seek fs.root fs.maxLinks [] (pieces path).dropLast
    entryOf (← entriesAt fs.root parent) last

end FileSystem

section Seek

variable {root : Node} {links : Nat} {path real : Path} {rest more : List Bytes}

theorem entriesAt_eq_ok_iff {entries : List (Bytes × Node)} :
    entriesAt root path = .ok entries ↔ root.get? path = some (.dir entries) := by
  unfold entriesAt
  split <;> rename_i h
  · rw [h, Except.ok.injEq, Option.some.injEq, Node.dir.injEq]
  · rename_i hdir
    refine ⟨fun heq => (by cases heq), fun heq => ?_⟩
    rw [heq, Option.some.injEq] at h
    exact absurd h.symm (hdir entries)
  · rw [h]
    exact ⟨fun heq => (by cases heq), fun heq => (by cases heq)⟩

theorem entryOf_eq_ok_iff {entries : List (Bytes × Node)} {name : Bytes} {node : Node} :
    entryOf entries name = .ok node ↔ entries.lookup name = some node := by
  unfold entryOf
  split <;> rename_i h
  · rw [h, Except.ok.injEq, Option.some.injEq]
  · rw [h]
    exact ⟨fun heq => (by cases heq), fun heq => (by cases heq)⟩

/-- `seek` finds what `resolve` finds. -/
theorem toOption_seek (path : Path) (rest : List Bytes) :
    (seek root links path rest).toOption = resolve root links path rest := by
  have hpieces : ∀ (onLink : Path → List Bytes → Except IoError Path)
      (onLink' : Path → List Bytes → Option Path),
      (∀ path rest, (onLink path rest).toOption = onLink' path rest) → ∀ path rest,
      (seekPieces root onLink path rest).toOption = resolvePieces root onLink' path rest := by
    intro onLink onLink' hlink path rest
    induction rest generalizing path with
    | nil => rfl
    | cons piece rest ih =>
        rw [seekPieces, resolvePieces, entriesAt]
        cases root.get? path with
        | none => rfl
        | some node =>
            cases node with
            | file _ _ | symlink _ | special => rfl
            | dir entries =>
                change (if _ then _ else if _ then _ else _ : Except IoError Path).toOption = _
                dsimp only
                split
                · exact ih path
                · split
                  · exact ih path.dropLast
                  · rw [entryOf]
                    cases entries.lookup piece with
                    | none => rfl
                    | some next =>
                        cases next with
                        | symlink target => exact hlink _ _
                        | file _ _ | special | dir _ => exact ih (path ++ [piece])
  induction links generalizing path rest with
  | zero => exact hpieces _ _ (fun _ _ => rfl) path rest
  | succ links ih => exact hpieces _ _ (fun path rest => ih path rest) path rest

/-! ## Real paths -/

theorem get?_concat {entries : List (Bytes × Node)} {name : Bytes} {node : Node}
    (hdir : root.get? path = some (.dir entries)) (hentry : entries.lookup name = some node) :
    root.get? (path ++ [name]) = some node := by
  rw [Node.get?_append, hdir, Option.bind_some, Node.get?_singleton]
  exact hentry

/-- What is found below a path is found in a directory. -/
theorem get?_of_concat {name : Bytes} {node : Node} (h : root.get? (path ++ [name]) = some node) :
    ∃ entries, root.get? path = some (.dir entries) ∧ entries.lookup name = some node := by
  rw [Node.get?_append, Option.bind_eq_some_iff] at h
  obtain ⟨parent, hparent, hchild⟩ := h
  rw [Node.get?_singleton] at hchild
  obtain ⟨entries, rfl, _⟩ := Node.mem_of_child hchild
  exact ⟨entries, hparent, hchild⟩

theorem Real.dropLast (h : Real root path) : Real root path.dropLast := by
  refine ⟨fun name hname => h.plain name (List.mem_of_mem_dropLast hname), ?_⟩
  rcases List.eq_nil_or_concat path with rfl | ⟨front, name, rfl⟩
  · exact h.found
  · obtain ⟨node, hnode, _⟩ := h.found
    rw [List.concat_eq_append] at hnode
    obtain ⟨entries, hdir, _⟩ := get?_of_concat hnode
    rw [List.concat_eq_append, List.dropLast_concat]
    exact ⟨_, hdir, fun target heq => (by cases heq)⟩

theorem Real.concat {entries : List (Bytes × Node)} {name : Bytes} {node : Node}
    (h : Real root path) (hdir : root.get? path = some (.dir entries))
    (hentry : entries.lookup name = some node) (hname : Plain name)
    (hlink : ∀ target, node ≠ .symlink target) : Real root (path ++ [name]) := by
  refine ⟨fun other hother => ?_, node, get?_concat hdir hentry, hlink⟩
  rcases List.mem_append.mp hother with hother | hother
  · exact h.plain other hother
  · rw [List.mem_singleton.mp hother]
    exact hname

/-- Pieces between slashes. -/
def Pieces (rest : List Bytes) : Prop := ∀ piece ∈ rest, (47 : UInt8) ∉ piece

theorem pieces_pieces (path : Bytes) : Pieces (pieces path) :=
  fun _ h => Data.separator_notMem_of_mem_splitOn h

theorem plain_of_piece {piece : Bytes} (hslash : (47 : UInt8) ∉ piece)
    (hstays : staysPut piece = false) (hparent : piece ≠ ascii "..") : Plain piece := by
  rw [staysPut, Bool.or_eq_false_iff, beq_eq_false_iff_ne, beq_eq_false_iff_ne] at hstays
  exact ⟨hstays.1, hstays.2, hparent, hslash⟩

/-- One piece of a path: it stays, goes up, goes down into something that is no link, or hands
over a link. -/
theorem seekPieces_cons {onLink : Path → List Bytes → Except IoError Path} {piece : Bytes}
    (h : seekPieces root onLink path (piece :: rest) = .ok real) :
    ∃ entries, root.get? path = some (.dir entries) ∧
      ((staysPut piece = true ∧ seekPieces root onLink path rest = .ok real) ∨
        (staysPut piece = false ∧ piece = ascii ".." ∧
          seekPieces root onLink path.dropLast rest = .ok real) ∨
        ∃ node, staysPut piece = false ∧ piece ≠ ascii ".." ∧ entries.lookup piece = some node ∧
          ((∃ target, node = .symlink target ∧ onLink (if absoluteTarget target then [] else path)
              (pieces target ++ rest) = .ok real) ∨
            (∀ target, node ≠ .symlink target) ∧
              seekPieces root onLink (path ++ [piece]) rest = .ok real)) := by
  rw [seekPieces] at h
  obtain ⟨entries, hentries, h⟩ := Data.bind_eq_ok_iff.mp h
  refine ⟨entries, entriesAt_eq_ok_iff.mp hentries, ?_⟩
  split at h
  · rename_i hstays
    exact .inl ⟨hstays, h⟩
  · rename_i hstays
    refine .inr ?_
    split at h
    · rename_i hparent
      exact .inl ⟨Bool.eq_false_iff.mpr hstays, hparent, h⟩
    · rename_i hparent
      obtain ⟨node, hnode, h⟩ := Data.bind_eq_ok_iff.mp h
      refine .inr ⟨node, Bool.eq_false_iff.mpr hstays, hparent, entryOf_eq_ok_iff.mp hnode, ?_⟩
      cases node with
      | symlink target => exact .inl ⟨target, rfl, h⟩
      | file _ _ | special | dir _ => exact .inr ⟨fun target heq => (by cases heq), h⟩

/-- What is found is a real path. -/
theorem seek_real (h : seek root links path rest = .ok real) (hpath : Real root path)
    (hroot : Real root []) (hrest : Pieces rest) : Real root real := by
  have hpieces : ∀ (onLink : Path → List Bytes → Except IoError Path),
      (∀ path rest, onLink path rest = .ok real → Real root path → Pieces rest → Real root real) →
      ∀ path rest, seekPieces root onLink path rest = .ok real → Real root path → Pieces rest →
        Real root real := by
    intro onLink hlink path rest h hpath hrest
    induction rest generalizing path with
    | nil =>
        cases h
        exact hpath
    | cons piece rest ih =>
        obtain ⟨hpiece, hrest⟩ := List.forall_mem_cons.mp hrest
        obtain ⟨entries, hdir, ⟨_, h⟩ | ⟨_, _, h⟩ |
          ⟨node, hstays, hparent, hnode, ⟨target, _, h⟩ | ⟨hnolink, h⟩⟩⟩ := seekPieces_cons h
        · exact ih path h hpath hrest
        · exact ih _ h hpath.dropLast hrest
        · refine hlink _ _ h ?_ (List.forall_mem_append.mpr ⟨pieces_pieces target, hrest⟩)
          split
          · exact hroot
          · exact hpath
        · exact ih _ h (hpath.concat hdir hnode (plain_of_piece hpiece hstays hparent) hnolink)
            hrest
  induction links generalizing path rest with
  | zero => exact hpieces _ (fun _ _ h => (by cases h)) path rest h hpath hrest
  | succ links ih =>
      exact hpieces _ (fun path rest h hpath hrest => ih h hpath hrest) path rest h hpath hrest

theorem Plain.stays {name : Bytes} (h : Plain name) : staysPut name = false := by
  rw [staysPut, Bool.or_eq_false_iff, beq_eq_false_iff_ne, beq_eq_false_iff_ne]
  exact ⟨h.1, h.2.1⟩

theorem seekPieces_down {onLink : Path → List Bytes → Except IoError Path} {name : Bytes}
    (hname : Plain name) (hfound : ∃ node, root.get? (path ++ [name]) = some node ∧
      ∀ target, node ≠ .symlink target) :
    seekPieces root onLink path (name :: rest) = seekPieces root onLink (path ++ [name]) rest := by
  obtain ⟨node, hnode, hnolink⟩ := hfound
  obtain ⟨entries, hdir, hentry⟩ := get?_of_concat hnode
  rw [seekPieces, entriesAt_eq_ok_iff.mpr hdir]
  change (if staysPut name = true then _ else if _ then _ else _ : Except IoError Path) = _
  rw [hname.stays, if_neg Bool.false_ne_true, if_neg hname.2.2.1, entryOf_eq_ok_iff.mpr hentry]
  cases node with
  | symlink target => exact absurd rfl (hnolink target)
  | file _ _ | special | dir _ => rfl

/-- Directories are gone through one after another. -/
theorem seek_below (hplain : ∀ name ∈ rest, Plain name)
    (hfound : ∃ node, root.get? (path ++ rest) = some node ∧ ∀ target, node ≠ .symlink target) :
    seek root links path rest = .ok (path ++ rest) := by
  have hpieces : ∀ onLink : Path → List Bytes → Except IoError Path,
      seekPieces root onLink path rest = .ok (path ++ rest) := by
    intro onLink
    induction rest generalizing path with
    | nil =>
        rw [List.append_nil]
        rfl
    | cons name rest ih =>
        obtain ⟨hname, hplain⟩ := List.forall_mem_cons.mp hplain
        rw [List.append_cons] at hfound ⊢
        rw [seekPieces_down hname, ih hplain hfound]
        cases rest with
        | nil =>
            rw [List.append_nil] at hfound
            exact hfound
        | cons next rest =>
            obtain ⟨node, hnode, _⟩ := hfound
            rw [Node.get?_append, Option.bind_eq_some_iff] at hnode
            obtain ⟨parent, hparent, hbelow⟩ := hnode
            rw [Node.get?_cons, Option.bind_eq_some_iff] at hbelow
            obtain ⟨_, hchild, _⟩ := hbelow
            obtain ⟨entries, rfl, _⟩ := Node.mem_of_child hchild
            exact ⟨_, hparent, fun target heq => (by cases heq)⟩
  cases links with
  | zero => exact hpieces _
  | succ links => exact hpieces _

/-- A longer path is found from where the shorter one leads, with the links that are left. -/
theorem seek_append (h : seek root links path rest = .ok real) (more : List Bytes) :
    ∃ left ≤ links, seek root links path (rest ++ more) = seek root left real more := by
  have hpieces : ∀ (reached : Except IoError Path → Prop)
      (onLink : Path → List Bytes → Except IoError Path),
      (∀ path rest, onLink path rest = .ok real → reached (onLink path (rest ++ more))) →
      reached (seekPieces root onLink real more) →
      ∀ path rest, seekPieces root onLink path rest = .ok real →
        reached (seekPieces root onLink path (rest ++ more)) := by
    intro reached onLink hlink hdone path rest h
    induction rest generalizing path with
    | nil =>
        cases h
        exact hdone
    | cons piece rest ih =>
        obtain ⟨entries, hdir, hcase⟩ := seekPieces_cons h
        rw [List.cons_append, seekPieces, entriesAt_eq_ok_iff.mpr hdir]
        change reached (if _ then _ else if _ then _ else _)
        obtain ⟨hstays, h⟩ | ⟨hstays, hparent, h⟩ | ⟨node, hstays, hparent, hnode, hcase⟩ := hcase
        · rw [if_pos hstays]
          exact ih path h
        · rw [if_neg (Bool.eq_false_iff.mp hstays), if_pos hparent]
          exact ih _ h
        · rw [if_neg (Bool.eq_false_iff.mp hstays), if_neg hparent, entryOf_eq_ok_iff.mpr hnode]
          obtain ⟨target, rfl, h⟩ | ⟨hnolink, h⟩ := hcase
          · have hreached := hlink _ _ h
            rwa [List.append_assoc] at hreached
          · cases node with
            | symlink target => exact absurd rfl (hnolink target)
            | file _ _ | special | dir _ => exact ih _ h
  induction links generalizing path rest with
  | zero =>
      exact hpieces (fun result => ∃ left ≤ 0, result = seek root left real more) _
        (fun _ _ h => (by cases h)) ⟨0, le_rfl, rfl⟩ path rest h
  | succ links ih =>
      refine hpieces (fun result => ∃ left ≤ links + 1, result = seek root left real more) _
        (fun path rest h => ?_) ⟨links + 1, le_rfl, rfl⟩ path rest h
      obtain ⟨left, hleft, heq⟩ := ih h
      exact ⟨left, Nat.le_succ_of_le hleft, heq⟩

/-! ## The path of a real path -/

theorem pieces_realPathBuf (hplain : ∀ name ∈ path, Plain name) :
    pieces (realPathBuf path) = [] :: if path = [] then [[]] else path := by
  unfold realPathBuf
  split
  · rfl
  · rw [← List.nil_append (path.flatMap _), ← Data.intercalate_eq_flatMap]
    refine List.splitOn_intercalate 47 (List.forall_mem_cons.mpr ⟨List.not_mem_nil, ?_⟩)
      (List.cons_ne_nil _ _)
    exact fun name hname => (hplain name hname).2.2.2

theorem seek_stay {entries : List (Bytes × Node)} (hdir : root.get? path = some (.dir entries)) :
    seek root links path ([] :: rest) = seek root links path rest := by
  cases links with
  | zero =>
      rw [seek, seekPieces, entriesAt_eq_ok_iff.mpr hdir]
      rfl
  | succ links =>
      rw [seek, seekPieces, entriesAt_eq_ok_iff.mpr hdir]
      rfl

/-- A tree with a directory in it is one. -/
theorem exists_top {entries : List (Bytes × Node)} (h : root.get? path = some (.dir entries)) :
    ∃ top, root.get? [] = some (.dir top) := by
  cases path with
  | nil => exact ⟨entries, h⟩
  | cons name path =>
      rw [Node.get?_cons, Option.bind_eq_some_iff] at h
      obtain ⟨_, hchild, _⟩ := h
      obtain ⟨top, rfl, _⟩ := Node.mem_of_child hchild
      exact ⟨top, Node.get?_nil _⟩

/-- The real path of a directory is found again, whatever number of links may be followed. -/
theorem seek_realPathBuf {entries : List (Bytes × Node)} (hplain : ∀ name ∈ path, Plain name)
    (hdir : root.get? path = some (.dir entries)) :
    seek root links [] (pieces (realPathBuf path)) = .ok path := by
  obtain ⟨top, htop⟩ := exists_top hdir
  rw [pieces_realPathBuf hplain, seek_stay htop]
  split
  · rename_i hnil
    rw [seek_stay htop, hnil]
    exact seek_below (fun _ hname => (by cases hname)) ⟨_, htop, fun _ heq => (by cases heq)⟩
  · exact seek_below hplain ⟨_, hdir, fun _ heq => (by cases heq)⟩

end Seek

/-! ## Directories -/

section Directories

variable {fs : FileSystem} {path : Bytes} {real : Path} {top entries : List (Bytes × Node)}

theorem exists_pieces (path : Bytes) : ∃ front last, pieces path = front ++ [last] := by
  rcases List.eq_nil_or_concat (pieces path) with hnil | ⟨front, last, heq⟩
  · exact absurd hnil (List.splitOn_ne_nil 47 path)
  · exact ⟨front, last, heq.trans List.concat_eq_append⟩

/-- What `lstat` says is a directory is the directory at the real path. -/
theorem symlinkMetadata_dir (h : fs.symlinkMetadata path = .ok (.dir entries)) :
    ∃ real, seek fs.root fs.maxLinks [] (pieces path) = .ok real ∧
      fs.root.get? real = some (.dir entries) := by
  obtain ⟨front, last, hpieces⟩ := exists_pieces path
  unfold FileSystem.symlinkMetadata at h
  rw [hpieces, List.getLast?_concat, Option.getD_some, List.dropLast_concat] at h
  dsimp only at h
  split at h
  · obtain ⟨real, hreal, h⟩ := Data.bind_eq_ok_iff.mp h
    split at h
    · rename_i node hnode
      cases h
      exact ⟨real, hpieces ▸ hreal, hnode⟩
    · cases h
  · rename_i hlast
    rw [not_or] at hlast
    obtain ⟨parent, hparent, h⟩ := Data.bind_eq_ok_iff.mp h
    obtain ⟨inner, hinner, h⟩ := Data.bind_eq_ok_iff.mp h
    obtain ⟨left, _, hlonger⟩ := seek_append hparent [last]
    have hdir := get?_concat (entriesAt_eq_ok_iff.mp hinner) (entryOf_eq_ok_iff.mp h)
    have hplain : Plain last := plain_of_piece
      (pieces_pieces path last (hpieces ▸ List.mem_append_right _ (List.mem_singleton_self _)))
      (Bool.eq_false_iff.mpr hlast.1) hlast.2
    refine ⟨parent ++ [last], ?_, hdir⟩
    rw [hpieces, hlonger]
    exact seek_below (List.forall_mem_singleton.mpr hplain)
      ⟨_, hdir, fun target heq => (by cases heq)⟩

/-- The real path of a directory names the directory. -/
theorem symlinkMetadata_realPathBuf (hplain : ∀ name ∈ real, Plain name)
    (hdir : fs.root.get? real = some (.dir entries)) :
    fs.symlinkMetadata (realPathBuf real) = .ok (.dir entries) := by
  have hpieces := pieces_realPathBuf hplain
  obtain ⟨top, htop⟩ := exists_top hdir
  rcases List.eq_nil_or_concat real with rfl | ⟨front, name, rfl⟩
  · have hseek : seek fs.root fs.maxLinks [] (pieces (realPathBuf [])) = .ok [] :=
      seek_realPathBuf hplain hdir
    unfold FileSystem.symlinkMetadata
    rw [hpieces] at hseek ⊢
    rw [if_pos rfl] at hseek ⊢
    dsimp only
    rw [if_pos (.inl (by decide)), hseek]
    change (match fs.root.get? [] with
      | some node => Except.ok node
      | none => .error IoError.notFound) = _
    rw [hdir]
  · rw [List.concat_eq_append] at hplain hdir hpieces ⊢
    have hname := hplain name (List.mem_append_right _ (List.mem_singleton_self _))
    obtain ⟨inner, hparent, hentry⟩ := get?_of_concat hdir
    have hseek : seek fs.root fs.maxLinks [] ([] :: front) = .ok front := by
      rw [seek_stay htop]
      exact seek_below (fun other hother => hplain other (List.mem_append_left _ hother))
        ⟨_, hparent, fun _ heq => (by cases heq)⟩
    rw [if_neg (List.append_ne_nil_of_right_ne_nil _ (List.cons_ne_nil _ _)),
      ← List.cons_append] at hpieces
    unfold FileSystem.symlinkMetadata
    rw [hpieces, List.getLast?_concat, Option.getD_some, List.dropLast_concat]
    dsimp only
    rw [if_neg (not_or.mpr ⟨Bool.eq_false_iff.mp hname.stays, hname.2.2.1⟩), hseek]
    change (entriesAt fs.root front >>= fun entries => entryOf entries name) = _
    rw [entriesAt_eq_ok_iff.mpr hparent]
    exact entryOf_eq_ok_iff.mpr hentry

/-- The real path of a directory is its own real path. -/
theorem canonicalize_realPathBuf (hplain : ∀ name ∈ real, Plain name)
    (hdir : fs.root.get? real = some (.dir entries)) :
    fs.canonicalize (realPathBuf real) = .ok (realPathBuf real) := by
  rw [FileSystem.canonicalize, seek_realPathBuf hplain hdir]
  rfl

end Directories

end Prep.Fs
