/-
  Store/Activation.lean --- the activation of results, from `ActivationPlan` of
  `prep-store/src/lib.rs`.

  Every leaf of every prefix is entered under its relative path into one map.  What the map
  holds under a path is the results that have the leaf, in the order they are given in.

  Scope: any list of results, on a file system that stays as it is while the plan is made.  The
  trees are looked at anew: that a result was published by this store is not assumed, and its
  prefix may be no output tree, or not be there.
-/
import Prep.Data.SortedMap
import Prep.Fs.FileSystem
import Prep.Store.Calls
import Prep.Text.Display

set_option autoImplicit false

namespace Prep.Store

open Prep.Data
open Prep.Text
open Prep.Fs
open Prep.Io (IoError)

/-- `PathBuf` and `OsString`: bytes. -/
abbrev PathBuf : Type := Bytes

/-- An absolute path as bytes. -/
def pathBuf (path : Path) : PathBuf := path.flatMap fun name => 47 :: name

/-- `ActivationCollision`. -/
structure ActivationCollision where
  relativePath : Path
  resultIds : List StoreResultId
  deriving DecidableEq

/-- `ActivationPlan`. -/
structure ActivationPlan where
  pathEntries : List PathBuf
  cmakePrefixes : List PathBuf
  pkgConfigPaths : List PathBuf
  collisions : List ActivationCollision
  deriving DecidableEq

/-! ## Leaves -/

/-- `BTreeMap<PathBuf, Vec<StoreResultId>>`: relative paths are ordered by their
components. -/
abbrev Leaves : Type := SortedMap Path (List StoreResultId)

/-- `entry(..).or_default()`. -/
def Leaves.idsAt (leaves : Leaves) (path : Path) : List StoreResultId :=
  (leaves.get? path).getD []

/-- `leaves.entry(relative).or_default().push(result_id.clone())`. -/
def Leaves.push (leaves : Leaves) (path : Path) (id : StoreResultId) : Leaves :=
  leaves.insert path (leaves.idsAt path ++ [id])

mutual

/-- One entry of the loop of `collect_leaf_paths`. -/
def collectLeafEntry (root path : Path) (id : StoreResultId) (leaves : Leaves) :
    Node → Except StoreError Leaves
  | .dir entries => collectLeafPaths root path id leaves entries
  | _ =>
      match path.dropPrefix? root with
      | none => .error (.activation "activation path escaped prefix")
      | some relative => .ok (leaves.push relative id)

/-- `collect_leaf_paths`: the entries of one directory in the order `read_dir` gives
them. -/
def collectLeafPaths (root directory : Path) (id : StoreResultId) (leaves : Leaves) :
    List (Bytes × Node) → Except StoreError Leaves
  | [] => .ok leaves
  | (name, node) :: rest =>
      match collectLeafEntry root (directory ++ [name]) id leaves node with
      | .error e => .error e
      | .ok leaves => collectLeafPaths root directory id leaves rest

end

/-! ## Plans -/

/-- `validate_output_tree` on a path. -/
def validateOutputTreeIn (fs : FileSystem) (root : Path) : Except StoreError Unit :=
  match fs.lstat root with
  | none => .error (.io "inspect output root" root .notFound)
  | some node => validateOutputTree root node

/-- The first loop of `ActivationPlan::from_results`. -/
def checkResults (fs : FileSystem) :
    Finset StoreResultId → List PublishedResult → Except StoreError Unit
  | _, [] => .ok ()
  | seenIds, result :: rest =>
      if result.id ∈ seenIds then
        .error (.activation s!"duplicate result {display result.id.asString} in activation plan")
      else do
        validateOutputTreeIn fs result.prefixPath
        checkResults fs (insert result.id seenIds) rest

/-- What the second loop of `ActivationPlan::from_results` has gathered. -/
structure Gathered where
  pathEntries : List PathBuf
  cmakePrefixes : List PathBuf
  pkgConfigPaths : List PathBuf
  leaves : Leaves

/-- `prefix.join("bin")`. -/
def PublishedResult.bin (result : PublishedResult) : Path := result.prefixPath ++ [ascii "bin"]

/-- `prefix.join("lib/pkgconfig")` and `prefix.join("share/pkgconfig")`. -/
def PublishedResult.pkgConfig (result : PublishedResult) : List Path :=
  [result.prefixPath ++ [ascii "lib", ascii "pkgconfig"],
    result.prefixPath ++ [ascii "share", ascii "pkgconfig"]]

/-- `collect_leaf_paths` on a prefix. -/
def collectLeaves (fs : FileSystem) (result : PublishedResult) (leaves : Leaves) :
    Except StoreError Leaves :=
  match fs.lstat result.prefixPath with
  | some (.dir entries) =>
      collectLeafPaths result.prefixPath result.prefixPath result.id leaves entries
  | some _ => .error (.io "read activation directory" result.prefixPath (.other 20))
  | none => .error (.io "read activation directory" result.prefixPath .notFound)

/-- One turn of the second loop. -/
def gatherResult (fs : FileSystem) (gathered : Gathered) (result : PublishedResult) :
    Except StoreError Gathered :=
  match collectLeaves fs result gathered.leaves with
  | .error e => .error e
  | .ok leaves => .ok {
      pathEntries :=
        if fs.isDir result.bin then gathered.pathEntries ++ [pathBuf result.bin]
        else gathered.pathEntries
      cmakePrefixes := gathered.cmakePrefixes ++ [pathBuf result.prefixPath]
      pkgConfigPaths := gathered.pkgConfigPaths ++
        (result.pkgConfig.filter fs.isDir).map pathBuf
      leaves }

/-- `filter_map` over the leaves. -/
def collisionOf (leaf : Path × List StoreResultId) : Option ActivationCollision :=
  if leaf.2.length > 1 then some ⟨leaf.1, leaf.2⟩ else none

/-- `ActivationPlan::from_results`. -/
def ActivationPlan.fromResults (fs : FileSystem) (results : List PublishedResult) :
    Except StoreError ActivationPlan := do
  checkResults fs ∅ results
  let gathered ← results.foldlM (gatherResult fs) ⟨[], [], [], SortedMap.empty⟩
  return {
    pathEntries := gathered.pathEntries
    cmakePrefixes := gathered.cmakePrefixes
    pkgConfigPaths := gathered.pkgConfigPaths
    collisions := gathered.leaves.entries.filterMap collisionOf }

/-! ## What the walk enters -/

/-- A tree has a node that is no directory at a path. -/
def hasLeaf (tree : Node) (path : Path) : Bool := (tree.get? path).any fun node => !node.isDir

theorem hasLeaf_dir_cons (entries : List (Bytes × Node)) (name : Bytes) (path : Path) :
    hasLeaf (.dir entries) (name :: path) =
      (entries.lookup name).any fun node => hasLeaf node path := by
  unfold hasLeaf
  rw [Node.get?_cons, Node.child]
  cases entries.lookup name <;> rfl

theorem hasLeaf_of_not_isDir {node : Node} (h : node.isDir = false) (path : Path) :
    hasLeaf node path = decide (path = []) := by
  cases path with
  | nil =>
      unfold hasLeaf
      rw [Node.get?_nil, Option.any_some, h]
      rfl
  | cons name path =>
      unfold hasLeaf
      rw [Node.get?_cons]
      cases node with
      | dir entries => cases h
      | file contents nlink => rfl
      | symlink target => rfl
      | special => rfl

theorem idsAt_push (leaves : Leaves) (path other : Path) (id : StoreResultId) :
    (leaves.push path id).idsAt other =
      leaves.idsAt other ++ if other = path then [id] else [] := by
  unfold Leaves.push Leaves.idsAt
  rw [SortedMap.get?_insert]
  split
  · rename_i h
    rw [h]
    rfl
  · rw [List.append_nil]

/-- The leaves of a tree that stands at a relative path have been entered for a result. -/
structure Enters (id : StoreResultId) (relative : Path) (tree : Node) (before after : Leaves) :
    Prop where
  below : ∀ path, after.idsAt (relative ++ path) =
    before.idsAt (relative ++ path) ++ if hasLeaf tree path then [id] else []
  beside : ∀ path, ¬ relative <+: path → after.idsAt path = before.idsAt path

theorem enters_push {id : StoreResultId} {relative : Path} {node : Node} {leaves : Leaves}
    (h : node.isDir = false) : Enters id relative node leaves (leaves.push relative id) where
  below path := by
    rw [idsAt_push, hasLeaf_of_not_isDir h]
    congr 1
    exact if_congr (by rw [List.append_right_eq_self, decide_eq_true_eq]) rfl rfl
  beside path hpath := by
    rw [idsAt_push, if_neg, List.append_nil]
    rintro rfl
    exact hpath (List.prefix_refl _)

/-- One entry of a directory and then the others. -/
theorem Enters.cons {id : StoreResultId} {relative : Path} {name : Bytes} {node : Node}
    {rest : List (Bytes × Node)} {before mid after : Leaves}
    (hname : rest.lookup name = none) (h : Enters id (relative ++ [name]) node before mid)
    (h' : Enters id relative (.dir rest) mid after) :
    Enters id relative (.dir ((name, node) :: rest)) before after where
  below path := by
    rw [h'.below]
    cases path with
    | nil =>
        rw [h.beside]
        · rfl
        · intro hprefix
          have hlength := hprefix.length_le
          rw [List.length_append, List.append_nil] at hlength
          exact absurd hlength (by simp)
    | cons first path =>
        rw [hasLeaf_dir_cons, hasLeaf_dir_cons, List.lookup_cons]
        rcases eq_or_ne first name with rfl | hne
        · have hsplit : relative ++ first :: path = relative ++ [first] ++ path := by simp
          rw [hname, hsplit, h.below, beq_self_eq_true]
          exact List.append_nil _
        · rw [h.beside, beq_eq_false_iff_ne.mpr hne]
          intro hprefix
          rw [List.prefix_append_right_inj, List.cons_prefix_cons] at hprefix
          exact hne hprefix.1.symm
  beside path hpath := by
    rw [h'.beside path hpath, h.beside path]
    exact fun hprefix => hpath ((List.prefix_append _ _).trans hprefix)

theorem collectLeafPaths_enters {root relative : Path} {id : StoreResultId}
    {entries : List (Bytes × Node)} (hnames : (entries.map (·.1)).Nodup)
    (hentry : ∀ entry ∈ entries, ∀ leaves, ∃ after,
      collectLeafEntry root (root ++ (relative ++ [entry.1])) id leaves entry.2 = .ok after ∧
        Enters id (relative ++ [entry.1]) entry.2 leaves after) (leaves : Leaves) :
    ∃ after, collectLeafPaths root (root ++ relative) id leaves entries = .ok after ∧
      Enters id relative (.dir entries) leaves after := by
  induction entries generalizing leaves with
  | nil =>
      refine ⟨leaves, rfl, fun path => ?_, fun _ _ => rfl⟩
      cases path with
      | nil => exact (List.append_nil _).symm
      | cons name path => exact (List.append_nil _).symm
  | cons entry rest ih =>
      obtain ⟨name, node⟩ := entry
      rw [List.map_cons, List.nodup_cons] at hnames
      obtain ⟨mid, hfirst, henters⟩ := hentry (name, node) List.mem_cons_self leaves
      obtain ⟨after, hrest, henters'⟩ :=
        ih hnames.2 (fun entry hmem => hentry entry (List.mem_cons_of_mem _ hmem)) mid
      refine ⟨after, ?_, henters.cons ?_ henters'⟩
      · rw [collectLeafPaths, List.append_assoc, hfirst]
        exact hrest
      · refine List.lookup_eq_none_iff.mpr fun other hother => ?_
        rw [bne_iff_ne]
        rintro rfl
        exact hnames.1 (List.mem_map_of_mem (f := (·.1)) hother)

/-- The walk over a tree enters its leaves and nothing else. -/
theorem collectLeafEntry_enters (root : Path) (id : StoreResultId) {node : Node}
    (htidy : Tidy .sensitive node) : ∀ (relative : Path) (leaves : Leaves),
      ∃ after, collectLeafEntry root (root ++ relative) id leaves node = .ok after ∧
        Enters id relative node leaves after := by
  have hleaf : ∀ (relative : Path), (root ++ relative).dropPrefix? root = some relative :=
    fun relative => List.dropPrefix?_eq_some_iff.mpr ⟨root, rfl, beq_self_eq_true root⟩
  induction htidy with
  | file contents nlink =>
      intro relative leaves
      refine ⟨leaves.push relative id, ?_, enters_push rfl⟩
      rw [collectLeafEntry, hleaf]
      exact nofun
  | symlink target =>
      intro relative leaves
      refine ⟨leaves.push relative id, ?_, enters_push rfl⟩
      rw [collectLeafEntry, hleaf]
      exact nofun
  | special =>
      intro relative leaves
      refine ⟨leaves.push relative id, ?_, enters_push rfl⟩
      rw [collectLeafEntry, hleaf]
      exact nofun
  | dir entries distinct below ih =>
      intro relative leaves
      rw [collectLeafEntry]
      exact collectLeafPaths_enters distinct
        (fun entry hmem leaves => ih entry hmem (relative ++ [entry.1]) leaves) leaves

/-! ## What is gathered -/

section Gathering

variable {fs : FileSystem}

/-- Below the prefix of a result there is a node at a relative path that is no directory. -/
def HasLeafAt (fs : FileSystem) (path : Path) (result : PublishedResult) : Bool :=
  (fs.lstat (result.prefixPath ++ path)).any fun node => !node.isDir

/-- The prefix of a result is an output tree that the store accepts. -/
def ValidOutput (fs : FileSystem) (result : PublishedResult) : Prop :=
  ∃ tree, fs.lstat result.prefixPath = some tree ∧
    validateOutputTree result.prefixPath tree = .ok ()

theorem hasLeafAt_eq {result : PublishedResult} {tree : Node}
    (hfound : fs.lstat result.prefixPath = some tree) (path : Path) :
    HasLeafAt fs path result = hasLeaf tree path := by
  unfold FileSystem.lstat at hfound
  rw [HasLeafAt, FileSystem.lstat, Node.get?_append, hfound]
  rfl

theorem checkResults_ok {results : List PublishedResult}
    (hvalid : ∀ result ∈ results, ValidOutput fs result) :
    ∀ {seenIds : Finset StoreResultId}, (results.map (·.id)).Nodup →
      (∀ result ∈ results, result.id ∉ seenIds) → checkResults fs seenIds results = .ok () := by
  induction results with
  | nil => exact fun _ _ => rfl
  | cons result rest ih =>
      intro seenIds hnodup hseen
      rw [List.map_cons, List.nodup_cons] at hnodup
      obtain ⟨tree, hfound, haccepted⟩ := hvalid result List.mem_cons_self
      have hcheck : validateOutputTreeIn fs result.prefixPath = .ok () := by
        rw [validateOutputTreeIn, hfound]
        exact haccepted
      rw [checkResults, if_neg (hseen result List.mem_cons_self), hcheck]
      refine ih (fun other hmem => hvalid other (List.mem_cons_of_mem _ hmem)) hnodup.2 ?_
      intro other hmem hinsert
      rcases Finset.mem_insert.mp hinsert with heq | hold
      · exact hnodup.1 (heq ▸ List.mem_map_of_mem (f := (·.id)) hmem)
      · exact hseen other (List.mem_cons_of_mem _ hmem) hold

/-- A repeated identifier ends the first loop, if nothing has ended it before. -/
theorem checkResults_repeated {results : List PublishedResult} :
    ∀ {seenIds : Finset StoreResultId},
      ¬ ((results.map (·.id)).Nodup ∧ ∀ result ∈ results, result.id ∉ seenIds) →
        ∃ e, checkResults fs seenIds results = .error e := by
  induction results with
  | nil => exact fun h => absurd ⟨List.nodup_nil, fun _ hmem => absurd hmem List.not_mem_nil⟩ h
  | cons result rest ih =>
      intro seenIds h
      rw [checkResults]
      by_cases hseen : result.id ∈ seenIds
      · exact ⟨_, if_pos hseen⟩
      · rw [if_neg hseen]
        cases validateOutputTreeIn fs result.prefixPath with
        | error e => exact ⟨e, rfl⟩
        | ok _ =>
            refine ih fun hrest => h ⟨?_, ?_⟩
            · rw [List.map_cons, List.nodup_cons]
              refine ⟨fun hmem => ?_, hrest.1⟩
              obtain ⟨other, hother, heq⟩ := List.mem_map.mp hmem
              exact hrest.2 other hother (heq ▸ Finset.mem_insert_self ..)
            · intro other hmem
              rcases List.mem_cons.mp hmem with rfl | hother
              · exact hseen
              · exact fun hold => hrest.2 other hother (Finset.mem_insert_of_mem hold)

/-- The second loop enters the leaves of one more result. -/
theorem gatherResult_ok {result : PublishedResult} (hvalid : ValidOutput fs result)
    (gathered : Gathered) :
    ∃ next, gatherResult fs gathered result = .ok next ∧
      next.pathEntries = gathered.pathEntries ++
        ([result].filter fun result => fs.isDir result.bin).map (fun result => pathBuf result.bin) ∧
      next.cmakePrefixes = gathered.cmakePrefixes ++ [pathBuf result.prefixPath] ∧
      next.pkgConfigPaths = gathered.pkgConfigPaths ++
        (result.pkgConfig.filter fs.isDir).map pathBuf ∧
      ∀ path, next.leaves.idsAt path =
        gathered.leaves.idsAt path ++ ([result].filter (HasLeafAt fs path)).map (·.id) := by
  obtain ⟨tree, hfound, haccepted⟩ := hvalid
  obtain ⟨hdir, _⟩ := validateOutputTree_eq_ok_iff.mp haccepted
  obtain ⟨after, hwalk, henters⟩ :=
    collectLeafEntry_enters result.prefixPath result.id (fs.tidy.get? hfound) [] gathered.leaves
  rw [List.append_nil] at hwalk
  have hcollect : collectLeaves fs result gathered.leaves = .ok after := by
    rw [collectLeaves, hfound]
    cases tree with
    | dir entries => exact hwalk
    | file contents nlink => cases hdir
    | symlink target => cases hdir
    | special => cases hdir
  refine ⟨_, by rw [gatherResult, hcollect], ?_, rfl, rfl, fun path => ?_⟩
  · rw [List.filter_singleton]
    cases fs.isDir result.bin with
    | true => rfl
    | false => exact (List.append_nil _).symm
  · have hbelow := henters.below path
    rw [List.nil_append] at hbelow
    rw [List.filter_singleton, hasLeafAt_eq hfound]
    refine hbelow.trans (congrArg _ ?_)
    cases hasLeaf tree path <;> rfl

/-- The second loop over all results. -/
theorem gather_ok {results : List PublishedResult}
    (hvalid : ∀ result ∈ results, ValidOutput fs result) (gathered : Gathered) :
    ∃ last, results.foldlM (gatherResult fs) gathered = .ok last ∧
      last.pathEntries = gathered.pathEntries ++
        (results.filter fun result => fs.isDir result.bin).map (fun result => pathBuf result.bin) ∧
      last.cmakePrefixes =
        gathered.cmakePrefixes ++ results.map (fun result => pathBuf result.prefixPath) ∧
      last.pkgConfigPaths = gathered.pkgConfigPaths ++
        results.flatMap (fun result => (result.pkgConfig.filter fs.isDir).map pathBuf) ∧
      ∀ path, last.leaves.idsAt path =
        gathered.leaves.idsAt path ++ (results.filter (HasLeafAt fs path)).map (·.id) := by
  induction results generalizing gathered with
  | nil =>
      refine ⟨gathered, rfl, ?_, ?_, ?_, fun path => ?_⟩ <;> exact (List.append_nil _).symm
  | cons result rest ih =>
      obtain ⟨next, hnext, hpath, hcmake, hpkg, hleaves⟩ :=
        gatherResult_ok (hvalid result List.mem_cons_self) gathered
      obtain ⟨last, hlast, hpath', hcmake', hpkg', hleaves'⟩ :=
        ih (fun other hmem => hvalid other (List.mem_cons_of_mem _ hmem)) next
      have hsplit : result :: rest = [result] ++ rest := rfl
      refine ⟨last, ?_, ?_, ?_, ?_, fun path => ?_⟩
      · rw [List.foldlM_cons, hnext]
        exact hlast
      · rw [hpath', hpath, hsplit, List.filter_append, List.map_append, List.append_assoc]
      · rw [hcmake', hcmake, List.append_assoc]
        rfl
      · rw [hpkg', hpkg, List.append_assoc]
        rfl
      · rw [hleaves', hleaves, hsplit, List.filter_append, List.map_append, List.append_assoc]

/-- What the map holds under a path is a collision if there is more than one of it. -/
theorem mem_collisions_iff {leaves : Leaves} {collision : ActivationCollision} :
    collision ∈ leaves.entries.filterMap collisionOf ↔
      collision.resultIds = leaves.idsAt collision.relativePath ∧
        1 < (leaves.idsAt collision.relativePath).length := by
  obtain ⟨path, ids⟩ := collision
  rw [List.mem_filterMap]
  unfold Leaves.idsAt collisionOf
  constructor
  · rintro ⟨⟨path', ids'⟩, hmem, hsome⟩
    split at hsome
    · rename_i hmore
      cases hsome
      rw [SortedMap.get?_eq_some_iff.mpr hmem]
      exact ⟨rfl, hmore⟩
    · cases hsome
  · dsimp only
    rintro ⟨hids, hmore⟩
    cases hfound : SortedMap.get? leaves path with
    | none =>
        rw [hfound] at hmore
        exact absurd hmore (Nat.not_lt_zero 1)
    | some found =>
        rw [hfound] at hids hmore
        obtain rfl : ids = found := hids
        exact ⟨(path, ids), SortedMap.get?_eq_some_iff.mp hfound, if_pos hmore⟩

/-- The collisions stand in the order of their paths, each path once. -/
theorem sorted_collisions (leaves : Leaves) :
    ((leaves.entries.filterMap collisionOf).map (·.relativePath)).Pairwise
      fun left right => compare left right = .lt := by
  have hpath : ∀ {leaf : Path × List StoreResultId} {collision : ActivationCollision},
      collision ∈ collisionOf leaf → collision.relativePath = leaf.1 := by
    intro leaf collision h
    unfold collisionOf at h
    split at h
    · cases h
      rfl
    · cases h
  rw [List.pairwise_map]
  refine List.Pairwise.filterMap _ (fun left right hlt => ?_) leaves.sorted
  intro collision hcollision collision' hcollision'
  rw [hpath hcollision, hpath hcollision']
  exact hlt

end Gathering

/-! ## What a plan says -/

/-- Distinct results with accepted trees are activated.  The plan lists what it composes in
the order of the results, and every leaf that two of them have, once, with those that have
it.  A repeated identifier is refused. -/
theorem ActivationPlan.fromResults_spec (fs : FileSystem) (results : List PublishedResult) :
    ((results.map (·.id)).Nodup → (∀ result ∈ results, ValidOutput fs result) →
      ∃ plan, ActivationPlan.fromResults fs results = .ok plan ∧
        (plan.collisions.map (·.relativePath)).Pairwise
          (fun left right => compare left right = .lt) ∧
        (∀ collision, collision ∈ plan.collisions ↔
          2 ≤ (results.filter (HasLeafAt fs collision.relativePath)).length ∧
            collision.resultIds =
              (results.filter (HasLeafAt fs collision.relativePath)).map (·.id)) ∧
        plan.cmakePrefixes = results.map (fun result => pathBuf result.prefixPath) ∧
        plan.pathEntries = (results.filter fun result => fs.isDir result.bin).map
          (fun result => pathBuf result.bin) ∧
        plan.pkgConfigPaths = results.flatMap
          (fun result => (result.pkgConfig.filter fs.isDir).map pathBuf)) ∧
    (¬ (results.map (·.id)).Nodup →
      ∃ e, ActivationPlan.fromResults fs results = .error e) := by
  refine ⟨fun hnodup hvalid => ?_, fun hrepeated => ?_⟩
  · have hcheck : checkResults fs ∅ results = .ok () :=
      checkResults_ok hvalid hnodup fun _ _ => Finset.notMem_empty _
    obtain ⟨last, hgather, hpath, hcmake, hpkg, hleaves⟩ :=
      gather_ok hvalid ⟨[], [], [], SortedMap.empty⟩
    have hids : ∀ path, last.leaves.idsAt path =
        (results.filter (HasLeafAt fs path)).map (·.id) := hleaves
    refine ⟨⟨last.pathEntries, last.cmakePrefixes, last.pkgConfigPaths,
      last.leaves.entries.filterMap collisionOf⟩, ?_, sorted_collisions last.leaves,
      fun collision => ?_, hcmake, hpath, hpkg⟩
    · rw [ActivationPlan.fromResults, hcheck]
      dsimp only [bind, Except.bind]
      rw [hgather]
      rfl
    · rw [mem_collisions_iff, hids, List.length_map]
      exact and_comm
  · obtain ⟨e, he⟩ := @checkResults_repeated fs results ∅ fun h => hrepeated h.1
    refine ⟨e, ?_⟩
    rw [ActivationPlan.fromResults, he]
    rfl

section Sample

def sampleOutput : Node := .dir [(ascii "bin", .dir [(ascii "tool", .file [] 1)])]

def sampleRoot : Node := .dir [(ascii "d", sampleOutput), (ascii "e", sampleOutput)]

theorem tidy_sampleRoot : Tidy .sensitive sampleRoot := by
  have htool : Tidy .sensitive (.dir [(ascii "tool", .file [] 1)]) :=
    .dir _ (List.nodup_singleton _) fun entry hmem => by
      rw [List.mem_singleton.mp hmem]
      exact .file [] 1
  have houtput : Tidy .sensitive sampleOutput :=
    .dir _ (List.nodup_singleton _) fun entry hmem => by
      rw [List.mem_singleton.mp hmem]
      exact htool
  refine .dir _ (by decide) fun entry hmem => ?_
  rcases List.mem_pair.mp hmem with rfl | rfl
  · exact houtput
  · exact houtput

def sampleFileSystem : FileSystem := ⟨sampleRoot, 40, tidy_sampleRoot⟩

theorem all_replicate_isLowerHexdigit {digit : UInt8} (h : isLowerHexdigit digit = true) :
    (List.replicate 64 digit).all isLowerHexdigit = true := by
  rw [List.all_replicate, h]
  rfl

/-- The result of a build whose prefix is a directory of the root. -/
def sampleResult (digit : UInt8) (h : isLowerHexdigit digit = true) (name : Bytes) :
    PublishedResult where
  id := ⟨List.replicate 64 digit, List.length_replicate, all_replicate_isLowerHexdigit h⟩
  path := []
  prefixPath := [name]

theorem isLowerHexdigit_sample : isLowerHexdigit 100 = true ∧ isLowerHexdigit 101 = true := by
  decide

def sampleFirst : PublishedResult := sampleResult 100 isLowerHexdigit_sample.1 (ascii "d")

def sampleSecond : PublishedResult := sampleResult 101 isLowerHexdigit_sample.2 (ascii "e")

theorem ActivationPlan.fromResults_sample :
    ∃ plan, ActivationPlan.fromResults sampleFileSystem [sampleFirst, sampleSecond] = .ok plan ∧
      ⟨[ascii "bin", ascii "tool"], [sampleFirst.id, sampleSecond.id]⟩ ∈ plan.collisions ∧
      plan.pathEntries = [ascii "/d/bin", ascii "/e/bin"] := by
  have hnodup : ([sampleFirst, sampleSecond].map (·.id)).Nodup := by decide
  have hvalid : ∀ result ∈ [sampleFirst, sampleSecond], ValidOutput sampleFileSystem result := by
    intro result hmem
    rcases List.mem_pair.mp hmem with rfl | rfl
    · exact ⟨sampleOutput, rfl, by decide⟩
    · exact ⟨sampleOutput, rfl, by decide⟩
  obtain ⟨plan, hplan, _, hcollisions, _, hpath, _⟩ :=
    (ActivationPlan.fromResults_spec sampleFileSystem [sampleFirst, sampleSecond]).1 hnodup hvalid
  refine ⟨plan, hplan, (hcollisions _).mpr ⟨by decide, by decide⟩, hpath.trans (by decide)⟩

end Sample

end Prep.Store
