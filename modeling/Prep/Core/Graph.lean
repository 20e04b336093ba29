/-
  Core/Graph.lean --- the dependency graph of a lockfile and its build order, from
  `prep-core/src/graph.rs`.

  Packages are their names: versions and sources play no part in the order.  `visit` is
  recursive in the source; here it has more fuel than there are packages, and never runs out of
  it.  How deep the stack of a process may get is left out.
-/
import Prep.Data.Search
import Prep.Manifest.Reorder

set_option autoImplicit false

namespace Prep.Core

open Prep.Data
open Prep.Manifest
open Prep.Text

/-- `GraphError`. -/
inductive GraphError where
  | invalidLock (message : String)
  | missingPackage (package dependency : Bytes)
  | cycle (names : List Bytes)
  deriving DecidableEq, Repr

/-- `DependencyGraph`. -/
structure DependencyGraph where
  roots : List PackageName
  dependencies : SortedMap PackageName (List PackageName)
  deriving DecidableEq

namespace DependencyGraph

/-- The dependencies that `visit` goes through. -/
def next (graph : DependencyGraph) (package : PackageName) : List PackageName :=
  (graph.dependencies.get? package).getD []

theorem next_eq_nil {graph : DependencyGraph} {package : PackageName}
    (h : package ∉ graph.dependencies.keys) : graph.next package = [] := by
  rw [SortedMap.mem_keys_iff, Option.not_isSome_iff_eq_none] at h
  rw [next, h]
  rfl

/-- `build_order`, with the value its `visit` puts for a position that is not found. -/
def buildOrderWith (fallback : Nat) (graph : DependencyGraph) :
    Except GraphError (List PackageName) :=
  (Search.depthFirst graph.next fallback graph.dependencies.keys graph.roots
    fun _ => next_eq_nil).mapError fun path => .cycle (path.map (·.asStr))

/-- `DependencyGraph::build_order`. -/
def buildOrder (graph : DependencyGraph) : Except GraphError (List PackageName) :=
  graph.buildOrderWith 0

/-- A loop of `from_lockfile` over the names one package depends on. -/
def requireLocked (dependencies : SortedMap PackageName (List PackageName)) (package : Bytes)
    (names : List PackageName) : Except GraphError Unit :=
  names.forM fun dependency =>
    if (dependencies.get? dependency).isSome then .ok ()
    else .error (.missingPackage package dependency.asStr)

/-- The graph that `from_lockfile` puts together. -/
def ofLockfile (lockfile : Lockfile) : DependencyGraph where
  roots := sortByKey id lockfile.root.dependencies
  dependencies := SortedMap.ofEntries
    (lockfile.packages.map fun package => (package.name, sortByKey id package.dependencies))

/-- `from_lockfile`, with the fallback of `visit`. -/
def fromLockfileWith (fallback : Nat) (lockfile : Lockfile) :
    Except GraphError DependencyGraph := do
  lockfile.validate.mapError fun e => .invalidLock e.message
  let graph := ofLockfile lockfile
  requireLocked graph.dependencies (ascii "<root>") graph.roots
  graph.dependencies.entries.forM fun (package, names) =>
    requireLocked graph.dependencies package.asStr names
  let _ ← graph.buildOrderWith fallback
  return graph

/-- `DependencyGraph::from_lockfile`. -/
def fromLockfile (lockfile : Lockfile) : Except GraphError DependencyGraph :=
  fromLockfileWith 0 lockfile

end DependencyGraph

/-! ## What a lockfile says -/

/-- A locked package depends on a name. -/
def DependsOn (lockfile : Lockfile) (package dependency : PackageName) : Prop :=
  ∃ locked ∈ lockfile.packages, locked.name = package ∧ dependency ∈ locked.dependencies

/-- What the root needs. -/
def Needed (lockfile : Lockfile) (package : PackageName) : Prop :=
  ∃ root ∈ lockfile.root.dependencies,
    Relation.ReflTransGen (DependsOn lockfile) root package

/-- Every name that the root or a package depends on is locked. -/
def AllLocked (lockfile : Lockfile) : Prop :=
  (∀ name ∈ lockfile.root.dependencies, name ∈ lockfile.packages.map (·.name)) ∧
    ∀ package name, DependsOn lockfile package name → name ∈ lockfile.packages.map (·.name)

namespace DependencyGraph

variable {lockfile : Lockfile}

theorem nodup_entries (h : lockfile.validate = .ok ()) :
    ((lockfile.packages.map fun package =>
      (package.name, sortByKey id package.dependencies)).map (·.1)).Nodup := by
  rw [List.map_map]
  exact (Lockfile.validate_eq_ok_iff.mp h).2.2.1

/-- The entries of the graph are those of the lockfile, in order. -/
theorem get?_ofLockfile (h : lockfile.validate = .ok ()) (package : PackageName)
    (names : List PackageName) :
    (ofLockfile lockfile).dependencies.get? package = some names ↔
      ∃ locked ∈ lockfile.packages, locked.name = package ∧
        sortByKey id locked.dependencies = names := by
  rw [ofLockfile, SortedMap.get?_ofEntries (nodup_entries h), List.mem_map]
  simp only [Prod.mk.injEq]

theorem isSome_get?_ofLockfile (h : lockfile.validate = .ok ()) (package : PackageName) :
    ((ofLockfile lockfile).dependencies.get? package).isSome = true ↔
      package ∈ lockfile.packages.map (·.name) := by
  rw [← SortedMap.mem_keys_iff, ofLockfile, SortedMap.mem_keys_ofEntries (nodup_entries h),
    List.map_map]
  rfl

/-- The edges of the graph are the dependencies of the lockfile. -/
theorem edge_ofLockfile (h : lockfile.validate = .ok ()) :
    Search.Edge (ofLockfile lockfile).next = DependsOn lockfile := by
  funext package dependency
  refine propext ?_
  unfold Search.Edge next
  cases hget : (ofLockfile lockfile).dependencies.get? package with
  | none =>
      refine ⟨fun hmem => absurd hmem List.not_mem_nil, ?_⟩
      rintro ⟨locked, hlocked, rfl, _⟩
      have hsome := (isSome_get?_ofLockfile h locked.name).mpr (List.mem_map_of_mem hlocked)
      rw [hget] at hsome
      cases hsome
  | some names =>
      obtain ⟨locked, hlocked, hname, hnames⟩ := (get?_ofLockfile h package names).mp hget
      constructor
      · intro hmem
        refine ⟨locked, hlocked, hname, ?_⟩
        rw [← hnames] at hmem
        exact (sortByKey_perm id _).mem_iff.mp hmem
      · rintro ⟨locked', hlocked', hname', hmem⟩
        obtain rfl := eq_of_key_eq (Lockfile.validate_eq_ok_iff.mp h).2.2.1 hlocked hlocked'
          (hname.trans hname'.symm)
        rw [← hnames]
        exact (sortByKey_perm id _).mem_iff.mpr hmem

theorem reached_ofLockfile (h : lockfile.validate = .ok ()) (package : PackageName) :
    Search.Reached (ofLockfile lockfile).next (ofLockfile lockfile).roots package ↔
      Needed lockfile package := by
  unfold Search.Reached Needed
  rw [edge_ofLockfile h]
  refine exists_congr fun root => and_congr_left fun _ => ?_
  exact (sortByKey_perm id _).mem_iff

theorem requireLocked_eq_ok_iff {dependencies : SortedMap PackageName (List PackageName)}
    {package : Bytes} {names : List PackageName} :
    requireLocked dependencies package names = .ok () ↔
      ∀ name ∈ names, (dependencies.get? name).isSome = true := by
  rw [requireLocked, List.forM_eq_forM, forM_eq_ok_iff]
  refine forall₂_congr fun name _ => ?_
  split
  · rename_i h
    exact ⟨fun _ => h, fun _ => rfl⟩
  · rename_i h
    exact ⟨fun hok => (by cases hok), fun hsome => absurd hsome h⟩

/-- The two loops of `from_lockfile` let pass what is locked. -/
theorem requireLocked_iff (h : lockfile.validate = .ok ()) :
    (requireLocked (ofLockfile lockfile).dependencies (ascii "<root>") (ofLockfile lockfile).roots =
        .ok () ∧
      (ofLockfile lockfile).dependencies.entries.forM (fun (package, names) =>
        requireLocked (ofLockfile lockfile).dependencies package.asStr names) = .ok ()) ↔
      AllLocked lockfile := by
  rw [requireLocked_eq_ok_iff, List.forM_eq_forM, forM_eq_ok_iff]
  refine and_congr ?_ ?_
  · refine forall_congr' fun name => ?_
    rw [isSome_get?_ofLockfile h]
    exact imp_congr_left (sortByKey_perm id _).mem_iff
  · constructor
    · rintro hentries package name ⟨locked, hlocked, rfl, hname⟩
      have hentry := hentries (locked.name, sortByKey id locked.dependencies)
        (SortedMap.get?_eq_some_iff.mp
          ((get?_ofLockfile h _ _).mpr ⟨locked, hlocked, rfl, rfl⟩))
      rw [requireLocked_eq_ok_iff] at hentry
      exact (isSome_get?_ofLockfile h name).mp
        (hentry name ((sortByKey_perm id _).mem_iff.mpr hname))
    · rintro hall ⟨package, names⟩ hentry
      obtain ⟨locked, hlocked, hname, rfl⟩ :=
        (get?_ofLockfile h package names).mp (SortedMap.get?_eq_some_iff.mpr hentry)
      refine requireLocked_eq_ok_iff.mpr fun name hmem => (isSome_get?_ofLockfile h name).mpr ?_
      exact hall package name ⟨locked, hlocked, hname, (sortByKey_perm id _).mem_iff.mp hmem⟩

/-- A valid lockfile with all names locked is refused for a cycle only. -/
theorem fromLockfileWith_eq {fallback : Nat} (hvalid : lockfile.validate = .ok ())
    (hlocked : AllLocked lockfile) :
    fromLockfileWith fallback lockfile =
      (ofLockfile lockfile).buildOrderWith fallback >>= fun _ => .ok (ofLockfile lockfile) := by
  obtain ⟨hroots, hentries⟩ := (requireLocked_iff hvalid).mpr hlocked
  unfold fromLockfileWith
  rw [hvalid]
  show (requireLocked _ _ _ >>= fun _ => _) = _
  rw [hroots]
  show ((List.forM _ _ : Except GraphError PUnit) >>= fun _ => _) = _
  rw [hentries]
  rfl

/-- What `from_lockfile` accepts. -/
theorem fromLockfileWith_eq_ok_iff {fallback : Nat} {graph : DependencyGraph} :
    fromLockfileWith fallback lockfile = .ok graph ↔
      lockfile.validate = .ok () ∧ AllLocked lockfile ∧ graph = ofLockfile lockfile ∧
        ∃ order, graph.buildOrderWith fallback = .ok order := by
  constructor
  · intro h
    have hvalid : lockfile.validate = .ok () := by
      unfold fromLockfileWith at h
      cases hvalidate : lockfile.validate with
      | ok _ => rfl
      | error e =>
          rw [hvalidate] at h
          cases h
    have hchecks := h
    unfold fromLockfileWith at hchecks
    rw [hvalid] at hchecks
    obtain ⟨hroots, hrest⟩ := check_bind_eq_ok_iff.mp
      (show (requireLocked _ _ _ >>= fun _ => _) = Except.ok graph from hchecks)
    obtain ⟨hentries, _⟩ := check_bind_eq_ok_iff.mp
      (show (List.forM _ _ >>= fun _ => _) = Except.ok graph from hrest)
    have hlocked := (requireLocked_iff hvalid).mp ⟨hroots, hentries⟩
    rw [fromLockfileWith_eq hvalid hlocked, bind_eq_ok_iff] at h
    obtain ⟨order, horder, heq⟩ := h
    cases heq
    exact ⟨hvalid, hlocked, rfl, order, horder⟩
  · rintro ⟨hvalid, hlocked, rfl, order, horder⟩
    rw [fromLockfileWith_eq hvalid hlocked, horder]
    rfl

/-! ## The build order -/

theorem buildOrderWith_eq_ok {fallback : Nat} {graph : DependencyGraph}
    {order : List PackageName} :
    graph.buildOrderWith fallback = .ok order ↔
      Search.depthFirst graph.next fallback graph.dependencies.keys graph.roots
        (fun _ => next_eq_nil) = .ok order := by
  unfold buildOrderWith
  cases Search.depthFirst graph.next fallback graph.dependencies.keys graph.roots
      (fun _ => next_eq_nil) with
  | ok found => exact ⟨fun h => (by cases h; rfl), fun h => (by cases h; rfl)⟩
  | error path => exact ⟨fun h => (by cases h), fun h => (by cases h)⟩

theorem buildOrderWith_eq_error {fallback : Nat} {graph : DependencyGraph} {e : GraphError} :
    graph.buildOrderWith fallback = .error e ↔
      ∃ path, Search.depthFirst graph.next fallback graph.dependencies.keys graph.roots
        (fun _ => next_eq_nil) = .error path ∧ e = .cycle (path.map (·.asStr)) := by
  unfold buildOrderWith
  cases Search.depthFirst graph.next fallback graph.dependencies.keys graph.roots
      (fun _ => next_eq_nil) with
  | ok found =>
      refine ⟨fun h => (by cases h), ?_⟩
      rintro ⟨_, h, _⟩
      cases h
  | error path =>
      constructor
      · intro h
        cases h
        exact ⟨path, rfl, rfl⟩
      · rintro ⟨_, h, rfl⟩
        cases h
        rfl

/-- The order of the lists does not show in the graph. -/
theorem ofLockfile_reordered {other : Lockfile} (hvalid : lockfile.validate = .ok ())
    (h : lockfile.Reordered other) : ofLockfile lockfile = ofLockfile other := by
  obtain ⟨packages, hperm, hsame⟩ := h.packages
  have hroots : sortByKey id lockfile.root.dependencies = sortByKey id other.root.dependencies := by
    refine (sortByKey_eq_iff_perm ?_).mpr h.roots
    rw [List.map_id]
    exact (Lockfile.validate_eq_ok_iff.mp hvalid).2.2.2
  have hentries : packages.map (fun package =>
        (package.name, sortByKey id package.dependencies)) =
      other.packages.map fun package => (package.name, sortByKey id package.dependencies) := by
    refine map_eq_of_forall₂ hsame fun left right hleft hreordered => ?_
    have hnodup := ((Lockfile.validate_eq_ok_iff.mp hvalid).2.1 left (hperm.mem_iff.mpr hleft)).2
    rw [hreordered.name, (sortByKey_eq_iff_perm (by rwa [List.map_id])).mpr hreordered.dependencies]
  unfold ofLockfile
  rw [hroots, ← hentries, SortedMap.ofEntries_perm (nodup_entries hvalid) (hperm.map _)]

end DependencyGraph

/-! ## What is locked, in any order -/

theorem dependsOn_reordered {left right : Lockfile} (h : left.Reordered right) :
    DependsOn left = DependsOn right := by
  funext package dependency
  refine propext ⟨?_, ?_⟩
  · rintro ⟨locked, hlocked, hname, hmem⟩
    obtain ⟨other, hother, hsame⟩ := h.exists_right hlocked
    exact ⟨other, hother, hsame.name ▸ hname, hsame.dependencies.mem_iff.mp hmem⟩
  · rintro ⟨locked, hlocked, hname, hmem⟩
    obtain ⟨other, hother, hsame⟩ := h.exists_left hlocked
    exact ⟨other, hother, hsame.name.trans hname, hsame.dependencies.mem_iff.mpr hmem⟩

theorem allLocked_reordered {left right : Lockfile} (h : left.Reordered right) :
    AllLocked left ↔ AllLocked right := by
  unfold AllLocked
  rw [dependsOn_reordered h]
  simp only [h.roots.mem_iff, h.names.mem_iff]

namespace DependencyGraph

theorem mem_buildOrder_iff {lockfile : Lockfile} (hvalid : lockfile.validate = .ok ())
    {fallback : Nat} {order : List PackageName}
    (h : (ofLockfile lockfile).buildOrderWith fallback = .ok order) {package : PackageName} :
    package ∈ order ↔ Needed lockfile package := by
  obtain ⟨_, hmem, _⟩ := Search.depthFirst_ok (buildOrderWith_eq_ok.mp h)
  rw [hmem, reached_ofLockfile hvalid]

/-- Every package comes after all of its dependencies. -/
def DependenciesFirst (lockfile : Lockfile) (order : List PackageName) : Prop :=
  ∀ front package back, order = front ++ package :: back →
    ∀ dependency, DependsOn lockfile package dependency → dependency ∈ front

/-- The build order of an accepted lockfile holds what the root needs, each package once
and after its dependencies.  Another order of the lists makes no difference. -/
theorem buildOrder_exact {lockfile : Lockfile} {graph : DependencyGraph}
    (h : fromLockfile lockfile = .ok graph) :
    (∃ order, graph.buildOrder = .ok order ∧ order.Nodup ∧
      (∀ package, package ∈ order ↔ Needed lockfile package) ∧
      DependenciesFirst lockfile order) ∧
    ∀ other, lockfile.Reordered other → fromLockfile other = .ok graph := by
  obtain ⟨hvalid, hlocked, rfl, order, horder⟩ := fromLockfileWith_eq_ok_iff.mp h
  constructor
  · obtain ⟨hnodup, _, hsorted⟩ := Search.depthFirst_ok (buildOrderWith_eq_ok.mp horder)
    refine ⟨order, horder, hnodup, fun package => mem_buildOrder_iff hvalid horder, ?_⟩
    intro front package back heq dependency hdepends
    refine hsorted front package back heq dependency ?_
    show Search.Edge (ofLockfile lockfile).next package dependency
    rw [edge_ofLockfile hvalid]
    exact hdepends
  · intro other hreordered
    refine fromLockfileWith_eq_ok_iff.mpr ⟨hreordered.validate_iff.mp hvalid,
      (allLocked_reordered hreordered).mp hlocked, ofLockfile_reordered hvalid hreordered,
      order, horder⟩

/-- A lockfile with the given dependencies, every package from one directory. -/
def lockWith (edges : List (PackageName × List PackageName)) (roots : List PackageName) :
    Lockfile where
  schema := lockSchemaV1
  root := ⟨⟨ascii "root", by decide⟩, ⟨ascii "1", by decide⟩, roots⟩
  packages := edges.map fun (name, dependencies) =>
    ⟨name, ⟨ascii "1", by decide⟩, dependencies, .path ⟨ascii "fixture", by decide⟩⟩

def appdep : PackageName := ⟨ascii "appdep", by decide⟩

def fmt : PackageName := ⟨ascii "fmt", by decide⟩

def zlib : PackageName := ⟨ascii "zlib", by decide⟩

/-- A package over two others. -/
def layeredLock : Lockfile := lockWith [(appdep, [zlib, fmt]), (fmt, []), (zlib, [])] [appdep]

theorem buildOrder_exact_layeredLock :
    (∃ order, (ofLockfile layeredLock).buildOrder = .ok order ∧ order.Nodup ∧
      (∀ package, package ∈ order ↔ Needed layeredLock package) ∧
      DependenciesFirst layeredLock order) ∧
    ∀ other, layeredLock.Reordered other → fromLockfile other = .ok (ofLockfile layeredLock) :=
  buildOrder_exact (show fromLockfile layeredLock = .ok (ofLockfile layeredLock) by decide +kernel)

/-- What a report of a cycle says: a closed walk over dependencies that comes through no
other package twice. -/
structure IsCycleReport (lockfile : Lockfile) (names : List Bytes) : Prop where
  two_le : 2 ≤ names.length
  closed : names.head? = names.getLast?
  once : names.dropLast.Nodup
  edges : names.IsChain fun package dependency =>
    ∃ locked ∈ lockfile.packages, locked.name.asStr = package ∧
      ∃ name ∈ locked.dependencies, name.asStr = dependency

theorem isCycleReport {lockfile : Lockfile} {path : List PackageName}
    (h : Search.IsCycle (ofLockfile lockfile).next path) (hvalid : lockfile.validate = .ok ()) :
    IsCycleReport lockfile (path.map (·.asStr)) := by
  obtain ⟨package, middle, rfl, hnodup, hchain⟩ := h
  rw [edge_ofLockfile hvalid] at hchain
  refine ⟨?_, ?_, ?_, ?_⟩
  · rw [List.length_map, List.length_append, List.length_cons, List.length_singleton]
    omega
  · rw [List.map_append, List.map_singleton, List.getLast?_concat, List.map_cons,
      List.cons_append, List.head?_cons]
  · rw [List.map_append, List.map_singleton, List.dropLast_concat]
    exact hnodup.map fun _ _ => Validated.ext
  · refine List.isChain_map_of_isChain _ ?_ hchain
    rintro left right ⟨locked, hlocked, rfl, hmem⟩
    exact ⟨locked, hlocked, rfl, right, hmem, rfl⟩

/-- A cycle is reported exactly when the root can reach one, and a report shows one.
Whatever `visit` would put for a position that is not found is never used. -/
theorem cycle_reported_iff {lockfile : Lockfile} (hvalid : lockfile.validate = .ok ())
    (hlocked : AllLocked lockfile) :
    ((∃ names, fromLockfile lockfile = .error (.cycle names)) ↔
      ∃ package, Needed lockfile package ∧
        Relation.TransGen (DependsOn lockfile) package package) ∧
    (∀ names, fromLockfile lockfile = .error (.cycle names) → IsCycleReport lockfile names) ∧
    ∀ fallback, fromLockfileWith fallback lockfile = fromLockfile lockfile := by
  have herror : ∀ e, fromLockfile lockfile = .error e ↔
      (ofLockfile lockfile).buildOrderWith 0 = .error e := by
    intro e
    unfold fromLockfile
    rw [fromLockfileWith_eq hvalid hlocked]
    cases (ofLockfile lockfile).buildOrderWith 0 with
    | ok order => exact ⟨fun h => (by cases h), fun h => (by cases h)⟩
    | error found => exact ⟨fun h => (by cases h; rfl), fun h => (by cases h; rfl)⟩
  refine ⟨?_, ?_, ?_⟩
  · have hcycle : (∃ package, Needed lockfile package ∧
          Relation.TransGen (DependsOn lockfile) package package) ↔
        ∃ path, Search.depthFirst (ofLockfile lockfile).next 0
          (ofLockfile lockfile).dependencies.keys (ofLockfile lockfile).roots
          (fun _ => next_eq_nil) = .error path := by
      rw [Search.depthFirst_error_iff, edge_ofLockfile hvalid]
      exact exists_congr fun package => and_congr_left fun _ => (reached_ofLockfile hvalid _).symm
    rw [hcycle]
    constructor
    · rintro ⟨names, h⟩
      obtain ⟨path, hpath, _⟩ := buildOrderWith_eq_error.mp ((herror _).mp h)
      exact ⟨path, hpath⟩
    · rintro ⟨path, hpath⟩
      exact ⟨_, (herror _).mpr (buildOrderWith_eq_error.mpr ⟨path, hpath, rfl⟩)⟩
  · intro names h
    obtain ⟨path, hpath, heq⟩ := buildOrderWith_eq_error.mp ((herror _).mp h)
    cases heq
    exact isCycleReport (Search.depthFirst_error hpath).1 hvalid
  · intro fallback
    unfold fromLockfile
    rw [fromLockfileWith_eq hvalid hlocked, fromLockfileWith_eq hvalid hlocked]
    unfold buildOrderWith
    rw [Search.depthFirst_fallback]

/-- Two packages that depend on each other. -/
def cyclicLock : Lockfile := lockWith [(fmt, [zlib]), (zlib, [fmt])] [fmt]

theorem allLocked_cyclicLock : AllLocked cyclicLock := by
  refine ⟨by decide, ?_⟩
  have hall : ∀ locked ∈ cyclicLock.packages, ∀ name ∈ locked.dependencies,
      name ∈ cyclicLock.packages.map (·.name) := by decide
  rintro package name ⟨locked, hlocked, _, hname⟩
  exact hall locked hlocked name hname

theorem cycle_reported_cyclicLock :
    ((∃ names, fromLockfile cyclicLock = .error (.cycle names)) ↔
      ∃ package, Needed cyclicLock package ∧
        Relation.TransGen (DependsOn cyclicLock) package package) ∧
    (∀ names, fromLockfile cyclicLock = .error (.cycle names) → IsCycleReport cyclicLock names) ∧
    ∀ fallback, fromLockfileWith fallback cyclicLock = fromLockfile cyclicLock :=
  cycle_reported_iff (by decide +kernel) allLocked_cyclicLock

example : fromLockfile cyclicLock =
    .error (.cycle [ascii "fmt", ascii "zlib", ascii "fmt"]) := by decide +kernel

end DependencyGraph

end Prep.Core
