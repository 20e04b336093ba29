/-
  Core/LockCover.lean --- a lockfile that is accepted for a manifest, and the graph
  built from it.

  Both files are values here; how they are written and read is said in
  `Manifest/Canonical.lean`.
-/
import Prep.Core.Graph
import Prep.Manifest.Match

set_option autoImplicit false

namespace Prep.Core

open Prep.Manifest

/-- A lockfile is accepted for a manifest exactly when it covers it: both are valid, the
root is the manifest's package, the root depends on what the manifest declares, and
every declaration has a locked package of its name, version and source.  The order of
the lists does not matter, and a build order holds all that is declared. -/
theorem validateAgainst_exact (lockfile : Lockfile) (manifest : Manifest) :
    (lockfile.validateAgainst manifest = .ok () ↔
      lockfile.validate = .ok () ∧ manifest.validate = .ok () ∧
      lockfile.root.name = manifest.package.name ∧
      lockfile.root.version = manifest.package.version ∧
      (∀ name, name ∈ lockfile.root.dependencies ↔ name ∈ manifest.dependencies.map (·.name)) ∧
      ∀ declaration ∈ manifest.dependencies, Covers lockfile declaration) ∧
    (∀ lockfile' manifest', lockfile.Reordered lockfile' → manifest.Reordered manifest' →
      (lockfile.validateAgainst manifest = .ok () ↔
        lockfile'.validateAgainst manifest' = .ok ())) ∧
    ∀ graph, lockfile.validateAgainst manifest = .ok () →
      DependencyGraph.fromLockfile lockfile = .ok graph →
        ∃ order, graph.buildOrder = .ok order ∧
          ∀ declaration ∈ manifest.dependencies, declaration.name ∈ order := by
  refine ⟨validateAgainst_eq_ok_iff, fun lockfile' manifest' => validateAgainst_reordered, ?_⟩
  intro graph haccepted hgraph
  obtain ⟨hvalid, _, _, _, hroots, _⟩ := validateAgainst_eq_ok_iff.mp haccepted
  obtain ⟨_, _, rfl, order, horder⟩ := DependencyGraph.fromLockfileWith_eq_ok_iff.mp hgraph
  refine ⟨order, horder, fun declaration hdeclaration => ?_⟩
  refine (DependencyGraph.mem_buildOrder_iff hvalid horder).mpr ⟨declaration.name, ?_, .refl⟩
  exact (hroots declaration.name).mpr (List.mem_map_of_mem hdeclaration)

end Prep.Core
