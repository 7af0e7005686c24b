import Recast.Proofs.Config.Naming
import Recast.Proofs.Files.Listings

/-! # The root files of a project

The root files that a project has at first: those that it lists, in the given order, and behind them
the scripts below each directory that it includes, in path order. Of paths that name the same the
first is kept.
-/

namespace Recast.Project

variable {project : Project} {system : Files.System} {root : Path}

/-- The root files that a project has at first. -/
def Begins (project : Project) (system : Files.System) (root : Path) (roots : List Path) : Prop :=
  ∃ listings, Found system root project.includes listings ∧
    (∀ listing ∈ listings, Path.Ordered listing) ∧
    roots = distinct Path.same
      ((project.files.map (root.join ·) ++ listings.flatten).map system.resolve)

/-- What is found in a directory is in path order. -/
theorem ordered_of_found (sorted : system.Sorted) {directories : List Path}
    {listings : List (List Path)} (found : Found system root directories listings) :
    ∀ listing ∈ listings, Path.Ordered listing := by
  induction found with
  | nil => exact fun _ member => absurd member List.not_mem_nil
  | cons listed _ ih =>
    intro listing member
    rcases List.mem_cons.mp member with rfl | later
    · exact Files.System.ordered_list sorted listed
    · exact ih listing later

/-- Root files that are computed are those that a project has at first. -/
theorem begins_of_rootFiles (sorted : system.Sorted) {roots : List Path}
    (computed : project.rootFiles system root = .ok roots) : project.Begins system root roots :=
  let ⟨listings, found, same⟩ := exists_of_rootFiles computed
  ⟨listings, found, ordered_of_found sorted found, same⟩

end Recast.Project
