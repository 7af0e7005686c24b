import Recast.Proofs.Files.Places
import Recast.Proofs.Path.Order

/-! # The order of listings

A listing of a directory is in path order: a memory keeps its files in that order, whatever is
written and removed, and a disk sorts what it lists (`System.ordered_list`).
-/

namespace Recast

namespace Path

theorem isLE_compare_iff {p q : Path} : (p.compare q).isLE = true ↔ ¬ q.Before p := by
  rw [← compare_eq_gt_iff]
  cases p.compare q <;> simp

/-- What comes before a path comes before, or names the same as, all that does not come before it. -/
private theorem not_before_trans {p q r : Path} (first : ¬ q.Before p) (second : ¬ r.Before q) :
    ¬ r.Before p := by
  intro before
  cases ordered : p.compare q with
  | lt => exact second (before.trans ordered)
  | eq => exact second ((before_congr_right (compare_eq_iff.mp ordered) r).mp before)
  | gt => exact first (compare_eq_gt_iff.mp ordered)

/-- No path comes before one that stands in front of it. -/
abbrev Ordered (paths : List Path) : Prop :=
  paths.Pairwise fun p q => ¬ q.Before p

theorem Ascending.ordered {paths : List Path} (ascending : Ascending paths) : Ordered paths :=
  List.Pairwise.imp Before.asymm ascending

theorem ordered_mergeSort (paths : List Path) :
    Ordered (paths.mergeSort fun p q => (p.compare q).isLE) := by
  refine (List.pairwise_mergeSort (fun p q r first second => ?_) (fun p q => ?_) paths).imp
    isLE_compare_iff.mp
  · rw [isLE_compare_iff] at first second ⊢
    exact not_before_trans first second
  · rw [Bool.or_eq_true, isLE_compare_iff, isLE_compare_iff]
    by_cases before : q.Before p
    · exact .inr before.asymm
    · exact .inl before

end Path

namespace Files

namespace System

/-- A memory has its files in path order. -/
def Sorted (system : System) : Prop :=
  ∀ tree, system = .memory tree → Path.Ascending tree.files.keys

theorem sorted_new (current : Path) (supportsWatch : Bool) :
    (memory (MemoryTree.new current supportsWatch)).Sorted := by
  rintro tree ⟨⟩
  exact .nil

theorem Sorted.write_memory {tree : MemoryTree} (sorted : (memory tree).Sorted) (p : Path)
    (text : String) : (memory (tree.write p text)).Sorted := by
  rintro later ⟨⟩
  exact PathMap.ascending_insert (sorted tree rfl) _ _

/-- A listing is in path order. -/
theorem ordered_list {system : System} (sorted : system.Sorted) {directory : Path}
    {extensions : List String} {files : List Path}
    (listed : system.list directory extensions = .ok files) : Path.Ordered files := by
  cases system with
  | memory tree =>
    change tree.list directory extensions = .ok files at listed
    unfold MemoryTree.list at listed
    dsimp only at listed
    split at listed
    · cases listed
      exact ((sorted tree rfl).filter _).ordered
    · cases listed
  | disk tree =>
    change tree.list directory extensions = .ok files at listed
    unfold LocalTree.list at listed
    split at listed
    · cases listed
      exact Path.ordered_mergeSort _
    · cases listed

/-- What files may go through: they are seen from the same directory, and stay sorted. -/
structure Abides (before after : System) : Prop where
  current : after.current = before.current
  sorted : before.Sorted → after.Sorted

namespace Abides

variable {a b c : System}

theorem refl (system : System) : system.Abides system := ⟨rfl, id⟩

theorem trans (first : a.Abides b) (second : b.Abides c) : a.Abides c :=
  ⟨second.current.trans first.current, second.sorted ∘ first.sorted⟩

end Abides

theorem abides_write (system : System) (p : Path) (text : String) :
    system.Abides (system.write p text).1 := by
  refine ⟨(system.like_write p text).current, fun sorted tree same => ?_⟩
  cases system with
  | memory old => exact sorted.write_memory p text tree same
  | disk old => cases same

theorem abides_close (system : System) (watcher : Nat) : system.Abides (system.close watcher) := by
  cases system with
  | memory tree =>
    refine ⟨rfl, fun sorted later same => ?_⟩
    cases same
    exact sorted tree rfl
  | disk tree => exact .refl _

theorem abides_closeAll (system : System) (watchers : List Nat) :
    system.Abides (watchers.foldl close system) := by
  induction watchers generalizing system with
  | nil => exact .refl _
  | cons watcher watchers ih => exact (system.abides_close watcher).trans (ih _)

theorem abides_watch {system next : System} {path watched : Path} {number : Nat}
    (opened : system.watch path = .ok (number, watched, next)) : system.Abides next := by
  refine ⟨(watch_eq_ok opened).2.1.current, fun sorted later same => ?_⟩
  cases system with
  | memory tree =>
    unfold watch MemoryTree.watch at opened
    dsimp only at opened
    split at opened
    · cases opened
      cases same
      exact sorted tree rfl
    · cases opened
  | disk tree =>
    cases opened
    cases same

end System

end Files

end Recast
