import Recast.Proofs.Files.Places

/-! # Which watchers are open

All that matters of the watchers of a memory are the open ones, with their numbers: a watcher that
is opened comes behind the others, one that is closed is left out, and a change tells those that
watch the changed file.
-/

namespace Recast.Files

namespace MemoryTree

/-- The open ones among some watchers, the first of which has a number: their numbers, and what
they watch. -/
def openFrom (number : Nat) (watchers : List Watcher) : List (Nat × Path) :=
  ((watchers.zipIdx number).filter fun (watcher, _) => watcher.active).map
    fun (watcher, number) => (number, watcher.path)

/-- The open watchers, in the order in which they were opened. -/
def openWatchers (tree : MemoryTree) : List (Nat × Path) :=
  openFrom 0 tree.watchers

private theorem openFrom_cons (number : Nat) (watcher : Watcher) (watchers : List Watcher) :
    openFrom number (watcher :: watchers) =
      (if watcher.active then [(number, watcher.path)] else []) ++
        openFrom (number + 1) watchers := by
  unfold openFrom
  rw [List.zipIdx_cons]
  cases active : watcher.active with
  | true => rw [List.filter_cons_of_pos (by exact active)]; rfl
  | false => rw [List.filter_cons_of_neg (by simp [active])]; rfl

/-- Numbers count up. -/
private theorem le_of_mem_openFrom {number : Nat} {watchers : List Watcher} {entry : Nat × Path}
    (member : entry ∈ openFrom number watchers) : number ≤ entry.1 := by
  induction watchers generalizing number with
  | nil => cases member
  | cons watcher watchers ih =>
    rw [openFrom_cons, List.mem_append] at member
    rcases member with first | later
    · split at first
      · exact Nat.le_of_eq (congrArg Prod.fst (List.mem_singleton.mp first)).symm
      · cases first
    · exact Nat.le_of_succ_le (ih later)

private theorem openFrom_modify (number index : Nat) (watchers : List Watcher) :
    openFrom number (watchers.modify index fun watcher => { watcher with active := false }) =
      (openFrom number watchers).filter (·.1 != number + index) := by
  induction watchers generalizing number index with
  | nil => rw [List.modify_nil]; rfl
  | cons watcher watchers ih =>
    cases index with
    | zero =>
      have others : (openFrom (number + 1) watchers).filter (·.1 != number + 0) =
          openFrom (number + 1) watchers :=
        List.filter_eq_self.mpr fun entry member =>
          bne_iff_ne.mpr (Nat.ne_of_gt (le_of_mem_openFrom member))
      rw [List.modify_zero_cons, openFrom_cons, openFrom_cons, List.filter_append, others]
      cases watcher.active <;> simp
    | succ index =>
      rw [List.modify_succ_cons, openFrom_cons, openFrom_cons, List.filter_append, ih,
        Nat.add_assoc, Nat.add_comm 1 index]
      cases watcher.active <;> simp

/-- A watcher that is opened comes behind the others. -/
theorem openWatchers_watch {tree next : MemoryTree} {path watched : Path} {number : Nat}
    (opened : tree.watch path = .ok (number, watched, next)) :
    next.openWatchers = tree.openWatchers ++ [(number, watched)] := by
  unfold watch at opened
  split at opened
  · cases opened
    unfold openWatchers openFrom
    rw [List.zipIdx_append, List.filter_append, List.map_append]
    simp
  · cases opened

theorem openWatchers_close (tree : MemoryTree) (number : Nat) :
    (tree.close number).openWatchers = tree.openWatchers.filter (·.1 != number) := by
  have modified := openFrom_modify 0 number tree.watchers
  rw [Nat.zero_add] at modified
  exact modified

/-- The watchers that are not closed stay open. -/
theorem openWatchers_closeAll (tree : MemoryTree) (numbers : List Nat) :
    (numbers.foldl close tree).openWatchers =
      tree.openWatchers.filter fun entry => !numbers.contains entry.1 := by
  induction numbers generalizing tree with
  | nil => exact (List.filter_eq_self.mpr fun _ _ => rfl).symm
  | cons number numbers ih =>
    rw [List.foldl_cons, ih, openWatchers_close, List.filter_filter]
    refine List.filter_congr fun entry _ => ?_
    rw [List.contains_cons, Bool.not_or, Bool.and_comm]
    rfl

/-- A change tells the open watchers of the changed file. -/
theorem notified_eq (tree : MemoryTree) (path : Path) :
    tree.notified path =
      (tree.openWatchers.filter (·.2.same (tree.resolve path))).map (·.1) := by
  unfold notified openWatchers openFrom
  rw [List.filter_map, List.map_map, List.filter_filter]
  refine congrArg _ (List.filter_congr fun entry _ => ?_)
  exact Bool.and_comm _ _

theorem activeCount_eq (tree : MemoryTree) : tree.activeCount = tree.openWatchers.length := by
  have counted (number : Nat) (watchers : List Watcher) :
      watchers.countP (·.active) = (openFrom number watchers).length := by
    induction watchers generalizing number with
    | nil => rfl
    | cons watcher watchers ih =>
      rw [openFrom_cons, List.length_append, ← ih, List.countP_cons, Nat.add_comm]
      cases watcher.active <;> rfl
  exact counted 0 tree.watchers

end MemoryTree

namespace System

/-- Systems with the same watchers, seen from the same directory. -/
structure SameWatchers (a b : System) : Prop where
  current : b.current = a.current
  supportsWatch : b.supportsWatch = a.supportsWatch
  watchers : ∀ tree, b = .memory tree → ∃ old : MemoryTree, a = .memory old ∧
    tree.watchers = old.watchers

theorem SameWatchers.refl (system : System) : system.SameWatchers system :=
  ⟨rfl, rfl, fun tree same => ⟨tree, same, rfl⟩⟩

theorem sameWatchers_write (system : System) (path : Path) (text : String) :
    system.SameWatchers (system.write path text).1 := by
  have like := system.like_write path text
  refine ⟨like.current, like.supportsWatch, fun tree same => ?_⟩
  cases system with
  | memory old =>
    cases same
    exact ⟨old, rfl, rfl⟩
  | disk old => cases same

theorem openWatchers_watch {tree next : MemoryTree} {path watched : Path} {number : Nat}
    (opened : (memory tree).watch path = .ok (number, watched, memory next)) :
    next.openWatchers = tree.openWatchers ++ [(number, watched)] := by
  unfold watch at opened
  dsimp only at opened
  cases granted : tree.watch path with
  | error error =>
    rw [granted] at opened
    cases opened
  | ok answer =>
    rw [granted] at opened
    cases opened
    exact MemoryTree.openWatchers_watch granted

private theorem foldl_close_memory (tree : MemoryTree) (numbers : List Nat) :
    numbers.foldl close (memory tree) = memory (numbers.foldl MemoryTree.close tree) := by
  induction numbers generalizing tree with
  | nil => rfl
  | cons number numbers ih => exact ih (tree.close number)

private theorem foldl_close_disk (tree : LocalTree) (numbers : List Nat) :
    numbers.foldl close (disk tree) = disk tree := by
  induction numbers with
  | nil => rfl
  | cons number numbers ih => exact ih

/-- Closing watchers leaves all others open. -/
theorem openWatchers_closeAll {system : System} {tree : MemoryTree} {numbers : List Nat}
    (closed : numbers.foldl close system = memory tree) : ∃ old : MemoryTree,
      system = memory old ∧
        tree.openWatchers = old.openWatchers.filter fun entry => !numbers.contains entry.1 := by
  cases system with
  | memory old =>
    rw [foldl_close_memory] at closed
    cases closed
    exact ⟨old, rfl, old.openWatchers_closeAll numbers⟩
  | disk old =>
    rw [foldl_close_disk] at closed
    cases closed

end System

end Recast.Files
