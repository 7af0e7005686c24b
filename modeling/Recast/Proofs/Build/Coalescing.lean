import Recast.Proofs.Build.Draining

/-! # Changes that coalesce

What a drain does depends on the set of paths that are queued, not on their order, their number or
their spellings: a path is resolved before anything is done with it, and the queue is read as an
ordered set. So two queues of the same paths lead to the same result and to the same compiler, by
the same steps (`run_drainChanges_congr`).

Each path is handed over at most once and in path order. Since the first failure ends a drain, all
of them are handed over exactly if those before the last one are handled without failure.
-/

namespace Recast.Build.Compiler

open Recast.Emit

/-- A change is handled alike under every spelling of its path. -/
theorem fileChanged_congr {path other : Path} (same : path.same other = true) :
    fileChanged path = fileChanged other := by
  funext compiler
  have resolved :
      compiler.workspace.system.resolve path = compiler.workspace.system.resolve other :=
    Path.resolveFrom_congr same _
  unfold fileChanged
  rw [run_bind_ok (run_get compiler), run_bind_ok (run_get compiler), resolved]

/-- The same change in the same state. -/
def Handling.Alike (one other : Handling) : Prop :=
  one.path.same other.path = true ∧ one.compiler = other.compiler

/-- Paths that differ in their spellings only are handled alike, one after the other. -/
private theorem handled_alike {paths others : List Path}
    (alike : List.Forall₂ (fun path other => path.same other = true) paths others)
    (result : PassResult) (compiler : Compiler) :
    handlePaths paths result compiler = handlePaths others result compiler ∧
      List.Forall₂ Handling.Alike (handed paths compiler) (handed others compiler) := by
  induction alike generalizing result compiler with
  | nil => exact ⟨rfl, .nil⟩
  | @cons path other paths others same alike ih =>
    rw [handlePaths_cons, handlePaths_cons, handed, handed, fileChanged_congr same]
    cases fileChanged other compiler with
    | ok found next =>
      obtain ⟨equal, behind⟩ := ih (result.merge found) next
      exact ⟨equal, .cons ⟨same, rfl⟩ behind⟩
    | error failure next => exact ⟨rfl, .cons ⟨same, rfl⟩ .nil⟩

/-- What is handed over is an initial part of what there is to hand over. -/
theorem map_path_handed_isPrefix (paths : List Path) (compiler : Compiler) :
    (handed paths compiler).map (·.path) <+: paths := by
  induction paths generalizing compiler with
  | nil => exact List.prefix_rfl
  | cons path paths ih =>
    rw [handed, List.map_cons, List.prefix_cons_inj]
    cases fileChanged path compiler with
    | ok found next => exact ih next
    | error failure next => exact List.nil_prefix

/-- All changes are handed over exactly if those before the last one do not fail. -/
theorem map_path_handed_eq_iff (paths : List Path) (compiler : Compiler) :
    (handed paths compiler).map (·.path) = paths ↔
      ∃ result next, handlePaths paths.dropLast {} compiler = .ok result next := by
  induction paths using List.reverseRecOn with
  | nil => exact iff_of_true rfl ⟨{}, compiler, rfl⟩
  | append_singleton before last =>
    rw [List.dropLast_concat]
    cases handled : handlePaths before {} compiler with
    | ok result next =>
      obtain ⟨all, behind⟩ := handed_append_of_ok handled [last]
      refine iff_of_true ?_ ⟨result, next, rfl⟩
      rw [behind, List.map_append, all, handed, List.map_cons]
      cases fileChanged last next <;> rfl
    | error failure next =>
      refine iff_of_false (fun all => ?_) (by simp)
      rw [(handed_append_of_error handled [last]).1] at all
      have short := (map_path_handed_isPrefix before compiler).length_le
      rw [all, List.length_append, List.length_singleton] at short
      omega

/-- Two queues of the same paths are drained with the same result, into the same state and by the
same steps. The paths are handed over in path order and at most once, and each of them is exactly if
those before the last one do not fail. -/
theorem run_drainChanges_congr (compiler : Compiler) {queue other : List Path}
    (alike : Path.SameSet queue other) :
    drainChanges (compiler.withQueue queue) = drainChanges (compiler.withQueue other) ∧
      List.Forall₂ Handling.Alike (compiler.withQueue queue).drained
        (compiler.withQueue other).drained ∧
      ∃ changes : List Path, Path.Ascending changes ∧ Path.SameSet queue changes ∧
        (compiler.withQueue queue).drained.map (·.path) <+: changes ∧
        ((compiler.withQueue queue).drained.map (·.path) = changes ↔
          ∃ result next,
            handlePaths changes.dropLast {} (compiler.withQueue []) = .ok result next) := by
  have same : List.Forall₂ (fun path other => path.same other = true)
      (compiler.withQueue queue).changes (compiler.withQueue other).changes :=
    (Path.ascending_collected queue).forall₂_same (Path.ascending_collected other)
      (((Path.sameSet_collected queue).symm.trans alike).trans (Path.sameSet_collected other))
  obtain ⟨equal, steps⟩ := handled_alike same {} (compiler.withQueue [])
  refine ⟨?_, steps, (compiler.withQueue queue).changes, Path.ascending_collected queue,
    Path.sameSet_collected queue, map_path_handed_isPrefix _ _, map_path_handed_eq_iff _ _⟩
  rw [run_drainChanges, run_drainChanges]
  exact equal

/-- A queue with another order, a repeated change and other spellings, behind a change that fails:
both drains end there. -/
theorem run_drainChanges_respelled :
    let queue : List Path := [laterPath, stumblePath]
    let other : List Path := [⟨true, [".", "a.ts"]⟩, laterPath, stumblePath, laterPath]
    Path.SameSet queue other ∧
      drainChanges (stumblingCompiler.withQueue queue) =
        drainChanges (stumblingCompiler.withQueue other) ∧
      (stumblingCompiler.withQueue other).drained.map (·.path) = [⟨true, [".", "a.ts"]⟩] := by
  intro queue other
  have alike : Path.SameSet queue other := by decide +kernel
  exact ⟨alike, (run_drainChanges_congr stumblingCompiler alike).1, by decide +kernel⟩

end Recast.Build.Compiler
