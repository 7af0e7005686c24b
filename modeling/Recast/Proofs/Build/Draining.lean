import Recast.Proofs.Build.Evolution
import Recast.Proofs.Path.Order

/-! # Which changes a drain hands over

A drain takes all changes that are queued, and the first failure ends it. So a change is handed over
exactly if those before it in path order are handled without failure
(`handed_over_iff_and_else_forgotten`). The others were taken from the queue too: the compiler ends
as if nothing had ever told of them, and no later drain can make up for it.

Watching until the end takes the same changes and reports failures instead: it hands over all of
them (`run_runWatch_of_configured`).
-/

namespace Recast.Build

open Recast.Emit

/-- What waits is the set of what was added. -/
private theorem pending_foldl_add (paths : List Path) (settling : Settling) :
    (paths.foldl Settling.add settling).pending =
      paths.foldl PathSet.insertPath settling.pending := by
  induction paths generalizing settling with
  | nil => rfl
  | cons path paths ih => exact ih _

namespace Compiler

/-- The compiler with other changes in its queue. -/
def withQueue (compiler : Compiler) (queue : List Path) : Compiler :=
  { compiler with workspace := { compiler.workspace with queue := queue } }

/-- The changes that are queued, each path once and in path order. -/
def changes (compiler : Compiler) : List Path :=
  (Path.collected compiler.workspace.queue).keys

theorem run_takeQueue (compiler : Compiler) :
    takeQueue compiler = .ok compiler.changes (compiler.withQueue []) := by
  have pending := pending_foldl_add compiler.workspace.queue {}
  unfold takeQueue
  rw [run_bind_ok (run_get compiler)]
  refine congrArg (EStateM.Result.ok · _) ?_
  rw [Settling.take, pending]
  rfl

/-- A change that is handed over, and the compiler that handles it. -/
structure Handling where
  path : Path
  compiler : Compiler

/-- The changes among some that are handed over, one after the other up to the first failure. -/
def handed : List Path → Compiler → List Handling
  | [], _ => []
  | path :: paths, compiler =>
    ⟨path, compiler⟩ :: match fileChanged path compiler with
      | .ok _ next => handed paths next
      | .error _ _ => []

/-- Handles changes, one after the other up to the first failure. -/
def handlePaths (paths : List Path) (result : PassResult) : Compiling PassResult :=
  paths.foldlM (fun result path => return result.merge (← fileChanged path)) result

theorem handlePaths_cons (path : Path) (paths : List Path) (result : PassResult)
    (compiler : Compiler) :
    handlePaths (path :: paths) result compiler =
      match fileChanged path compiler with
      | .ok found next => handlePaths paths (result.merge found) next
      | .error failure next => .error failure next := by
  rw [handlePaths, List.foldlM_cons, bind_assoc, run_bind]
  cases fileChanged path compiler <;> rfl

/-- Changes that are not handed over have no part in what a drain does. -/
theorem handlePaths_handed (paths : List Path) (result : PassResult) (compiler : Compiler) :
    handlePaths ((handed paths compiler).map (·.path)) result compiler =
      handlePaths paths result compiler := by
  induction paths generalizing result compiler with
  | nil => rfl
  | cons path paths ih =>
    rw [handed, List.map_cons, handlePaths_cons, handlePaths_cons]
    cases fileChanged path compiler with
    | ok found next => exact ih (result.merge found) next
    | error failure next => rfl

/-- Behind changes that are all handled, the others are handed over from where those lead. -/
theorem handed_append_of_ok {before : List Path} {result : PassResult} {compiler : Compiler}
    {found : PassResult} {next : Compiler}
    (handled : handlePaths before result compiler = .ok found next) (behind : List Path) :
    (handed before compiler).map (·.path) = before ∧
      handed (before ++ behind) compiler = handed before compiler ++ handed behind next := by
  induction before generalizing result compiler with
  | nil =>
    cases handled
    exact ⟨rfl, rfl⟩
  | cons path before ih =>
    rw [handlePaths_cons] at handled
    rw [List.cons_append, handed, handed]
    cases ran : fileChanged path compiler with
    | ok one later =>
      rw [ran] at handled
      obtain ⟨all, rest⟩ := ih handled
      exact ⟨congrArg (path :: ·) all, congrArg (⟨path, compiler⟩ :: ·) rest⟩
    | error failure later =>
      rw [ran] at handled
      cases handled

/-- Behind a change that fails, the others are left out. -/
theorem handed_append_of_error {before : List Path} {result : PassResult} {compiler : Compiler}
    {failure : Failure} {next : Compiler}
    (failed : handlePaths before result compiler = .error failure next) (behind : List Path) :
    handed (before ++ behind) compiler = handed before compiler ∧
      handlePaths (before ++ behind) result compiler = .error failure next := by
  induction before generalizing result compiler with
  | nil => cases failed
  | cons path before ih =>
    rw [handlePaths_cons] at failed
    rw [List.cons_append, handed, handed, handlePaths_cons]
    cases ran : fileChanged path compiler with
    | ok one later =>
      rw [ran] at failed
      obtain ⟨same, ended⟩ := ih failed
      exact ⟨congrArg (⟨path, compiler⟩ :: ·) same, ended⟩
    | error failure' later =>
      rw [ran] at failed
      exact ⟨rfl, failed⟩

theorem path_of_mem_handed {paths : List Path} {compiler : Compiler} {handling : Handling}
    (member : handling ∈ handed paths compiler) : handling.path ∈ paths := by
  induction paths generalizing compiler with
  | nil => cases member
  | cons first paths ih =>
    rw [handed] at member
    rcases List.mem_cons.mp member with rfl | later
    · exact List.mem_cons_self ..
    · split at later
      · exact List.mem_cons_of_mem _ (ih later)
      · cases later

/-- The changes that a drain hands over. -/
def drained (compiler : Compiler) : List Handling :=
  handed compiler.changes (compiler.withQueue [])

theorem run_drainChanges (compiler : Compiler) :
    drainChanges compiler = handlePaths compiler.changes {} (compiler.withQueue []) := by
  unfold drainChanges
  exact run_bind_ok (run_takeQueue compiler)

/-- A drain does what handling the changes it hands over does. -/
theorem run_drainChanges_eq_handlePaths (compiler : Compiler) :
    drainChanges compiler =
      handlePaths (compiler.drained.map (·.path)) {} (compiler.withQueue []) := by
  rw [run_drainChanges, drained, handlePaths_handed]

theorem changes_withQueue_filter {keep : Path → Bool}
    (respects : ∀ a b, a.same b = true → keep a = keep b) (compiler : Compiler) :
    (compiler.withQueue (compiler.workspace.queue.filter keep)).changes =
      compiler.changes.filter keep :=
  Path.keys_collected_filter respects _

/-- A change is handed over exactly if those before it are handled, and it does not matter if it is
not. -/
private theorem handed_split {earlier : List Path} {key path : Path}
    (apart : ∀ other ∈ earlier, other.same path = false) (same : key.same path = true)
    (behind : List Path) (compiler : Compiler) :
    ((∃ handling ∈ handed (earlier ++ key :: behind) compiler,
        handling.path.same path = true) ↔
      ∃ result next, handlePaths earlier {} compiler = .ok result next) ∧
    ((∀ handling ∈ handed (earlier ++ key :: behind) compiler,
        handling.path.same path = false) →
      handlePaths (earlier ++ behind) {} compiler =
        handlePaths (earlier ++ key :: behind) {} compiler) := by
  cases handled : handlePaths earlier {} compiler with
  | ok result next =>
    have given : ⟨key, next⟩ ∈ handed (earlier ++ key :: behind) compiler := by
      rw [(handed_append_of_ok handled (key :: behind)).2, handed]
      exact List.mem_append_right _ (List.mem_cons_self ..)
    refine ⟨iff_of_true ⟨_, given, same⟩ ⟨result, next, rfl⟩, fun none => ?_⟩
    rw [none _ given] at same
    cases same
  | error failure next =>
    obtain ⟨known, ended⟩ := handed_append_of_error handled (key :: behind)
    refine ⟨iff_of_false ?_ (by simp), fun _ => ?_⟩
    · rintro ⟨handling, member, alike⟩
      rw [known] at member
      rw [apart _ (path_of_mem_handed member)] at alike
      cases alike
    · rw [ended, (handed_append_of_error handled behind).2]

/-- A queued change is handed over exactly if a drain of the changes before it in path order would
succeed. Otherwise the drain ends as if the change had never been queued. -/
theorem handed_over_iff_and_else_forgotten (compiler : Compiler) {path : Path}
    (queued : path ∈ compiler.workspace.queue) :
    ((∃ handling ∈ compiler.drained, handling.path.same path = true) ↔
      ∃ result next, drainChanges (compiler.withQueue
        (compiler.workspace.queue.filter fun other => other.Before path)) = .ok result next) ∧
    ((∀ handling ∈ compiler.drained, handling.path.same path = false) →
      drainChanges (compiler.withQueue
        (compiler.workspace.queue.filter fun other => !path.same other)) =
        drainChanges compiler) := by
  obtain ⟨key, member, same⟩ := Path.exists_key_of_mem queued
  obtain ⟨behind, changes, others⟩ :
      ∃ behind, compiler.changes = compiler.changes.filter (·.Before path) ++ key :: behind ∧
        compiler.changes.filter (fun other => !path.same other) =
          compiler.changes.filter (·.Before path) ++ behind :=
    (Path.ascending_collected _).split member same
  have before : (compiler.withQueue (compiler.workspace.queue.filter (·.Before path))).changes =
      compiler.changes.filter (·.Before path) :=
    changes_withQueue_filter
      (fun a b alike => decide_eq_decide.mpr (Path.before_congr_left alike path)) compiler
  have without : (compiler.withQueue (compiler.workspace.queue.filter
      fun other => !path.same other)).changes =
        compiler.changes.filter fun other => !path.same other :=
    changes_withQueue_filter
      (fun a b alike => congrArg (!·) (Path.same_congr_right alike path)) compiler
  have apart (other : Path) (earlier : other ∈ compiler.changes.filter (·.Before path)) :
      other.same path = false :=
    (of_decide_eq_true (List.mem_filter.mp earlier).2).not_same
  have split := handed_split apart same behind (compiler.withQueue [])
  rw [← others, ← changes] at split
  rw [run_drainChanges, run_drainChanges, run_drainChanges, before, without]
  exact split

/-- A drain that succeeds has handed over everything that was queued. -/
theorem drained_of_ok {compiler next : Compiler} {result : PassResult}
    (ran : drainChanges compiler = .ok result next) :
    compiler.drained.map (·.path) = compiler.changes := by
  rw [run_drainChanges] at ran
  exact (handed_append_of_ok ran []).1

/-- The compiler behind a change that was handled, or whose failure was reported. -/
def afterReporting (compiler : Compiler) (path : Path) : Compiler :=
  match fileChanged path compiler with
  | .ok _ next => next
  | .error failure next =>
    { next with workspace := next.workspace.report (.error failure.message) }

/-- Handling a change does not fail when failures are reported. -/
theorem run_fileChangedOrReport (path : Path) (compiler : Compiler) :
    fileChangedOrReport path compiler = .ok () (compiler.afterReporting path) := by
  unfold fileChangedOrReport afterReporting
  rw [run_tryCatch, run_discard]
  cases fileChanged path compiler <;> rfl

/-- Watching until the end hands over every change that is queued, whatever the others come to. -/
theorem run_runWatch_of_configured {compiler : Compiler} (configured : compiler.setup?.isSome) :
    let last := compiler.changes.foldl afterReporting (compiler.withQueue [])
    runWatch false compiler = .ok () { last with workspace := last.workspace.closeWatches } := by
  intro last
  have handled (paths : List Path) (compiler : Compiler) :
      paths.forM fileChangedOrReport compiler = .ok () (paths.foldl afterReporting compiler) := by
    induction paths generalizing compiler with
    | nil => rfl
    | cons path paths ih =>
      exact (run_bind_ok (run_fileChangedOrReport path compiler)).trans (ih _)
  obtain ⟨setup, known⟩ := Option.isSome_iff_exists.mp configured
  unfold runWatch
  rw [run_bind_ok (run_setup_of_eq known)]
  simp only [Bool.not_false, ↓reduceIte]
  rw [run_bind_ok (run_takeQueue compiler)]
  exact run_bind_ok (handled compiler.changes (compiler.withQueue []))

section Stumbling

def stumblePath : Path := ⟨true, ["a.ts"]⟩

def laterPath : Path := ⟨true, ["b.ts"]⟩

/-- An addon with a processor that fails on one text. -/
def stumblingAddon : Addon where
  name := "stumbling"
  activate := Activation.registerProcessor fun _ _ source =>
    if source = "bad" then throw (.addon "stumbling" "no") else return source

def stumblingSetup : Setup where
  projectRoot := ⟨true, []⟩
  project := { files := [stumblePath, laterPath] }
  transpileOnly := true
  registry :=
    { explicit := [], project? := none, resolve := fun _ _ _ => .error .notConfigured,
      entries := [("stumbling", .loaded stumblingAddon)] }

/-- Two watched files change, and the processor fails on the first one. -/
def stumblingCompiler : Compiler :=
  .runAll
    [.configure stumblingSetup, .watch, .edit (fun
      | .memory tree => .memory ((tree.write stumblePath "bad").write laterPath "let c = 3;")
      | system => system),
      .notify laterPath [1], .notify stumblePath [0]]
    (.ofSystem (.memory (((Files.MemoryTree.new ⟨true, []⟩ true).write stumblePath
      "let a = 1;").write laterPath "let b = 2;")))

theorem later_forgotten_behind_stumble :
    laterPath ∈ stumblingCompiler.workspace.queue ∧
      stumblingCompiler.drained.map (·.path) = [stumblePath] ∧
      drainChanges (stumblingCompiler.withQueue [stumblePath]) =
        drainChanges stumblingCompiler := by
  have queue : stumblingCompiler.workspace.queue = [laterPath, stumblePath] := by decide +kernel
  have drained : stumblingCompiler.drained.map (·.path) = [stumblePath] := by decide +kernel
  have queued : laterPath ∈ stumblingCompiler.workspace.queue := by simp [queue]
  have others (handling : Handling) (member : handling ∈ stumblingCompiler.drained) :
      handling.path.same laterPath = false := by
    have known := List.mem_map_of_mem (f := (·.path)) member
    rw [drained] at known
    rw [List.mem_singleton.mp known]
    decide
  refine ⟨queued, drained, ?_⟩
  have forgotten := (handed_over_iff_and_else_forgotten stumblingCompiler queued).2 others
  rw [queue] at forgotten
  exact forgotten

end Stumbling

end Compiler

end Recast.Build
