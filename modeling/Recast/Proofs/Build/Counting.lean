import Recast.Proofs.Build.Course
import Recast.Proofs.Build.Remembering

/-! # What compilations add up to

The events of a step tell which files it compiled, one after the other (`compiledPaths`). Where it
succeeds, its result has the outputs of these compilations in the same order (`emitted`,
`gathers_fileChanged`). Where callbacks leave the cache alone, the version of a key grows by no more
than the number of compilations of its file (`Evolves.version_le`).
-/

namespace Recast.Build

open Recast.Emit

/-- The outputs that a compilation gives; one that failed has none. -/
def Compilation.files (compilation : Compilation) : List OutputFile :=
  match compilation.result with
  | .ok emission _ => emission.files
  | .error _ _ => []

/-- The files that are compiled in some events. -/
def compiledPaths (events : List Event) : List Path :=
  (events.filterMap Event.compilation?).map (·.path)

/-- The outputs of the compilations among some events. -/
def emitted (events : List Event) : List OutputFile :=
  (events.filterMap Event.compilation?).flatMap (·.files)

/-- No two of the paths are the same. -/
abbrev Apart (paths : List Path) : Prop := paths.Pairwise fun a b => b.same a = false

section Lists

variable {past events : List Event}

@[simp] theorem compiledPaths_compiled (compilation : Compilation) (events : List Event) :
    compiledPaths (.compiled compilation :: events) = compilation.path :: compiledPaths events :=
  rfl

@[simp] theorem compiledPaths_append :
    compiledPaths (past ++ events) = compiledPaths past ++ compiledPaths events := by
  simp [compiledPaths]

@[simp] theorem emitted_nil : emitted [] = [] := rfl

@[simp] theorem emitted_compiled (compilation : Compilation) (events : List Event) :
    emitted (.compiled compilation :: events) = compilation.files ++ emitted events := rfl

@[simp] theorem emitted_append : emitted (past ++ events) = emitted past ++ emitted events := by
  simp [emitted]

theorem emitted_flatMap {α : Type} (xs : List α) (f : α → List Event) :
    emitted (xs.flatMap f) = xs.flatMap fun x => emitted (f x) := by
  induction xs with
  | nil => rfl
  | cons x xs ih => rw [List.flatMap_cons, List.flatMap_cons, emitted_append, ih]

/-- A key is not compiled more often than its file. -/
theorem countP_compiles_le (key : CacheKey) (events : List Event) :
    events.countP (·.compiles key) ≤ (compiledPaths events).countP (key.path.same ·) := by
  induction events with
  | nil => exact Nat.le_refl _
  | cons event events ih =>
    cases event with
    | compiled compilation =>
      rw [compiledPaths_compiled, List.countP_cons, List.countP_cons]
      refine Nat.add_le_add ih ?_
      cases alike : key.path.same compilation.path with
      | true => split <;> simp
      | false => simp [Event.compiles, CacheKey.same, Compilation.key, alike]
    | evicted other => exact ih
    | cleared => exact ih

/-- Among files of which no two are the same, each is counted once. -/
theorem Apart.countP_same_le_one {paths : List Path} (apart : Apart paths) (path : Path) :
    paths.countP (path.same ·) ≤ 1 := by
  induction apart with
  | nil => exact Nat.zero_le _
  | @cons first paths others _ ih =>
    cases here : path.same first with
    | false => rwa [List.countP_cons_of_neg (by simp [here])]
    | true =>
      have none : paths.countP (path.same ·) = 0 := by
        rw [List.countP_eq_zero]
        intro other member alike
        have same := Path.same_trans (Path.same_symm alike) here
        rw [others other member] at same
        cases same
      rw [List.countP_cons_of_pos here, none]

end Lists

section Outputs

/-- Where it succeeds, a step gives some outputs that there were, and behind them those of its
compilations. -/
def Gathers {ε σ α : Type} (files : α → List OutputFile) (before : List OutputFile)
    (events : σ → List Event) (x : EStateM ε σ α) : Prop :=
  ∀ s a t, x s = .ok a t → files a = before ++ emitted (events s)

namespace Gathers

variable {ε σ α β γ : Type} {files : α → List OutputFile} {more : β → List OutputFile}
  {before : List OutputFile} {events : σ → List Event}

theorem pure {a : α} (same : files a = before) :
    Gathers files before (fun _ => []) (Pure.pure a : EStateM ε σ α) := by
  intro s b t ran
  cases ran
  rw [same, emitted_nil, List.append_nil]

theorem bind {x : EStateM ε σ α} {f : α → EStateM ε σ β} {later : α → σ → List Event}
    (first : Gathers files before events x)
    (next : ∀ a, Gathers more (files a) (later a) (f a)) :
    Gathers more before (fun s => events s ++ eventsBehind (x s) later) (x >>= f) := by
  intro s b t ran
  obtain ⟨a, m, began, ended⟩ := exists_of_bind_eq_ok ran
  dsimp only
  rw [next a m b t ended, first s a m began, began, emitted_append, List.append_assoc]
  rfl

/-- A step without events in front, whatever it answers. -/
theorem behind {x : EStateM ε σ α} {f : α → EStateM ε σ β} {later : α → σ → List Event}
    (next : ∀ a, Gathers more before (later a) (f a)) :
    Gathers more before (fun s => eventsBehind (x s) later) (x >>= f) := by
  intro s b t ran
  obtain ⟨a, m, began, ended⟩ := exists_of_bind_eq_ok ran
  dsimp only
  rw [next a m b t ended, began]
  rfl

/-- A step without events behind. -/
theorem andThen {x : EStateM ε σ α} {f : α → EStateM ε σ β}
    (first : Gathers files before events x)
    (next : ∀ a, Gathers more (files a) (fun _ => []) (f a)) :
    Gathers more before events (x >>= f) := by
  intro s b t ran
  obtain ⟨a, m, began, ended⟩ := exists_of_bind_eq_ok ran
  rw [next a m b t ended, first s a m began, emitted_nil, List.append_nil]

/-- The events of a loop are those of its first round, and then those of the others. -/
theorem foldlM {xs : List γ} {f : α → γ → EStateM ε σ α} {round : γ → σ → List Event}
    {all : List γ → σ → List Event} (none : ∀ s, all [] s = [])
    (rounds : ∀ x xs a s,
      round x s ++ eventsBehind (f a x s) (fun _ => all xs) = all (x :: xs) s)
    (each : ∀ x a, Gathers files (files a) (round x) (f a x)) (a : α) :
    Gathers files (files a) (all xs) (xs.foldlM f a) := by
  induction xs generalizing a with
  | nil =>
    rw [funext none]
    exact .pure rfl
  | cons x xs ih =>
    have whole := (each x a).bind fun b => ih b
    rwa [List.foldlM_cons, ← funext (rounds x xs a)]

end Gathers

abbrev Context.Progress.files (progress : Context.Progress) : List OutputFile :=
  progress.result.files

namespace Context

variable (context : Context)

theorem gathers_compileFile (path : Path) (force : Bool) :
    Gathers Emission.files [] (fun session => [.compiled ⟨context, path, force, session⟩])
      (context.compileFile path force) := by
  intro session emission later ran
  have result : Compilation.result ⟨context, path, force, session⟩ = .ok emission later := ran
  simp [Compilation.files, result]

theorem gathers_compileRootsFrom {compileRoot : Path → Step Emission} {force : Bool}
    (each : ∀ path, Gathers Emission.files []
      (fun session => [.compiled ⟨context, path, force, session⟩]) (compileRoot path))
    (fuel index : Nat) (progress : Progress) :
    Gathers Progress.files progress.files (context.rootEvents compileRoot force fuel index)
      (context.compileRootsFrom compileRoot fuel index progress) := by
  intro session last later ran
  induction fuel, index, progress, session, ran using compileRootsFrom_induction with
  | ended short => rw [rootEvents_of_end short, emitted_nil, List.append_nil]
  | @compiled _ _ progress session path emission middle found compiled _ others =>
    have here : emission.files = Compilation.files ⟨context, path, force, session⟩ := by
      simpa using each path session emission middle compiled
    rw [others, rootEvents_of_compiled found compiled, emitted_compiled, ← here,
      ← List.append_assoc]
    rfl

/-- The end of a pass adds no output. -/
theorem gathers_finish (progress : Progress) :
    Gathers PassResult.files progress.files (fun _ => []) (context.finish progress) := by
  intro session result later ran
  obtain ⟨diagnostics, rfl, _⟩ := exists_of_finish_eq_ok ran
  exact (List.append_nil _).symm

end Context

namespace Compiler

variable (context : Context)

theorem gathers_adopt (path : Path) :
    Gathers Emission.files [] (fun session => [.compiled ⟨context, path, true, session⟩])
      (adopt context path) := by
  refine (context.gathers_compileFile path true).andThen fun emission session again later ran => ?_
  obtain ⟨_, _, _, ended⟩ := exists_of_bind_eq_ok ran
  cases ended
  exact (List.append_nil _).symm

theorem gathers_refresh (path : Path) (progress : Context.Progress) :
    Gathers Context.Progress.files progress.files
      (fun session => if session.workspace.system.fileExists path then
        [.compiled ⟨context, path, true, session⟩]
        else [.evicted ⟨path, context.target⟩])
      (refresh context progress path) := by
  intro session last later ran
  rw [run_refresh] at ran
  dsimp only
  cases stands : session.workspace.system.fileExists path with
  | true =>
    rw [stands] at ran
    obtain ⟨emission, middle, compiled, ended⟩ := exists_of_bind_eq_ok ran
    cases ended
    exact congrArg (progress.files ++ ·)
      (context.gathers_compileFile path true session emission later compiled)
  | false =>
    rw [stands] at ran
    obtain ⟨_, _, _, ended⟩ := exists_of_bind_eq_ok ran
    cases ended
    exact (List.append_nil _).symm

theorem gathers_refreshAll (limit : Nat) (files : List Path) :
    Gathers PassResult.files [] (refreshAllEvents context limit files)
      (refreshAll context limit files) := by
  intro session result later ran
  have refreshed : Gathers Context.Progress.files [] (refreshEvents context files)
      (files.foldlM (refresh context) {}) :=
    .foldlM (fun _ => rfl) (fun _ _ _ _ => congrArg (_ ++ ·) (eventsBehind_refresh ..))
      (gathers_refresh context) {}
  have whole := refreshed.bind fun progress (middle : Session) =>
    ((context.gathers_compileRootsFrom (gathers_adopt context)
      (middle.roots.length - session.roots.length + limit) session.roots.length progress).andThen
        context.gathers_finish) middle
  exact whole session result later ran

theorem gathers_targetChanged (path : Path) (target : String) (result : PassResult) :
    Gathers PassResult.files result.files (targetChangedEvents path target)
      (targetChanged path result target) := by
  intro compiler last next ran
  obtain ⟨context, known, ⟨idle, rfl, -⟩ | ⟨busy, pass, session, refreshed, rfl, -⟩⟩ :=
    exists_of_targetChanged_eq_ok ran
  · rw [targetChangedEvents_eq known, if_pos idle]
    exact (List.append_nil _).symm
  · rw [targetChangedEvents_eq known, busy, if_neg Bool.false_ne_true]
    exact congrArg (result.files ++ ·)
      (gathers_refreshAll context compiler.rootLimit _ _ pass session refreshed)

/-- The result of a change has the outputs of all that was compiled, in order. -/
theorem gathers_fileChanged (path : Path) :
    Gathers PassResult.files [] (fileChangedEvents path) (fileChanged path) := by
  intro compiler result next ran
  have told (found : PassResult) : Gathers PassResult.files found.files (fun _ => [])
      (status (foundErrors found) >>= fun _ => pure found) :=
    fun _ _ _ ran => by
      obtain ⟨_, _, _, ended⟩ := exists_of_bind_eq_ok ran
      cases ended
      exact (List.append_nil _).symm
  have changed (targets : List String) : Gathers PassResult.files []
      (targetsChangedEvents (compiler.workspace.system.resolve path) targets)
      (targets.foldlM (targetChanged (compiler.workspace.system.resolve path)) {} >>= fun found =>
        status (foundErrors found) >>= fun _ => pure found) :=
    (Gathers.foldlM (fun _ => rfl)
      (fun _ _ _ _ => congrArg (_ ++ ·) (eventsBehind_targetChanged ..))
      (gathers_targetChanged _) {}).andThen told
  have whole (message : String) : Gathers PassResult.files [] _
      (status message >>= fun _ => writingTargets >>= fun targets =>
        targets.foldlM (targetChanged (compiler.workspace.system.resolve path)) {} >>=
          fun found => status (foundErrors found) >>= fun _ => pure found) :=
    Gathers.behind fun _ => Gathers.behind changed
  exact whole _ compiler result next ran

end Compiler

end Outputs

section Versions

/-- What is done to a key besides removing it raises its version by one at most, and not at all
unless a text is recorded. -/
theorem Operation.version_run (operation : Operation) (kept : operation.removes = false)
    (cache : Cache) (key : CacheKey) :
    ((operation.run cache).get key.path key.target).version =
      (cache.get key.path key.target).version +
        if operation.concerns key && operation.answer cache then 1 else 0 := by
  change (((operation.run cache).find? key).getD {}).version =
    ((cache.find? key).getD {}).version + _
  rw [operation.find?_run]
  cases about : operation.concerns key with
  | true => simpa using Operation.version_entryAfter about kept
  | false => simp

/-- The version that a session knows of a key. -/
abbrev Session.version (key : CacheKey) (session : Session) : Nat :=
  (session.cache.get key.path key.target).version

namespace Context

private theorem leaves_version {α : Type} {step : Step α} (leaves : Leaves Session.cache step)
    (key : CacheKey) : Leaves (Session.version key) step :=
  fun session => congrArg (fun cache : Cache => (cache.get key.path key.target).version)
    (leaves session)

private theorem leaves_version_modifyCache (operation : Operation)
    (kept : operation.removes = false) (silent : ∀ cache, operation.answer cache = false)
    (key : CacheKey) : Leaves (Session.version key) (Step.modifyCache operation.run) := by
  intro session
  have same := operation.version_run kept session.cache key
  rwa [silent, Bool.and_false, if_neg Bool.false_ne_true, Nat.add_zero] at same

private theorem leaves_version_settle (context : Context) (key : CacheKey) (path : Path)
    (emission : Emission) : Leaves (Session.version key) (context.settle path emission) := by
  unfold settle
  dsimp only
  split
  · exact (leaves_version_modifyCache (.markFailed ⟨path, context.target⟩) rfl
      (fun _ => rfl) key).bind fun _ => Leaves.pure _
  · refine (leaves_version_modifyCache (.setOutputs ⟨path, context.target⟩ emission.files) rfl
      (fun _ => rfl) key).bind fun _ => ?_
    split
    · exact (Leaves.forM fun file _ => leaves_version (Step.leaves_cache_write _ _) key).bind
        fun _ => Leaves.pure _
    · exact Leaves.pure _

/-- A compilation records a text once at most. -/
private theorem version_recompile_le {context : Context} (keeps : context.KeepsCache)
    (key : CacheKey) (path : Path) (session : Session) :
    (endState (context.recompile path session)).version key ≤ session.version key + 1 := by
  rw [run_recompile]
  split
  · exact Nat.le_succ _
  · next source _ =>
    -- Only the recording of the text counts.
    have prepared := leaves_version (leaves_cache_prepare keeps path source) key session
    rw [compileSource_eq, run_bind]
    cases ran : context.prepare path source session with
    | error failure middle =>
      rw [ran] at prepared
      exact prepared.trans_le (Nat.le_succ _)
    | ok text middle =>
      rw [ran] at prepared
      have recorded := Operation.version_run (.update ⟨path, context.target⟩ source text) rfl
        middle.cache key
      have rest := ((leaves_version (context.leaves_cache_emitFile path text) key).bind
        fun emission => leaves_version_settle context key path emission)
          (middle.mapCache (·.update path context.target source text))
      refine rest.trans_le (recorded.trans_le (Nat.add_le_add prepared.le ?_))
      split
      · exact Nat.le_refl _
      · exact Nat.zero_le _

/-- So a file may be compiled with or without the cache. -/
theorem version_compileFile_le {context : Context} (keeps : context.KeepsCache) (key : CacheKey)
    (path : Path) (force : Bool) (session : Session) :
    (endState (context.compileFile path force session)).version key ≤
      session.version key + 1 := by
  cases force with
  | true =>
    rw [run_compileFile_force]
    have dropped := leaves_version_modifyCache (.markStale ⟨path, context.target⟩) rfl
      (fun _ => rfl) key session
    exact (version_recompile_le keeps key path _).trans_eq (congrArg (· + 1) dropped)
  | false =>
    rw [run_compileFile]
    split
    · exact version_recompile_le keeps key path session
    · exact Nat.le_succ _

end Context

/-- Along events the version of a key grows by no more than the number of its compilations. -/
theorem Evolves.version_le {first last : Cache} {events : List Event}
    (evolves : Evolves first events last) (key : CacheKey) :
    (last.get key.path key.target).version ≤
      (first.get key.path key.target).version + events.countP (·.compiles key) := by
  induction evolves with
  | nil => exact Nat.le_refl _
  | @cons first middle last event events step _ ih =>
    refine ih.trans ?_
    rw [List.countP_cons, Nat.add_comm (events.countP _), ← Nat.add_assoc]
    refine Nat.add_le_add_right ?_ _
    cases step with
    | compiled compilation keeps =>
      cases here : (Event.compiled compilation).compiles key with
      | true =>
        exact Context.version_compileFile_le keeps key compilation.path compilation.force
          compilation.session
      | false =>
        have same := Context.leaves_find?_compileFile here keeps compilation.force
          compilation.session
        exact (congrArg (fun held? : Option CacheEntry => (held?.getD {}).version) same).le
    | evicted _ gone =>
      change (((first.remove gone.path gone.target).find? key).getD {}).version ≤ _
      rw [Cache.find?_remove]
      split
      · exact Nat.zero_le _
      · exact Nat.le_add_right _ _
    | cleared => exact Nat.zero_le _

end Versions

end Recast.Build
