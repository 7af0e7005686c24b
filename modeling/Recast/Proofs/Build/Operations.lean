import Recast.Proofs.Build.History

/-! # What operations may change

Setting options and making contexts apart, the operations of a compiler change its workspace and the
root files of its contexts only. So what holds whatever happens to these (`Sturdy`) is kept by every
operation, whether it fails or not.
-/

namespace Recast.Build

open Recast.Emit

/-- Whether an action makes the contexts that are missing. -/
def Action.ensures : Action → Bool
  | ensureContexts | compile | watch => true
  | _ => false

/-- There is always a target to build. -/
theorem Setup.activeTargets_ne_nil (setup : Setup) : setup.activeTargets ≠ [] := by
  unfold Setup.activeTargets Target.normalize
  dsimp only
  split
  · exact List.cons_ne_nil _ _
  · next some => exact fun none => some (List.isEmpty_iff.mpr none)

theorem Workspace.foldl_report (workspace : Workspace) (reports : List Diagnostic) :
    reports.foldl Workspace.report workspace =
      { workspace with reports := (reports.foldl Workspace.report workspace).reports } := by
  induction reports generalizing workspace with
  | nil => rfl
  | cons report reports ih =>
    rw [List.foldl_cons, ih]
    rfl

namespace Compiler

theorem run_setup (compiler : Compiler) :
    setup compiler = match compiler.setup? with
      | none => .error .notConfigured compiler
      | some setup => .ok setup compiler := by
  unfold setup
  rw [run_bind_ok (run_get compiler)]
  cases compiler.setup? <;> rfl

theorem run_context (target : String) (compiler : Compiler) :
    context target compiler = match compiler.context? target with
      | none => .error (.missingContext target) compiler
      | some context => .ok context compiler := by
  unfold context
  rw [run_bind_ok (run_get compiler)]
  cases compiler.context? target <;> rfl

/-- Options are found where there are some, and finding them changes nothing. -/
theorem setup_eq_ok_iff {compiler next : Compiler} {options : Setup} :
    setup compiler = .ok options next ↔ compiler.setup? = some options ∧ next = compiler := by
  rw [run_setup]
  cases compiler.setup? with
  | none => simp
  | some known =>
    simp only [EStateM.Result.ok.injEq, Option.some.injEq]
    exact and_congr_right fun _ => eq_comm

theorem run_setup_of_eq {compiler : Compiler} {setup : Setup}
    (configured : compiler.setup? = some setup) :
    Compiler.setup compiler = .ok setup compiler :=
  setup_eq_ok_iff.mpr ⟨configured, rfl⟩

/-- The addons of a target are loaded, and what is wrong with them is reported. -/
theorem run_addonsFor {compiler : Compiler} {setup : Setup}
    (configured : compiler.setup? = some setup) (target : String) :
    addonsFor target compiler =
      let loaded := setup.registry.addonsFor compiler.workspace.system target
      .ok loaded.1
        { compiler with
          setup? := some { setup with registry := loaded.2.1 }
          workspace := { compiler.workspace with
            reports := (loaded.2.2.foldl Workspace.report compiler.workspace).reports } } := by
  unfold addonsFor
  rw [run_bind_ok (run_setup_of_eq configured), run_bind_ok (run_get compiler)]
  dsimp only
  rw [← Workspace.foldl_report]
  rfl

theorem run_addonsFor_of_none {compiler : Compiler} (bare : compiler.setup? = none)
    (target : String) : addonsFor target compiler = .error .notConfigured compiler := by
  rw [addonsFor, run_bind, run_setup, bare]

theorem run_makeContext_of_none {compiler : Compiler} (bare : compiler.setup? = none)
    (target : String) : makeContext target compiler = .error .notConfigured compiler := by
  rw [makeContext, run_bind, run_setup, bare]

theorem context_eq_ok_iff {compiler next : Compiler} {target : String} {found : Context} :
    context target compiler = .ok found next ↔
      compiler.context? target = some found ∧ next = compiler := by
  rw [run_context]
  cases compiler.context? target with
  | none => simp
  | some known =>
    simp only [EStateM.Result.ok.injEq, Option.some.injEq]
    exact and_congr_right fun _ => eq_comm

/-- Telling how watching goes changes neither contexts nor watchers. -/
theorem run_status (message : String) (compiler : Compiler) :
    ∃ reports, status message compiler =
      .ok () { compiler with workspace := { compiler.workspace with reports := reports } } := by
  unfold status
  rw [run_bind_ok (run_get compiler)]
  cases compiler.setup?.isSome <;> exact ⟨_, rfl⟩

/-- A step in the context of a target takes the workspace with it, whether it fails or not. -/
theorem run_inContext {α : Type} (target : String) (step : Context → Step α) (compiler : Compiler) :
    inContext target step compiler =
      match compiler.context? target with
      | none => .error (.missingContext target) compiler
      | some context =>
        match step context ⟨compiler.workspace, context.roots⟩ with
        | .ok a session => .ok a (compiler.absorb target session)
        | .error failure session => .error failure (compiler.absorb target session) := by
  have found := run_context target compiler
  unfold inContext
  cases known : compiler.context? target with
  | none =>
    rw [known] at found
    exact run_bind_error found
  | some context =>
    rw [known] at found
    exact run_bind_ok found

/-- A step that succeeds in the context of a target succeeds in this context, and the compiler goes
on with its session. -/
theorem exists_of_inContext_eq_ok {α : Type} {target : String} {step : Context → Step α}
    {compiler next : Compiler} {a : α} (ran : inContext target step compiler = .ok a next) :
    ∃ context session, compiler.context? target = some context ∧
      step context ⟨compiler.workspace, context.roots⟩ = .ok a session ∧
      next = compiler.absorb target session := by
  rw [run_inContext] at ran
  cases known : compiler.context? target with
  | none =>
    rw [known] at ran
    cases ran
  | some context =>
    rw [known] at ran
    dsimp only at ran
    split at ran
    · next session passed =>
      cases ran
      exact ⟨context, session, rfl, passed, rfl⟩
    · cases ran

theorem compileTarget_eq_ok_iff {compiler next : Compiler} {target : String} {context : Context}
    {force : Bool} {result : PassResult} (known : compiler.context? target = some context) :
    compileTarget target force compiler = .ok result next ↔
      ∃ session, context.compileAll compiler.rootLimit force ⟨compiler.workspace, context.roots⟩ =
        .ok result session ∧ next = compiler.absorb target session := by
  unfold compileTarget
  rw [run_bind_ok (run_get compiler), run_inContext, known]
  dsimp only
  cases context.compileAll compiler.rootLimit force ⟨compiler.workspace, context.roots⟩ with
  | ok pass session =>
    simp only [EStateM.Result.ok.injEq]
    constructor
    · rintro ⟨rfl, rfl⟩
      exact ⟨session, ⟨rfl, rfl⟩, rfl⟩
    · rintro ⟨_, ⟨rfl, rfl⟩, rfl⟩
      exact ⟨rfl, rfl⟩
  | error failure session => simp

/-- Passes over some targets, one behind the other. -/
abbrev passes (targets : List String) (result : PassResult) : Compiling PassResult :=
  targets.foldlM (fun result target => return result.merge (← compileTarget target false)) result

theorem run_passes_cons {compiler next : Compiler} {target : String} {pass : PassResult}
    (ran : compileTarget target false compiler = .ok pass next) (targets : List String)
    (result : PassResult) :
    passes (target :: targets) result compiler = passes targets (result.merge pass) next := by
  have merged : (return result.merge (← compileTarget target false) : Compiling PassResult)
      compiler =
      .ok (result.merge pass) next := run_bind_ok ran
  unfold passes
  rw [List.foldlM_cons, run_bind_ok merged]

/-- Passes that succeed begin with one that succeeds. -/
theorem exists_of_passes_cons_eq_ok {compiler next : Compiler} {target : String}
    {targets : List String} {result result' : PassResult}
    (ran : passes (target :: targets) result compiler = .ok result' next) :
    ∃ pass middle, compileTarget target false compiler = .ok pass middle ∧
      passes targets (result.merge pass) middle = .ok result' next := by
  rw [passes, List.foldlM_cons] at ran
  obtain ⟨_, _, first, rest⟩ := exists_of_bind_eq_ok ran
  obtain ⟨pass, _, compiled, ended⟩ := exists_of_bind_eq_ok first
  cases ended
  exact ⟨pass, _, compiled, rest⟩

/-- A pass over all targets, once there are contexts. -/
theorem run_compile_of_ensured {compiler middle : Compiler} {setup : Setup}
    (ensured : ensureContexts compiler = .ok () middle) (configured : middle.setup? = some setup) :
    compile compiler = passes setup.activeTargets {} middle := by
  have active : setup.activeTargets.isEmpty = false := by
    rw [List.isEmpty_eq_false_iff]
    exact setup.activeTargets_ne_nil
  unfold compile
  rw [run_bind_ok ensured, run_bind_ok (run_setup_of_eq configured), active]
  simp only [Bool.or_false]
  exact congrFun (bind_pure (passes setup.activeTargets {})) middle

theorem exists_of_compile_eq_ok {compiler next : Compiler} {result : PassResult}
    (ran : compile compiler = .ok result next) :
    ∃ options ready, ensureContexts compiler = .ok () ready ∧ ready.setup? = some options ∧
      passes options.activeTargets {} ready = .ok result next := by
  obtain ⟨_, ready, ensured, rest⟩ := exists_of_bind_eq_ok ran
  obtain ⟨options, _, found, _⟩ := exists_of_bind_eq_ok rest
  have configured := (setup_eq_ok_iff.mp found).1
  rw [run_compile_of_ensured ensured configured] at ran
  exact ⟨options, ready, ensured, configured, ran⟩

private theorem lookup_updateContext (contexts : List (String × Context)) (target other : String)
    (f : Context → Context) :
    (updateContext contexts target f).lookup other =
      if other = target then (contexts.lookup other).map f else contexts.lookup other := by
  induction contexts with
  | nil => simp [updateContext]
  | cons entry contexts ih =>
    obtain ⟨name, context⟩ := entry
    have rest : updateContext ((name, context) :: contexts) target f =
        (if name = target then (name, f context) else (name, context)) ::
          updateContext contexts target f := rfl
    rw [rest]
    by_cases here : other = name
    · subst here
      by_cases same : other = target <;> simp [same]
    · have apart : (other == name) = false := by simpa using here
      by_cases same : name = target
      · subst same
        rw [if_pos rfl, List.lookup_cons, List.lookup_cons, apart, ih]
      · rw [if_neg same, List.lookup_cons, List.lookup_cons, apart, ih]

/-- Behind a step in the context of a target, this context has the root files of the step. -/
theorem context?_absorb (compiler : Compiler) (target other : String) (session : Session) :
    (compiler.absorb target session).context? other =
      if other = target then
        (compiler.context? other).map fun context => { context with roots := session.roots }
      else compiler.context? other :=
  lookup_updateContext compiler.contexts target other fun context =>
    { context with roots := session.roots }

/-- What holds of a compiler in whatever workspace, and with whatever root files. -/
structure Sturdy (P : Compiler → Prop) : Prop where
  workspace : ∀ compiler workspace, P compiler → P { compiler with workspace := workspace }
  absorb : ∀ compiler target session, P compiler → P (compiler.absorb target session)

variable {P : Compiler → Prop}

theorem preserves_setup : Preserves P setup := by
  intro compiler holds
  rw [run_setup]
  cases compiler.setup? <;> exact holds

theorem preserves_context (target : String) : Preserves P (context target) := by
  intro compiler holds
  rw [run_context]
  cases compiler.context? target <;> exact holds

theorem preserves_writingTargets : Preserves P writingTargets :=
  preserves_setup.bind fun _ =>
    Preserves.filterM fun target _ => (preserves_context target).bind fun _ => Preserves.pure _

namespace Sturdy

variable (sturdy : Sturdy P)
include sturdy

theorem preserves_modifyWorkspace (f : Workspace → Workspace) : Preserves P (modifyWorkspace f) :=
  Preserves.modify fun compiler holds => sturdy.workspace compiler _ holds

theorem preserves_inContext {α : Type} (target : String) (step : Context → Step α) :
    Preserves P (inContext target step) := by
  intro compiler holds
  rw [run_inContext]
  cases compiler.context? target with
  | none => exact holds
  | some context =>
    dsimp only
    cases step context ⟨compiler.workspace, context.roots⟩ <;> exact sturdy.absorb _ target _ holds

theorem preserves_compileTarget (target : String) (force : Bool) :
    Preserves P (compileTarget target force) :=
  Preserves.get.bind fun _ => sturdy.preserves_inContext target _

theorem preserves_passes (force : Bool) (targets : List String) (result : PassResult) :
    Preserves P (targets.foldlM
      (fun result target => return result.merge (← compileTarget target force)) result) :=
  Preserves.foldlM (fun _ target _ =>
    (sturdy.preserves_compileTarget target force).bind fun _ => Preserves.pure _) _

/-- Behind the making of contexts, a compilation changes nothing else. -/
theorem compile {compiler : Compiler} (made : P (endState (compiler.ensureContexts))) :
    P (endState (Compiler.compile compiler)) :=
  Preserves.behind made fun _ => preserves_setup.bind fun _ =>
    (sturdy.preserves_passes false _ _).bind fun _ => Preserves.pure _

theorem preserves_compileFile (target : String) (path : Path) (force : Bool) :
    Preserves P (compileFile target path force) :=
  sturdy.preserves_inContext target _

theorem preserves_status (message : String) : Preserves P (status message) := by
  refine Preserves.get.bind fun compiler => ?_
  split
  · exact sturdy.preserves_modifyWorkspace _
  · exact Preserves.pure _

/-- So does watching. -/
theorem watch {compiler : Compiler} (made : P (endState (compiler.ensureContexts))) :
    P (endState (Compiler.watch compiler)) := by
  refine Preserves.behind made fun _ => preserves_writingTargets.bind fun targets => ?_
  refine (sturdy.preserves_passes true targets _).bind fun result =>
    Preserves.get.bind fun compiler => ?_
  split
  · refine preserves_setup.bind fun setup => ?_
    refine (Preserves.forM fun target _ => (preserves_context target).bind fun context =>
      Preserves.forM fun path _ => sturdy.preserves_modifyWorkspace _).bind fun _ => ?_
    exact (sturdy.preserves_status _).bind fun _ => Preserves.pure _
  · exact (sturdy.preserves_modifyWorkspace _).bind fun _ => Preserves.pure _

theorem preserves_targetChanged (path : Path) (result : PassResult) (target : String) :
    Preserves P (targetChanged path result target) := by
  refine (preserves_context target).bind fun context => Preserves.get.bind fun compiler => ?_
  dsimp only
  split
  · exact Preserves.pure _
  · exact Preserves.get.bind fun _ => (sturdy.preserves_inContext target _).bind fun _ =>
      Preserves.pure _

theorem preserves_fileChanged (path : Path) : Preserves P (fileChanged path) :=
  Preserves.get.bind fun _ => (sturdy.preserves_status _).bind fun _ =>
    preserves_writingTargets.bind fun _ =>
    (Preserves.foldlM (fun _ target _ => sturdy.preserves_targetChanged _ _ target) _).bind
      fun _ => (sturdy.preserves_status _).bind fun _ => Preserves.pure _

theorem preserves_takeQueue : Preserves P takeQueue :=
  Preserves.get.bind fun _ => (sturdy.preserves_modifyWorkspace _).bind fun _ => Preserves.pure _

theorem preserves_drainChanges : Preserves P drainChanges :=
  sturdy.preserves_takeQueue.bind fun _ =>
    Preserves.foldlM (fun _ path _ =>
      (sturdy.preserves_fileChanged path).bind fun _ => Preserves.pure _) _

theorem preserves_fileChangedOrReport (path : Path) : Preserves P (fileChangedOrReport path) :=
  (sturdy.preserves_fileChanged path).map.tryCatch fun _ => sturdy.preserves_modifyWorkspace _

theorem preserves_closeWatches : Preserves P closeWatches :=
  Preserves.get.bind fun _ => (sturdy.preserves_modifyWorkspace _).bind fun _ => Preserves.pure _

theorem preserves_runWatch (stopped : Bool) : Preserves P (runWatch stopped) := by
  refine preserves_setup.bind fun _ => ?_
  dsimp only
  split
  · refine sturdy.preserves_takeQueue.bind fun paths => ?_
    refine Preserves.bind (Preserves.forM fun path _ => sturdy.preserves_fileChangedOrReport path)
      fun _ => ?_
    exact sturdy.preserves_closeWatches.bind fun _ => Preserves.pure _
  · exact sturdy.preserves_closeWatches.bind fun _ => Preserves.pure _

/-- Of an action that sets no options only the making of contexts has to be looked at. -/
theorem run {action : Action} (same : ∀ setup, action ≠ .configure setup) {compiler : Compiler}
    (holds : P (if action.ensures then endState (compiler.ensureContexts) else compiler)) :
    P (action.run compiler) := by
  cases action with
  | edit change => exact sturdy.workspace _ _ holds
  | notify path numbers => exact sturdy.workspace _ _ holds
  | configure setup => exact absurd rfl (same setup)
  | ensureContexts => exact holds
  | compile => exact sturdy.compile holds
  | compileFile target path force => exact sturdy.preserves_compileFile target path force _ holds
  | watch => exact sturdy.watch holds
  | fileChanged path => exact sturdy.preserves_fileChanged path _ holds
  | drainChanges => exact sturdy.preserves_drainChanges _ holds
  | runWatch stopped => exact sturdy.preserves_runWatch stopped _ holds
  | closeWatches => exact sturdy.preserves_closeWatches _ holds

end Sturdy

end Compiler

end Recast.Build
