import Recast.Proofs.Build.Draining
import Recast.Proofs.Build.Lingering

/-! # Compilers on top of what is left

Two compilers with the same options, of which the one has leftovers in its workspace, have contexts
with callbacks that do the same (`Leftover.Remains`), as long as addons do whatever does not depend
on what is left (`Addon.Oblivious`). Every operation of a compiler then does the same in both.
-/

namespace Recast.Build

open Recast.Emit

/-- Two activations in contexts with callbacks that do the same. -/
structure Leftover.Activates (left : Leftover) (used fresh : Activation) : Prop where
  context : left.Matches used.context fresh.context
  workspace : left.Lingers used.workspace fresh.workspace

/-- An addon that does the same whatever is left in the workspace. -/
def Addon.Oblivious (addon : Addon) : Prop :=
  ∀ left : Leftover, Twins left.Activates Eq addon.activate addon.activate

/-- Two compilers with the same options, and contexts of which the callbacks do the same. -/
structure Leftover.Remains (left : Leftover) (used fresh : Compiler) : Prop where
  workspace : left.Lingers used.workspace fresh.workspace
  setup : used.setup? = fresh.setup?
  phase : used.phase = fresh.phase
  limit : used.rootLimit = fresh.rootLimit
  contexts : List.Forall₂ (fun a b : String × Context => a.1 = b.1 ∧ left.Matches a.2 b.2)
    used.contexts fresh.contexts
  registry : ∀ setup, fresh.setup? = some setup → setup.registry.All Addon.Oblivious

namespace Leftover

variable {left : Leftover}

section Registering

theorem twins_onContext {f g : Context → Context}
    (kept : ∀ used fresh, left.Matches used fresh → left.Matches (f used) (g fresh)) :
    Twins left.Activates Eq (Activation.onContext f) (Activation.onContext g) :=
  .modify fun _ _ activates => ⟨kept _ _ activates.context, activates.workspace⟩

/-- A generator may watch files. -/
theorem twins_registerGenerator {f g : Generator}
    (each : ∀ scope : Scope,
      (∀ path, Twins left.LingersIn Eq (scope.watchFile path) (scope.watchFile path)) →
        ∀ path source, Twins left.LingersIn Eq (f scope path source) (g scope path source)) :
    Twins left.Activates Eq (Activation.registerGenerator f) (Activation.registerGenerator g) :=
  twins_onContext fun _ fresh twin => { twin with
    generators := List.rel_append twin.generators (.cons (each fresh.toScope twin.watches) .nil) }

theorem twins_registerProcessor {f g : Processor}
    (each : ∀ scope path source,
      Twins left.LingersIn Eq (f scope path source) (g scope path source)) :
    Twins left.Activates Eq (Activation.registerProcessor f) (Activation.registerProcessor g) :=
  twins_onContext fun _ fresh twin => { twin with
    processors := List.rel_append twin.processors (.cons (each fresh.toScope) .nil) }

theorem TwinHooks.append {a b c d : Hooks} (first : left.TwinHooks a b)
    (second : left.TwinHooks c d) : left.TwinHooks (a.append c) (b.append d) :=
  ⟨List.rel_append first.before second.before, List.rel_append first.after second.after⟩

theorem twins_registerTransformers {used fresh : Hooks} (stage : Stage)
    (hooks : left.TwinHooks used fresh) :
    Twins left.Activates Eq (Activation.registerTransformers stage used)
      (Activation.registerTransformers stage fresh) := by
  refine twins_onContext fun used fresh twin => { twin with transformers := ?_ }
  have sets := twin.transformers
  cases stage with
  | preEmit => exact { sets with preEmit := sets.preEmit.append hooks }
  | emit => exact { sets with emit := sets.emit.append hooks }
  | postEmit => exact { sets with postEmit := sets.postEmit.append hooks }

theorem twins_registerResultProcessor {f g : ResultProcessor}
    (each : ∀ scope roots, Twins left.LingersIn Eq (f scope roots) (g scope roots)) :
    Twins left.Activates Eq (Activation.registerResultProcessor f)
      (Activation.registerResultProcessor g) :=
  twins_onContext fun _ fresh twin => { twin with
    resultProcessors := List.rel_append twin.resultProcessors (.cons (each fresh.toScope) .nil) }

theorem twins_registerResolver {f g : DependencyResolver}
    (each : ∀ path used fresh, left.Lingers used fresh → f path used = g path fresh) :
    Twins left.Activates Eq (Activation.registerResolver f) (Activation.registerResolver g) :=
  twins_onContext fun _ _ twin => { twin with
    resolvers := List.rel_append twin.resolvers (.cons each .nil) }

end Registering

variable {used fresh : Compiler}

theorem Matches.withRoots {a b : Context} (twin : left.Matches a b) (roots : List Path) :
    left.Matches { a with roots := roots } { b with roots := roots } :=
  { twin with roots := rfl }

namespace Remains

theorem withWorkspace (remains : left.Remains used fresh) {s t : Workspace}
    (lingers : left.Lingers s t) :
    left.Remains { used with workspace := s } { fresh with workspace := t } :=
  { remains with workspace := lingers }

/-- A target has a context in both compilers or in none. -/
theorem context? (remains : left.Remains used fresh) (target : String) :
    (used.context? target = none ∧ fresh.context? target = none) ∨
      ∃ a b, used.context? target = some a ∧ fresh.context? target = some b ∧ left.Matches a b := by
  unfold Compiler.context?
  have each := remains.contexts
  generalize used.contexts = xs, fresh.contexts = ys at each
  induction each with
  | nil => exact .inl ⟨rfl, rfl⟩
  | @cons x y xs ys first _ ih =>
    obtain ⟨named, twin⟩ := first
    rw [List.lookup_cons, List.lookup_cons, named]
    cases target == y.1 with
    | true => exact .inr ⟨x.2, y.2, rfl, rfl, twin⟩
    | false => exact ih

theorem absorb (remains : left.Remains used fresh) (target : String) {s t : Session}
    (states : left.LingersIn s t) :
    left.Remains (used.absorb target s) (fresh.absorb target t) := by
  refine { remains with workspace := states.workspace, contexts := ?_ }
  refine List.forall₂_map_left_iff.mpr (List.forall₂_map_right_iff.mpr ?_)
  refine remains.contexts.imp fun a b both => ?_
  obtain ⟨named, twin⟩ := both
  dsimp only
  rw [named, states.roots]
  split
  · exact ⟨rfl, twin.withRoots t.roots⟩
  · exact ⟨named, twin⟩

end Remains

section Operations

variable {α β : Type} {Q : α → β → Prop}

/-- What does the same in contexts does the same in compilers. -/
theorem twins_inContext {events : Context → Session → List Event} {step : Context → Step α}
    {step' : Context → Step β} (target : String)
    (each : ∀ a b, left.Matches a b →
      TwinsWhile left.admits left.LingersIn Q (events b) (step a) (step' b)) :
    TwinsWhile left.admits left.Remains Q (Compiler.eventsInContext target events)
      (Compiler.inContext target step) (Compiler.inContext target step') := by
  intro used fresh remains admitted
  unfold Compiler.eventsInContext at admitted
  rw [Compiler.run_inContext, Compiler.run_inContext]
  rcases remains.context? target with ⟨here, there⟩ | ⟨a, b, here, there, twin⟩
  · rw [here, there]
    exact .error _ remains
  · rw [there] at admitted
    rw [here, there]
    have even := each a b twin ⟨used.workspace, a.roots⟩ ⟨fresh.workspace, b.roots⟩
      ⟨twin.roots, remains.workspace⟩ admitted
    dsimp only
    revert even
    generalize step a _ = result, step' b _ = result'
    rintro (⟨answers, states⟩ | ⟨failure, states⟩)
    · exact .ok answers (remains.absorb target states)
    · exact .error failure (remains.absorb target states)

theorem twins_setup : Twins left.Remains Eq Compiler.setup Compiler.setup := by
  intro used fresh remains
  rw [Compiler.run_setup, Compiler.run_setup, remains.setup]
  cases fresh.setup? with
  | none => exact .error _ remains
  | some setup => exact .ok rfl remains

theorem twins_context (target : String) :
    Twins left.Remains left.Matches (Compiler.context target) (Compiler.context target) := by
  intro used fresh remains
  rw [Compiler.run_context, Compiler.run_context]
  rcases remains.context? target with ⟨here, there⟩ | ⟨a, b, here, there, twin⟩
  · rw [here, there]
    exact .error _ remains
  · rw [here, there]
    exact .ok twin remains

theorem twins_onWorkspace {f g : Workspace → Workspace}
    (kept : ∀ used fresh, left.Lingers used fresh → left.Lingers (f used) (g fresh)) :
    Twins left.Remains Eq (Compiler.modifyWorkspace f) (Compiler.modifyWorkspace g) :=
  .modify fun _ _ remains => remains.withWorkspace (kept _ _ remains.workspace)

theorem twins_writingTargets :
    Twins left.Remains Eq Compiler.writingTargets Compiler.writingTargets :=
  twins_setup.bind_same fun _ => .filterM fun target _ =>
    (twins_context target).bind fun _ _ twin => .pure (congrArg Scope.writesFiles twin.scope)

theorem twins_status (message : String) :
    Twins left.Remains Eq (Compiler.status message) (Compiler.status message) := by
  refine Twins.get.bind fun used fresh remains => ?_
  rw [remains.setup]
  split
  · exact twins_onWorkspace fun _ _ lingers => lingers.status message
  · exact .pure rfl

theorem Lingers.reportAll {s t : Workspace} (lingers : left.Lingers s t)
    (reports : List Diagnostic) :
    left.Lingers (reports.foldl Workspace.report s) (reports.foldl Workspace.report t) := by
  induction reports generalizing s t with
  | nil => exact lingers
  | cons report reports ih => exact ih (lingers.report report)

/-- The same addons are loaded. -/
theorem twins_addonsFor (target : String) :
    Twins left.Remains (fun a b : List Addon => a = b ∧ ∀ addon ∈ b, addon.Oblivious)
      (Compiler.addonsFor target) (Compiler.addonsFor target) := by
  intro used fresh remains
  unfold Compiler.addonsFor
  rw [run_bind, run_bind, Compiler.run_setup, Compiler.run_setup, remains.setup]
  cases known : fresh.setup? with
  | none => exact .error _ remains
  | some setup =>
    obtain ⟨good, kept⟩ := (remains.registry setup known).addonsFor fresh.workspace.system target
    dsimp only
    rw [run_bind_ok (run_get used), run_bind_ok (run_get fresh), remains.workspace.system]
    refine .ok ⟨rfl, good⟩ { remains with
      workspace := remains.workspace.reportAll _, setup := rfl, registry := fun other same => ?_ }
    cases same
    exact kept

theorem twins_activate {a b : Context} (twin : left.Matches a b) {addons : List Addon}
    (good : ∀ addon ∈ addons, addon.Oblivious) :
    Twins left.Remains left.Matches (Compiler.activate a addons) (Compiler.activate b addons) := by
  intro used fresh remains
  have activated : Twins left.Activates Eq
      (addons.forM (·.activate) : EStateM Failure Activation Unit) (addons.forM (·.activate)) :=
    .forM_same fun addon member => good addon member left
  have even := activated ⟨a, used.workspace⟩ ⟨b, fresh.workspace⟩ ⟨twin, remains.workspace⟩
  unfold Compiler.activate
  revert even
  generalize (addons.forM (·.activate) : EStateM Failure Activation Unit) _ = result,
    (addons.forM (·.activate) : EStateM Failure Activation Unit) _ = result'
  rintro (⟨_, states⟩ | ⟨failure, states⟩)
  · exact .ok states.context (remains.withWorkspace states.workspace)
  · exact .error failure (remains.withWorkspace states.workspace)

/-- The context with which a target begins. -/
theorem matches_bare (setup : Setup) (system : Files.System) (target : String) (roots : List Path) :
    left.Matches { toScope := setup.scope system target, roots := roots }
      { toScope := setup.scope system target, roots := roots } where
  scope := rfl
  roots := rfl
  watches path := by
    unfold Scope.watchFile Setup.scope
    dsimp only
    split
    · exact .pure rfl
    · next watch wanted =>
      split at wanted
      · cases wanted
        refine twins_workspace.bind fun used fresh lingers => ?_
        dsimp only
        rcases lingers.watch path with ⟨failure, here, there⟩ | ⟨used', fresh', here, there, later⟩
        · rw [here, there]
          exact .throw _
        · rw [here, there]
          exact twins_modifyWorkspace fun _ _ _ => later
      · cases wanted
  generators := .nil
  processors := .nil
  transformers := ⟨⟨.nil, .nil⟩, ⟨.nil, .nil⟩, ⟨.nil, .nil⟩⟩
  resultProcessors := .nil
  postTransformers := .nil
  resolvers := .nil

theorem twins_makeContext (target : String) :
    Twins left.Remains left.Matches (Compiler.makeContext target)
      (Compiler.makeContext target) := by
  refine twins_setup.bind_same fun setup => Twins.get.bind fun used fresh remains => ?_
  rw [remains.workspace.system]
  dsimp only
  cases setup.project.rootFiles fresh.workspace.system setup.projectRoot with
  | error failure => exact .throw _
  | ok roots =>
    exact (twins_addonsFor target).bind fun addons _ same => same.1 ▸
      twins_activate (matches_bare setup _ target roots) (same.1 ▸ same.2)

theorem twins_ensureContext (target : String) :
    Twins left.Remains Eq (Compiler.ensureContext target) (Compiler.ensureContext target) := by
  refine Twins.get.bind fun used fresh remains => ?_
  have made : Twins left.Remains Eq
      (do
        let context ← Compiler.makeContext target
        modify fun compiler : Compiler =>
          { compiler with contexts := compiler.contexts ++ [(target, context)] })
      (do
        let context ← Compiler.makeContext target
        modify fun compiler : Compiler =>
          { compiler with contexts := compiler.contexts ++ [(target, context)] }) := by
    refine (twins_makeContext target).bind fun a b twin => .modify fun used fresh remains => ?_
    exact { remains with
      contexts := List.rel_append remains.contexts (.cons ⟨rfl, twin⟩ .nil) }
  rcases remains.context? target with ⟨here, there⟩ | ⟨a, b, here, there, twin⟩
  · rw [here, there]
    exact made
  · rw [here, there]
    exact .pure rfl

theorem twins_ensureContexts :
    Twins left.Remains Eq Compiler.ensureContexts Compiler.ensureContexts :=
  twins_setup.bind_same fun _ =>
    (Twins.forM_same fun target _ => twins_ensureContext target).bind_same
      fun _ => .modify fun _ _ remains => { remains with phase := rfl }

theorem twins_compileTarget (target : String) (force : Bool) :
    TwinsWhile left.admits left.Remains Eq (Compiler.targetEvents target force)
      (Compiler.compileTarget target force) (Compiler.compileTarget target force) := by
  intro used fresh remains admitted
  unfold Compiler.compileTarget
  rw [run_bind_ok (run_get used), run_bind_ok (run_get fresh), remains.limit]
  exact twins_inContext target (fun _ _ twin => twin.compileAll fresh.rootLimit force) used fresh
    remains admitted

theorem twins_passes (force : Bool) (targets : List String) (result : PassResult) :
    TwinsWhile left.admits left.Remains Eq (Compiler.passEvents force targets)
      (targets.foldlM (fun result target =>
        return result.merge (← Compiler.compileTarget target force)) result)
      (targets.foldlM (fun result target =>
        return result.merge (← Compiler.compileTarget target force)) result) :=
  .foldlM (fun _ _ _ _ => congrArg (_ ++ ·) (Compiler.eventsBehind_map ..))
    (fun target result _ same => same ▸ (twins_compileTarget target force).andThen
      fun _ _ same => .pure (congrArg result.merge same)) rfl

theorem twins_compile :
    TwinsWhile left.admits left.Remains Eq Compiler.compileEvents Compiler.compile
      Compiler.compile :=
  .behind twins_ensureContexts fun _ _ _ => .behind twins_setup fun setup _ same => same ▸
    (twins_passes false setup.activeTargets {}).andThen fun _ _ same => same ▸ .pure rfl

theorem twins_watch :
    TwinsWhile left.admits left.Remains Eq Compiler.watchEvents Compiler.watch Compiler.watch := by
  refine .behind twins_ensureContexts fun _ _ _ => ?_
  refine .behind twins_writingTargets fun targets _ same => same ▸ ?_
  refine (twins_passes true targets {}).andThen fun result _ same => same ▸ ?_
  refine Twins.get.bind fun used fresh remains => ?_
  rw [remains.workspace.system]
  split
  · refine twins_setup.bind_same fun setup =>
      Twins.bind_same (.forM_same fun target _ => ?_) fun _ =>
        (twins_status _).bind_same fun _ => .pure rfl
    refine (twins_context target).bind fun a b twin => ?_
    rw [twin.roots]
    exact .forM_same fun path _ => twins_onWorkspace fun _ _ lingers => lingers.watchRoot path
  · exact (twins_onWorkspace fun _ _ lingers => lingers.report _).bind_same fun _ => .pure rfl

theorem twins_targetChanged (path : Path) (result : PassResult) (target : String) :
    TwinsWhile left.admits left.Remains Eq (Compiler.targetChangedEvents path target)
      (Compiler.targetChanged path result target) (Compiler.targetChanged path result target) := by
  intro used fresh remains admitted
  rw [Compiler.run_targetChanged, Compiler.run_targetChanged]
  rcases remains.context? target with ⟨here, there⟩ | ⟨a, b, here, there, twin⟩
  · rw [here, there]
    exact .error _ remains
  · unfold Compiler.targetChangedEvents Compiler.eventsInContext at admitted
    rw [there] at admitted
    rw [here, there]
    dsimp only at admitted ⊢
    rw [twin.affected remains.workspace, remains.limit]
    split
    · exact .ok rfl remains
    · next some =>
      rw [if_neg some] at admitted
      have changed := twins_inContext target fun a' b' (twin : left.Matches a' b') =>
        twin.refreshAll fresh.rootLimit (Compiler.affected b fresh.workspace path)
      refine changed.andThen (fun pass _ same => .pure (congrArg result.merge same)) used fresh
        remains ?_
      unfold Compiler.eventsInContext
      rw [there]
      exact admitted

theorem twins_targetsChanged (path : Path) (targets : List String) (result : PassResult) :
    TwinsWhile left.admits left.Remains Eq (Compiler.targetsChangedEvents path targets)
      (targets.foldlM (Compiler.targetChanged path) result)
      (targets.foldlM (Compiler.targetChanged path) result) :=
  .foldlM (fun _ _ _ _ => congrArg (_ ++ ·) (Compiler.eventsBehind_targetChanged ..))
    (fun target result _ same => same ▸ twins_targetChanged path result target) rfl

theorem twins_fileChanged (path : Path) :
    TwinsWhile left.admits left.Remains Eq (Compiler.fileChangedEvents path)
      (Compiler.fileChanged path) (Compiler.fileChanged path) := by
  intro used fresh remains admitted
  unfold Compiler.fileChanged
  rw [run_bind_ok (run_get used), run_bind_ok (run_get fresh), remains.workspace.system]
  refine TwinsWhile.behind (twins_status _) (fun _ _ _ => .behind twins_writingTargets
    fun targets _ same => same ▸ (twins_targetsChanged _ targets {}).andThen
      fun result _ same => same ▸ ?_) used fresh remains admitted
  exact (twins_status _).bind_same fun _ => .pure rfl

theorem twins_takeQueue : Twins left.Remains Eq Compiler.takeQueue Compiler.takeQueue := by
  refine Twins.get.bind fun used fresh remains => ?_
  rw [remains.workspace.queue]
  exact (twins_onWorkspace fun _ _ lingers => lingers.withQueue []).bind_same fun _ => .pure rfl

theorem twins_filesChanged (paths : List Path) (result : PassResult) :
    TwinsWhile left.admits left.Remains Eq (Compiler.filesChangedEvents paths)
      (paths.foldlM (fun result path => return result.merge (← Compiler.fileChanged path)) result)
      (paths.foldlM (fun result path => return result.merge (← Compiler.fileChanged path))
        result) :=
  .foldlM (fun _ _ _ _ => congrArg (_ ++ ·) (Compiler.eventsBehind_map ..))
    (fun path result _ same => same ▸ (twins_fileChanged path).andThen
      fun _ _ same => .pure (congrArg result.merge same)) rfl

theorem twins_drainChanges :
    TwinsWhile left.admits left.Remains Eq Compiler.drainEvents Compiler.drainChanges
      Compiler.drainChanges :=
  .behind twins_takeQueue fun paths _ same => same ▸ twins_filesChanged paths {}

theorem twins_fileChangedOrReport (path : Path) :
    TwinsWhile left.admits left.Remains Eq (Compiler.fileChangedEvents path)
      (Compiler.fileChangedOrReport path) (Compiler.fileChangedOrReport path) := by
  intro used fresh remains admitted
  have changed := twins_fileChanged path used fresh remains admitted
  unfold Compiler.fileChangedOrReport
  rw [run_tryCatch, run_tryCatch, run_discard, run_discard]
  revert changed
  generalize Compiler.fileChanged path used = result, Compiler.fileChanged path fresh = result'
  rintro (⟨_, states⟩ | ⟨failure, states⟩)
  · exact .ok rfl states
  · exact twins_onWorkspace (fun _ _ lingers => lingers.report _) _ _ states

theorem twins_reported (paths : List Path) :
    TwinsWhile left.admits left.Remains Eq (Compiler.reportedEvents paths)
      (paths.forM Compiler.fileChangedOrReport) (paths.forM Compiler.fileChangedOrReport) := by
  induction paths with
  | nil => exact (Twins.pure rfl).while _
  | cons path paths ih =>
    intro used fresh remains admitted
    -- A failure is only reported, so that the changes behind it are always handled.
    refine ((twins_fileChangedOrReport path).bind fun _ _ _ => ih) used fresh remains ?_
    intro event member
    refine admitted event ?_
    unfold Compiler.reportedEvents
    obtain ⟨next, ran⟩ := Compiler.fileChangedOrReport_eq_ok path fresh
    dsimp only at member
    rw [ran] at member ⊢
    exact member

theorem twins_closeWatches :
    Twins left.Remains Eq Compiler.closeWatches Compiler.closeWatches := by
  refine Twins.get.bind fun used fresh remains => ?_
  rw [remains.workspace.watches]
  exact (twins_onWorkspace fun _ _ lingers => lingers.closeWatches).bind_same fun _ => .pure rfl

theorem twins_runWatch (stopped : Bool) :
    TwinsWhile left.admits left.Remains Eq (Compiler.runWatchEvents stopped)
      (Compiler.runWatch stopped) (Compiler.runWatch stopped) := by
  have closed : Twins left.Remains Eq (do let _ ← Compiler.closeWatches : Compiling Unit)
      (do let _ ← Compiler.closeWatches : Compiling Unit) :=
    twins_closeWatches.bind_same fun _ => .pure rfl
  refine .behind twins_setup fun setup _ _ => ?_
  cases stopped with
  | true => exact closed.while _
  | false =>
    exact .behind twins_takeQueue fun paths _ same => same ▸
      (twins_reported paths).andThen fun _ _ _ => closed

end Operations

end Leftover

end Recast.Build
