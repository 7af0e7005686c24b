import Recast.Proofs.Build.Explaining

/-! # The phases of a compiler

A compiler is unconfigured, configured or ready. Whatever it lives through, also where operations
fail half-way, it either never had options and is bare (`Bare`), or its contexts belong to active
targets, one to each at most, and all are there once it is ready (`Orderly`). Every context was made
once since the options were set, and until new ones are set only its root files change. The main
statement is `phases`.
-/

namespace Recast.Files.System

/-- A watcher of a memory is closed. A disk has no numbers for watchers. -/
def Closed (number : Nat) (system : System) : Prop :=
  ∀ tree, system = .memory tree → ∀ watcher, tree.watchers[number]? = some watcher →
    watcher.active = false

theorem closed_close (number : Nat) (system : System) : (system.close number).Closed number := by
  rintro tree same watcher found
  cases system with
  | disk => cases same
  | memory tree =>
    cases same
    rw [MemoryTree.close, List.getElem?_modify] at found
    obtain ⟨old, _, rfl⟩ := Option.map_eq_some_iff.mp found
    rw [if_pos rfl]

/-- A closed watcher stays closed. -/
theorem Closed.close {number : Nat} {system : System} (closed : system.Closed number) (other : Nat) :
    (system.close other).Closed number := by
  rintro tree same watcher found
  cases system with
  | disk => cases same
  | memory tree =>
    cases same
    rw [MemoryTree.close, List.getElem?_modify] at found
    obtain ⟨old, known, rfl⟩ := Option.map_eq_some_iff.mp found
    split
    · rfl
    · exact closed tree rfl old known

end Recast.Files.System

namespace Recast.Build

/-- All watchers of a workspace are closed. -/
theorem Workspace.closed_of_closeWatches (workspace : Workspace) :
    ∀ watch ∈ workspace.watches, workspace.closeWatches.system.Closed watch.number := by
  rw [closeWatches]
  generalize workspace.system = system
  have stays (number : Nat) (watches : List OpenWatch) (system : Files.System)
      (closed : system.Closed number) :
      (watches.foldl (fun system watch => system.close watch.number) system).Closed number := by
    induction watches generalizing system with
    | nil => exact closed
    | cons watch watches ih => exact ih _ (closed.close watch.number)
  induction workspace.watches generalizing system with
  | nil => exact fun _ member => absurd member List.not_mem_nil
  | cons watch watches ih =>
    intro other member
    rcases List.mem_cons.mp member with rfl | later
    · exact stays _ watches _ (Files.System.closed_close _ _)
    · exact ih _ other later

namespace Compiler

variable {compiler next : Compiler}

section Unconfigured

/-- A compiler that never had options. -/
structure Bare (compiler : Compiler) : Prop where
  setup : compiler.setup? = none
  phase : compiler.phase = .unconfigured
  contexts : compiler.contexts = []
  cache : compiler.workspace.cache = {}
  watches : compiler.workspace.watches = []

theorem bare_ofSystem (system : Files.System) (limit : Nat) :
    Bare { ofSystem system with rootLimit := limit } :=
  ⟨rfl, rfl, rfl, rfl, rfl⟩

/-- Without options, a step fails at once. -/
def Stops {α : Type} (x : Compiling α) : Prop :=
  ∀ compiler, Bare compiler → ∃ failure, x compiler = .error failure compiler

theorem Stops.bind {α β : Type} {x : Compiling α} {f : α → Compiling β} (stops : Stops x) :
    Stops (x >>= f) := by
  intro compiler bare
  obtain ⟨failure, ran⟩ := stops compiler bare
  exact ⟨failure, run_bind_error ran⟩

theorem Stops.preserves {α : Type} {x : Compiling α} (stops : Stops x) : Preserves Bare x := by
  intro compiler bare
  obtain ⟨failure, ran⟩ := stops compiler bare
  rw [ran]
  exact bare

theorem stops_setup : Stops setup := by
  intro compiler bare
  rw [run_setup, bare.setup]
  exact ⟨_, rfl⟩

theorem stops_inContext {α : Type} (target : String) (step : Context → Step α) :
    Stops (inContext target step) := by
  intro compiler bare
  rw [run_inContext, context?, bare.contexts]
  exact ⟨_, rfl⟩

theorem stops_ensureContexts : Stops ensureContexts := stops_setup.bind

theorem preserves_bare_modifyWorkspace {f : Workspace → Workspace}
    (cache : ∀ workspace, (f workspace).cache = workspace.cache)
    (watches : ∀ workspace, (f workspace).watches = workspace.watches) :
    Preserves Bare (modifyWorkspace f) :=
  Preserves.modify fun _ bare => ⟨bare.setup, bare.phase, bare.contexts,
    (cache _).trans bare.cache, (watches _).trans bare.watches⟩

theorem preserves_bare_fileChanged (path : Path) : Preserves Bare (fileChanged path) := by
  refine Preserves.get.bind fun compiler => Preserves.bind ?_ fun _ => ?_
  · refine Preserves.get.bind fun compiler => ?_
    split
    · exact preserves_bare_modifyWorkspace (fun _ => rfl) (fun _ => rfl)
    · exact Preserves.pure _
  · exact (stops_setup.bind.bind).preserves

theorem preserves_bare_drainChanges : Preserves Bare drainChanges := by
  refine Preserves.bind ?_ fun paths => Preserves.foldlM (fun _ path _ =>
    (preserves_bare_fileChanged path).bind fun _ => Preserves.pure _) _
  refine Preserves.get.bind fun _ => Preserves.bind ?_ fun _ => Preserves.pure _
  exact preserves_bare_modifyWorkspace (fun _ => rfl) (fun _ => rfl)

/-- Without options a compiler stays as it is. -/
theorem Bare.run {action : Action} (same : ∀ setup, action ≠ .configure setup)
    (bare : compiler.Bare) : (action.run compiler).Bare := by
  cases action with
  | edit change => exact ⟨bare.setup, bare.phase, bare.contexts, bare.cache, bare.watches⟩
  | notify path numbers => exact ⟨bare.setup, bare.phase, bare.contexts, bare.cache, bare.watches⟩
  | configure setup => exact absurd rfl (same setup)
  | ensureContexts => exact stops_ensureContexts.preserves _ bare
  | compile => exact stops_ensureContexts.bind.preserves _ bare
  | compileFile target path force => exact (stops_inContext target _).preserves _ bare
  | watch => exact stops_ensureContexts.bind.preserves _ bare
  | fileChanged path => exact preserves_bare_fileChanged path _ bare
  | drainChanges => exact preserves_bare_drainChanges _ bare
  | runWatch stopped => exact stops_setup.bind.preserves _ bare
  | closeWatches => exact ⟨bare.setup, bare.phase, bare.contexts, bare.cache, rfl⟩

end Unconfigured

section Configured

variable {targets : List String}

/-- A compiler with options has contexts for active targets only, one for each at most, and all of
them once it is ready. -/
structure Orderly (targets : List String) (compiler : Compiler) : Prop where
  active : compiler.setup?.map Setup.activeTargets = some targets
  configured : compiler.phase ≠ .unconfigured
  within : compiler.contexts.map (·.1) ⊆ targets
  distinct : (compiler.contexts.map (·.1)).Nodup
  ready : compiler.phase = .ready → ∀ target ∈ targets, (compiler.context? target).isSome = true

theorem targets_eq_of_frame (same : next.frame = compiler.frame) :
    next.contexts.map (·.1) = compiler.contexts.map (·.1) := by
  have entries := congrArg (fun frame => frame.2.2.map (·.1)) same
  rwa [frame, frame, List.map_map, List.map_map] at entries

theorem Orderly.of_frame (orderly : compiler.Orderly targets) (same : next.frame = compiler.frame) :
    next.Orderly targets := by
  have phase : next.phase = compiler.phase := congrArg (·.2.1) same
  constructor
  · exact (active_of_options (congrArg (·.1) same)).trans orderly.active
  · rw [phase]
    exact orderly.configured
  · rw [targets_eq_of_frame same]
    exact orderly.within
  · rw [targets_eq_of_frame same]
    exact orderly.distinct
  · intro ready target member
    rw [isSome_context?_congr same]
    exact orderly.ready (phase ▸ ready) target member

theorem sturdy_orderly (targets : List String) : Sturdy (Orderly targets) :=
  sturdy_of_frame fun _ _ same orderly => orderly.of_frame same

/-- A target without a context gets one. -/
private theorem Orderly.append (orderly : compiler.Orderly targets) {target : String}
    (member : target ∈ targets) (missing : (compiler.context? target).isSome = false)
    (context : Context) :
    Orderly targets { compiler with contexts := compiler.contexts ++ [(target, context)] } := by
  have absent : target ∉ compiler.contexts.map (·.1) := by
    rintro listed
    obtain ⟨entry, known, rfl⟩ := List.mem_map.mp listed
    rw [context?, Option.isSome_eq_false_iff, Option.isNone_iff_eq_none,
      List.lookup_eq_none_iff] at missing
    simpa using missing entry known
  constructor
  · exact orderly.active
  · exact orderly.configured
  · rw [List.map_append]
    exact List.append_subset.mpr ⟨orderly.within, by simpa using member⟩
  · rw [List.map_append, List.nodup_append]
    refine ⟨orderly.distinct, by simp, ?_⟩
    rintro other listed last appended rfl
    rw [List.map_singleton, List.mem_singleton] at appended
    subst appended
    exact absent listed
  · intro ready
    rw [orderly.ready ready target member] at missing
    cases missing

theorem preserves_ensureContext {target : String} (member : target ∈ targets) :
    Preserves (Orderly targets) (ensureContext target) := by
  intro compiler orderly
  have same := frame_makeContext target compiler
  rw [run_ensureContext]
  split
  · exact orderly
  · next missing =>
    cases made : makeContext target compiler with
    | error failure next =>
      rw [made] at same
      exact orderly.of_frame same
    | ok context next =>
      rw [made, endState_ok] at same
      have missing' : (next.context? target).isSome = false := by
        rw [isSome_context?_congr same]
        exact Bool.eq_false_iff.mpr missing
      exact (orderly.of_frame same).append member missing' context

/-- The contexts may be made up to some target only, or all of them. -/
theorem preserves_ensureContexts : Preserves (Orderly targets) ensureContexts := by
  intro compiler orderly
  obtain ⟨setup, configured, active⟩ := Option.map_eq_some_iff.mp orderly.active
  have made := Preserves.forM (fun target member => preserves_ensureContext member) compiler orderly
  rw [ensureContexts_eq, configured]
  dsimp only
  rw [active]
  cases ran : targets.forM ensureContext compiler with
  | error failure middle =>
    rw [ran] at made
    exact made
  | ok _ middle =>
    rw [ran] at made
    have contexts := isSome_of_forM ran
    exact ⟨made.active, nofun, made.within, made.distinct, fun _ target member =>
      contexts target member⟩

theorem Orderly.run (orderly : compiler.Orderly targets) {action : Action}
    (same : ∀ setup, action ≠ .configure setup) : (action.run compiler).Orderly targets := by
  apply (sturdy_orderly targets).run same
  split
  · exact preserves_ensureContexts compiler orderly
  · exact orderly

theorem orderly_configure (compiler : Compiler) (setup : Setup) :
    (compiler.configure setup).Orderly setup.activeTargets :=
  ⟨rfl, nofun, List.nil_subset _, List.nodup_nil, nofun⟩

theorem Orderly.equipped (orderly : compiler.Orderly targets) (ready : compiler.phase = .ready) :
    compiler.Equipped targets :=
  ⟨orderly.active, orderly.ready ready⟩

end Configured

/-- How the phase, the options and what a compiler has belong together. -/
structure Consistent (compiler : Compiler) : Prop where
  unconfigured : compiler.phase = .unconfigured ↔ compiler.setup? = none
  bare : compiler.setup? = none → compiler.contexts = [] ∧ compiler.workspace.cache = {} ∧
    compiler.workspace.watches = []
  within : ∀ setup, compiler.setup? = some setup →
    compiler.contexts.map (·.1) ⊆ setup.activeTargets
  distinct : (compiler.contexts.map (·.1)).Nodup
  ready : compiler.phase = .ready → ∃ setup, compiler.setup? = some setup ∧
    ∀ target ∈ setup.activeTargets, (compiler.context? target).isSome = true

theorem Bare.consistent (bare : compiler.Bare) : compiler.Consistent where
  unconfigured := iff_of_true bare.phase bare.setup
  bare _ := ⟨bare.contexts, bare.cache, bare.watches⟩
  within setup configured := by
    rw [bare.setup] at configured
    cases configured
  distinct := by
    rw [bare.contexts]
    exact List.nodup_nil
  ready ready := by
    rw [bare.phase] at ready
    cases ready

theorem Orderly.consistent {targets : List String} (orderly : compiler.Orderly targets) :
    compiler.Consistent := by
  obtain ⟨setup, configured, rfl⟩ := Option.map_eq_some_iff.mp orderly.active
  constructor
  · rw [configured]
    exact iff_of_false orderly.configured nofun
  · intro none
    rw [configured] at none
    cases none
  · rintro other same
    rw [configured] at same
    cases same
    exact orderly.within
  · exact orderly.distinct
  · exact fun ready => ⟨setup, configured, orderly.ready ready⟩

/-- What new options leave of a compiler. -/
structure Renewed (setup : Setup) (before after : Compiler) : Prop where
  setup : after.setup? = some setup
  phase : after.phase = .configured
  contexts : after.contexts = []
  cache : after.workspace.cache = {}
  watches : after.workspace.watches = []
  closed : ∀ watch ∈ before.workspace.watches, after.workspace.system.Closed watch.number

theorem renewed_configure (compiler : Compiler) (setup : Setup) :
    Renewed setup compiler (compiler.configure setup) :=
  ⟨rfl, rfl, rfl, rfl, rfl, compiler.workspace.closed_of_closeWatches⟩

/-- Only new options change more of a context than its root files. -/
theorem exists_context?_run {action : Action} (same : ∀ setup, action ≠ .configure setup)
    {target : String} {context : Context} (known : compiler.context? target = some context) :
    ∃ roots, (action.run compiler).context? target = some { context with roots := roots } := by
  have sturdy : Sturdy fun compiler => compiler.fixed? target = some context.fixed :=
    sturdy_of_frame fun _ _ same fixed => (fixed?_congr same target).trans fixed
  have before : compiler.fixed? target = some context.fixed := by
    rw [fixed?, known]
    rfl
  have after : (action.run compiler).fixed? target = some context.fixed := by
    apply sturdy.run same
    split
    · exact (follows_ensureContexts compiler).kept target _ before
    · exact before
  obtain ⟨later, found, fixed⟩ := Option.map_eq_some_iff.mp after
  refine ⟨later.roots, found.trans (congrArg some ?_)⟩
  cases later
  cases context
  cases fixed
  rfl

end Compiler

section Since

open Compiler

variable {compiler : Compiler} {past : List Making}

/-- The contexts that were made since options were set, behind an action. -/
def Action.makingsBehind (past : List Making) (action : Action) (compiler : Compiler) :
    List Making :=
  match action with
  | configure _ => []
  | action => if action.ensures then past ++ compiler.makings else past

/-- The contexts that were made since options were set, behind some actions. -/
def makingsSince (past : List Making) : List Action → Compiler → List Making
  | [], _ => past
  | action :: actions, compiler =>
    makingsSince (action.makingsBehind past compiler) actions (action.run compiler)

/-- A compiler has what was made since its options were set, and it was made under these options. -/
structure Recounted (makings : List Making) (compiler : Compiler) : Prop where
  traced : Traced makings compiler
  options : ∀ making ∈ makings, making.compiler.options? = compiler.options?

theorem sturdy_recounted (past : List Making) : Sturdy (Recounted past) :=
  sturdy_of_frame fun _ _ same recounted => ⟨recounted.traced.of_frame same, fun making member =>
    (recounted.options making member).trans (congrArg (·.1) same).symm⟩

theorem Recounted.ensureContexts (recounted : Recounted past compiler) :
    Recounted (past ++ compiler.makings) (endState (compiler.ensureContexts)) := by
  have same := (follows_ensureContexts compiler).options
  refine ⟨recounted.traced.ensureContexts, fun making member => ?_⟩
  rw [same]
  rcases List.mem_append.mp member with earlier | now
  · exact recounted.options making earlier
  · exact options_of_makings making now

theorem makingsBehind_eq {action : Action} (same : ∀ setup, action ≠ .configure setup) :
    action.makingsBehind past compiler =
      if action.ensures then past ++ compiler.makings else past := by
  cases action with
  | configure setup => exact absurd rfl (same setup)
  | _ => rfl

theorem Recounted.run (recounted : Recounted past compiler) (action : Action) :
    Recounted (action.makingsBehind past compiler) (action.run compiler) := by
  by_cases sets : ∃ setup, action = .configure setup
  · obtain ⟨setup, rfl⟩ := sets
    exact ⟨fun _ => rfl, fun _ member => absurd member List.not_mem_nil⟩
  · have same : ∀ setup, action ≠ .configure setup := fun setup here => sets ⟨setup, here⟩
    rw [makingsBehind_eq same]
    apply (sturdy_recounted _).run same
    cases action.ensures with
    | true => exact recounted.ensureContexts
    | false => exact recounted

theorem Recounted.runAll (recounted : Recounted past compiler) (actions : List Action) :
    Recounted (makingsSince past actions compiler) (compiler.runAll actions) := by
  induction actions generalizing past compiler with
  | nil => exact recounted
  | cons action actions ih => exact ih (recounted.run action)

/-- A context that was made once under the options of a compiler, by activating the addons of its
target one after the other. No other context was made for the target. -/
def MadeOnce (makings : List Making) (compiler : Compiler) (target : String) (context : Context) :
    Prop :=
  ∃ before making behind made, makings = before ++ making :: behind ∧
    making.compiler.options? = compiler.options? ∧ making.target = target ∧
    making.context? = some made ∧ making.Activated made ∧ made.fixed = context.fixed ∧
    ∀ other ∈ before ++ behind, other.target = target → other.context? = none

theorem Recounted.madeOnce (recounted : Recounted past compiler) {target : String}
    {context : Context} (known : compiler.context? target = some context) :
    MadeOnce past compiler target context := by
  have made := recounted.traced target
  rw [fixed?, known, Option.map_some, Option.toList_some] at made
  obtain ⟨before, making, behind, rfl, none, fits, rest⟩ := List.filterMap_eq_cons_iff.mp made.symm
  have options := recounted.options making (by simp)
  split at fits
  · next here =>
    obtain ⟨context', found, fixed⟩ := Option.map_eq_some_iff.mp fits
    refine ⟨before, making, behind, context', rfl, options, here, found, making.spec.1 _ found,
      fixed, ?_⟩
    rintro other member same
    have failed : (if other.target = target then other.context?.map Context.fixed else .none) =
        .none := by
      rcases List.mem_append.mp member with earlier | later
      · exact none other earlier
      · exact List.filterMap_eq_nil_iff.mp rest other later
    rw [if_pos same] at failed
    exact Option.map_eq_none_iff.mp failed
  · cases fits

theorem bare_or_orderly_run (fits : compiler.Bare ∨ ∃ targets, compiler.Orderly targets)
    (action : Action) :
    (action.run compiler).Bare ∨ ∃ targets, (action.run compiler).Orderly targets := by
  by_cases sets : ∃ setup, action = .configure setup
  · obtain ⟨setup, rfl⟩ := sets
    exact .inr ⟨_, orderly_configure compiler setup⟩
  · have same : ∀ setup, action ≠ .configure setup := fun setup here => sets ⟨setup, here⟩
    rcases fits with bare | ⟨targets, orderly⟩
    · exact .inl (bare.run same)
    · exact .inr ⟨targets, orderly.run same⟩

theorem bare_or_orderly_runAll (fits : compiler.Bare ∨ ∃ targets, compiler.Orderly targets)
    (actions : List Action) :
    (compiler.runAll actions).Bare ∨ ∃ targets, (compiler.runAll actions).Orderly targets := by
  induction actions generalizing compiler with
  | nil => exact fits
  | cons action actions ih => exact ih (bare_or_orderly_run fits action)

/-- A compiler that is ready fails to handle changes only where a callback of one of its contexts
does, or with a failure of its own. -/
theorem explains_of_ready (fits : compiler.Bare ∨ ∃ targets, compiler.Orderly targets)
    (ready : compiler.phase = .ready) {failure : Failure} {next : Compiler}
    (failed : (∃ path, fileChanged path compiler = .error failure next) ∨
      drainChanges compiler = .error failure next) :
    next.Explains failure := by
  rcases fits with bare | ⟨targets, orderly⟩
  · rw [bare.phase] at ready
    cases ready
  · have equipped := orderly.equipped ready
    rcases failed with ⟨path, failed⟩ | failed
    · have ended := explained_fileChanged path compiler equipped
      rw [failed] at ended
      exact ended
    · have ended := explained_drainChanges compiler equipped
      rw [failed] at ended
      exact ended

/-- Whatever a compiler lives through, its phase, its options and its contexts belong together. Each
of its contexts was made once since the options were set, with every addon activated once and in
order, and keeps everything but its root files until there are new options. New options leave no
context, no cache and no watcher. Compiling, watching and, once the compiler is ready, the handling
of changes fail where addons or their callbacks do, or with a failure that the compiler has of its
own, which a missing context is not. -/
theorem phases (system : Files.System) (limit : Nat) (actions : List Action) :
    let start : Compiler := { Compiler.ofSystem system with rootLimit := limit }
    let compiler := start.runAll actions
    compiler.Consistent ∧
      (∀ target context, compiler.context? target = some context →
        MadeOnce (makingsSince [] actions start) compiler target context) ∧
      (∀ action : Action, (∀ setup, action ≠ .configure setup) →
        ∀ target context, compiler.context? target = some context →
          ∃ roots, (action.run compiler).context? target = some { context with roots := roots }) ∧
      (∀ setup, Renewed setup compiler ((Action.configure setup).run compiler)) ∧
      (∀ failure next,
        compile compiler = .error failure next ∨ watch compiler = .error failure next →
          compiler.Accounts next failure) ∧
      (compiler.phase = .ready → ∀ failure next,
        (∃ path, fileChanged path compiler = .error failure next) ∨
          drainChanges compiler = .error failure next →
          next.Explains failure) := by
  intro start compiler
  have fits := bare_or_orderly_runAll (.inl (bare_ofSystem system limit)) actions
  have recounted : Recounted (makingsSince [] actions start) compiler :=
    Recounted.runAll ⟨fun _ => rfl, fun _ member => absurd member List.not_mem_nil⟩ actions
  refine ⟨?_, fun _ _ known => recounted.madeOnce known, fun _ same _ _ known =>
    exists_context?_run same known, renewed_configure compiler, ?_, fun ready _ _ failed =>
    explains_of_ready fits ready failed⟩
  · rcases fits with bare | ⟨targets, orderly⟩
    · exact bare.consistent
    · exact orderly.consistent
  · rintro failure next (failed | failed)
    · exact compile_fails failed
    · exact watch_fails failed

end Since

end Recast.Build
