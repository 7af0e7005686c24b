import Recast.Proofs.Build.Incremental
import Recast.Proofs.Build.UpToDate

/-! # The first pass of watch mode

A scene is staged for a compiler when the contexts of the compiler are those of the scene. Then what
single passes keep is kept by the compiler (`Staged.moves_inContext`), and when watch mode begins
the root files of all targets that write are up to date and watched (`Staged.makes_watch`).
-/

namespace Recast.Build

open Recast.Emit Recast.Files

/-- A system that can watch opens a watcher, and still knows all others. -/
theorem exists_watch {system : System} (supports : system.supportsWatch = true) (path : Path) :
    ∃ number next, system.watch path = .ok (number, system.resolve path, next) ∧
      OpenWatch.IsKnown ⟨number, system.resolve path⟩ next ∧
      ∀ watch : OpenWatch, watch.IsKnown system → watch.IsKnown next := by
  cases system with
  | memory tree =>
    refine ⟨tree.watchers.length,
      .memory { tree with watchers := tree.watchers ++ [⟨tree.resolve path, true⟩] }, ?_, ?_,
      fun watch known => ?_⟩
    · unfold System.watch MemoryTree.watch
      dsimp only
      rw [if_pos (show tree.supportsWatch = true from supports)]
      rfl
    · exact List.getElem?_concat_length
    · obtain ⟨inside, _⟩ := List.getElem?_eq_some_iff.mp known
      exact (List.getElem?_append_left inside).trans known
  | disk tree => exact ⟨_, _, rfl, Path.isNormal_resolveFrom _ _, fun _ known => known⟩

namespace Sequel

variable {scene : Sequel} {system : System} {entry : String × Context} {path : Path}
  {listed : List Path}

/-- A scene whose contexts are those of a compiler with some options, on files of any kind: they
have the same root files, and no output is written at the place of a root file of the scene. -/
structure Staged (scene : Sequel) (system : System) (setup : Setup) (listed : List Path) : Prop
    extends scene.Orderly where
  spares : scene.Spares system
  current : system.current = scene.current
  ready : ∀ target ∈ setup.activeTargets, (scene.contexts.lookup target).isSome
  shared : ∀ entry ∈ scene.contexts, entry.2.roots = listed
  within : ∀ path ∈ listed, path.IsNormal ∧ scene.paths path

/-- A compiler with the contexts of a scene, in a workspace with some property. -/
structure Attends (scene : Sequel) (setup : Setup) (G : Workspace → Prop) (compiler : Compiler) :
    Prop where
  good : G compiler.workspace
  contexts : compiler.contexts = scene.contexts
  options : ∃ registry, compiler.setup? = some { setup with registry := registry }

/-- Steps of compilers that keep a property of workspaces and what is up to date. -/
abbrev MovesIn (scene : Sequel) (system : System) (setup : Setup) (G : Workspace → Prop) {α : Type}
    (A : α → Prop) (step : Compiling α) : Prop :=
  Moves (scene.Attends setup G) (InvImage (scene.Upholds system) Compiler.workspace) A step

/-- Whether a target writes its outputs. -/
def writes (scene : Sequel) (target : String) : Bool :=
  (scene.contexts.lookup target).any (·.writesFiles)

section Attending

variable {setup : Setup} {G : Workspace → Prop} {compiler : Compiler} {target : String}

theorem mem_of_lookup {context : Context} (known : scene.contexts.lookup target = some context) :
    (target, context) ∈ scene.contexts := by
  obtain ⟨before, behind, spelled, _⟩ := List.lookup_eq_some_iff.mp known
  simp [spelled]

theorem Attends.mem_of_context? (attends : scene.Attends setup G compiler) {context : Context}
    (known : compiler.context? target = some context) : (target, context) ∈ scene.contexts :=
  mem_of_lookup (attends.contexts ▸ known)

/-- What is not about files, entries, trees and watchers does not matter. -/
theorem Sustains.of_eq (sustains : scene.Sustains system G) {workspace other : Workspace}
    (good : G workspace) (same : other.system = workspace.system)
    (cache : other.cache = workspace.cache) (service : other.service = workspace.service)
    (watches : other.watches = workspace.watches) :
    G other ∧ scene.Upholds system workspace other := by
  have stands := sustains.stands workspace good
  refine ⟨sustains.kept workspace other good same cache (service ▸ stands.service) watches,
    (stands.upholds_of_eq (same ▸ .refl _) (by rw [same]) cache (service ▸ stands.service) ?_
      fun _ isOpen => watches ▸ isOpen).2⟩
  rw [same, watches]
  exact stands.watches

theorem moves_modifyWorkspace {f : Workspace → Workspace}
    (kept : ∀ workspace, G workspace →
      G (f workspace) ∧ scene.Upholds system workspace (f workspace)) :
    scene.MovesIn system setup G (fun _ => True) (Compiler.modifyWorkspace f) :=
  Moves.modify fun compiler attends =>
    have later := kept compiler.workspace attends.good
    ⟨⟨later.1, attends.contexts, attends.options⟩, later.2⟩

theorem moves_status (sustains : scene.Sustains system G) (message : String) :
    scene.MovesIn system setup G (fun _ => True) (Compiler.status message) := by
  refine Moves.get_bind fun compiler _ => ?_
  split
  · exact moves_modifyWorkspace fun workspace good => sustains.of_eq good rfl rfl rfl rfl
  · exact .pure trivial

theorem moves_setup : scene.MovesIn system setup G
    (fun options => options.activeTargets = setup.activeTargets) Compiler.setup := by
  intro compiler options later attends ran
  obtain ⟨registry, configured⟩ := attends.options
  obtain ⟨known, rfl⟩ := Compiler.setup_eq_ok_iff.mp ran
  cases configured.symm.trans known
  exact ⟨attends, .refl _, rfl⟩

theorem moves_context (target : String) : scene.MovesIn system setup G
    (fun context => scene.contexts.lookup target = some context) (Compiler.context target) := by
  intro compiler context later attends ran
  obtain ⟨known, rfl⟩ := Compiler.context_eq_ok_iff.mp ran
  exact ⟨attends, .refl _, attends.contexts ▸ known⟩

theorem moves_writingTargets : scene.MovesIn system setup G
    (· = setup.activeTargets.filter scene.writes) Compiler.writingTargets := by
  refine moves_setup.bind fun options same => ?_
  rw [same]
  refine Moves.filterM fun target _ => (moves_context target).bind fun context known => .pure ?_
  rw [writes, known]
  rfl

namespace Staged

variable (staged : scene.Staged system setup listed)

include staged

/-- Steps in the context of a target keep what they keep of sessions. -/
theorem moves_inContext {α : Type} {A : α → Prop} {step : Context → Step α}
    (each : ∀ entry ∈ scene.contexts, scene.MovesOn system G listed A (step entry.2)) :
    scene.MovesIn system setup G A (Compiler.inContext target step) := by
  intro compiler a later attends ran
  obtain ⟨context, session, known, stepped, rfl⟩ := Compiler.exists_of_inContext_eq_ok ran
  have member := attends.mem_of_context? known
  obtain ⟨⟨good, roots⟩, upholds, answered⟩ :=
    each _ member _ _ _ ⟨attends.good, staged.shared _ member⟩ stepped
  refine ⟨⟨good, ?_, attends.options⟩, upholds, answered⟩
  refine (Compiler.updateContext_roots (fun entry known' => ?_) target).trans attends.contexts
  rw [roots]
  exact staged.shared entry (attends.contexts ▸ known')

/-- What a step makes true of its context is true of the entry of its target. -/
theorem makes_inContext {α : Type} {Q : String × Context → Workspace → Prop}
    {step : Context → Step α}
    (each : ∀ entry ∈ scene.contexts,
      Makes (Within G listed) (fun session => Q entry session.workspace) (step entry.2)) :
    Makes (scene.Attends setup G)
      (fun compiler => ∀ entry ∈ scene.contexts, entry.1 = target → Q entry compiler.workspace)
      (Compiler.inContext target step) := by
  intro compiler a later attends ran entry member named
  obtain ⟨context, session, known, stepped, rfl⟩ := Compiler.exists_of_inContext_eq_ok ran
  obtain rfl := staged.unique entry member _ (attends.mem_of_context? known) named
  exact each entry member _ _ _ ⟨attends.good, staged.shared entry member⟩ stepped

theorem moves_ensureContexts :
    scene.MovesIn system setup G (fun _ => True) Compiler.ensureContexts := by
  intro compiler _ later attends ran
  obtain ⟨registry, configured⟩ := attends.options
  have known : ∀ target ∈ { setup with registry := registry }.activeTargets,
      (compiler.context? target).isSome := by
    intro target active
    rw [Compiler.context?, attends.contexts]
    exact staged.ready target active
  rw [Compiler.run_ensureContexts_of_ready configured known] at ran
  cases ran
  exact ⟨⟨attends.good, attends.contexts, attends.options⟩, .refl _, trivial⟩

section Passing

variable (sustains : scene.Sustains system G)

include sustains

theorem moves_compileTarget (target : String) (force : Bool) :
    scene.MovesIn system setup G (fun _ => True) (Compiler.compileTarget target force) :=
  Moves.get_bind fun compiler _ => staged.moves_inContext fun _ member =>
    moves_compileAll staged.toOrderly staged.spares sustains member
      (fun path known => (staged.within path known).2) compiler.rootLimit force

theorem moves_passes (targets : List String) (force : Bool) (result : PassResult) :
    scene.MovesIn system setup G (fun _ => True) (targets.foldlM
      (fun result target => return result.merge (← Compiler.compileTarget target force)) result) :=
  Moves.foldlM (B := fun _ => True) (fun _ _ target _ =>
    (staged.moves_compileTarget sustains target force).bind fun _ _ => .pure trivial) trivial

/-- What a build does once there are contexts. -/
theorem moves_compileTargets : scene.MovesIn system setup G (fun _ => True) (do
    let targets := (← Compiler.setup).activeTargets
    let result ← targets.foldlM
      (fun result target => return result.merge (← Compiler.compileTarget target false))
      ({} : PassResult)
    return { result with skipped := result.skipped || targets.isEmpty }) :=
  moves_setup.bind fun options _ =>
    (staged.moves_passes sustains options.activeTargets false {}).bind fun _ _ => .pure trivial

theorem moves_compile : scene.MovesIn system setup G (fun _ => True) Compiler.compile :=
  staged.moves_ensureContexts.bind fun _ _ => staged.moves_compileTargets sustains

theorem moves_compileFile (target : String) (compiled : scene.paths path) (force : Bool) :
    scene.MovesIn system setup G (fun _ => True) (Compiler.compileFile target path force) :=
  staged.moves_inContext fun _ member =>
    Sequel.moves_compileFile staged.toOrderly staged.spares sustains member compiled force

end Passing

end Staged

/-- The root files under a target, up to date. -/
def Current (scene : Sequel) (system : System) (target : String) (workspace : Workspace) : Prop :=
  ∀ entry ∈ scene.contexts, entry.1 = target → ∀ root ∈ scene.roots,
    scene.UpToDate system entry root workspace

theorem Upholds.current {workspace other : Workspace}
    (upholds : scene.Upholds system workspace other)
    (current : scene.Current system target workspace) : scene.Current system target other :=
  fun entry member named root isRoot =>
    upholds.upToDate entry member root isRoot (current entry member named root isRoot)

/-- Open watchers of all root files. -/
def Watched (scene : Sequel) (workspace : Workspace) : Prop :=
  ∀ root ∈ scene.roots, (workspace.watches.any (·.path.same root)) = true

theorem Upholds.allWatched {workspace other : Workspace}
    (upholds : scene.Upholds system workspace other) (watched : scene.Watched workspace) :
    scene.Watched other := fun root isRoot => upholds.watched root (watched root isRoot)

/-- Closing all watchers touches no file. -/
theorem Stands.of_closeWatches {workspace : Workspace} (stands : scene.Stands system workspace) :
    scene.Stands system workspace.closeWatches := by
  obtain ⟨like, stored⟩ := workspace.system.closeAll_spec (workspace.watches.map (·.number))
  rw [List.foldl_map] at like stored
  refine ⟨like.trans stands.like, fun root isRoot source read => ?_, stands.recorded,
    stands.service, fun _ none => absurd none List.not_mem_nil⟩
  exact stands.sources root isRoot source ((System.read_congr like (congrFun stored root)).mp read)

/-- Watching a file opens a watcher of it, unless there is one. -/
theorem Stands.of_watchRoot {workspace : Workspace} (stands : scene.Stands system workspace)
    (supports : system.supportsWatch = true) (path : Path) :
    scene.Stands system (workspace.watchRoot path) ∧
      scene.Upholds system workspace (workspace.watchRoot path) ∧
      (system.resolve path = path →
        ((workspace.watchRoot path).watches.any (·.path.same path)) = true) := by
  unfold Workspace.watchRoot Workspace.watch
  cases isOpen : workspace.watches.any (·.path.same path) with
  | true => exact ⟨stands, .refl _, fun _ => isOpen⟩
  | false =>
    obtain ⟨number, next, opened, known, others⟩ :=
      exists_watch (stands.like.supportsWatch.trans supports) path
    obtain ⟨_, like, stored⟩ := System.watch_eq_ok opened
    rw [if_neg Bool.false_ne_true, opened]
    dsimp only
    have kept (opened : OpenWatch) (known : opened.IsKnown next) :
        scene.Stands system
            { workspace with system := next, watches := workspace.watches ++ [opened] } ∧
          scene.Upholds system workspace
            { workspace with system := next, watches := workspace.watches ++ [opened] } := by
      refine stands.upholds_of_eq like stored rfl stands.service (fun watch member => ?_)
        fun watch member => List.mem_append_left _ member
      rcases List.mem_append.mp member with before | last
      · exact others watch (stands.watches watch before)
      · rw [List.mem_singleton.mp last]
        exact known
    refine ⟨(kept _ known).1, (kept _ known).2, fun resolved => ?_⟩
    rw [stands.like.resolve, resolved]
    simp

namespace Staged

section Watching

variable (staged : scene.Staged system setup scene.roots)

include staged

/-- A forced pass over targets makes all of their root files up to date. -/
theorem makes_passes (sustains : scene.Sustains system G) (targets : List String)
    (result : PassResult) :
    Makes (scene.Attends setup G)
      (fun compiler => ∀ target ∈ targets, scene.Current system target compiler.workspace)
      (targets.foldlM
        (fun result target => return result.merge (← Compiler.compileTarget target true))
        result) := by
  have passes (target : String) (result : PassResult) :
      scene.MovesIn system setup G (fun _ => True)
        (do return result.merge (← Compiler.compileTarget target true)) :=
    (staged.moves_compileTarget sustains target true).bind fun _ _ => .pure trivial
  refine Makes.foldlM (B := fun _ => True)
    (Q := fun target compiler => scene.Current system target compiler.workspace)
    (fun result _ target _ => passes target result) (fun result _ target _ => ?_)
    (fun target _ _ _ upholds => upholds.current) trivial
  refine Makes.bind_left (staged.moves_compileTarget sustains target true)
    (Makes.get_bind fun compiler _ => ?_) (fun pass _ => Moves.pure (A := fun _ => True) trivial)
    fun _ _ _ upholds => upholds.current
  exact staged.makes_inContext
    (Q := fun entry workspace => ∀ root ∈ scene.roots,
      scene.UpToDate system entry root workspace)
    fun _ member =>
      makes_compileAll staged.toOrderly staged.spares sustains member compiler.rootLimit

variable (supports : system.supportsWatch = true)

include supports

omit staged in
private theorem moves_watchRoot (path : Path) :
    scene.MovesIn system setup (scene.Stands system) (fun _ => True)
      (Compiler.modifyWorkspace (·.watchRoot path)) :=
  moves_modifyWorkspace fun _ stands =>
    have kept := stands.of_watchRoot supports path
    ⟨kept.1, kept.2.1⟩

omit staged in
private theorem moves_watchRoots (target : String) :
    scene.MovesIn system setup (scene.Stands system) (fun _ => True) (do
      (← Compiler.context target).roots.forM fun path =>
        Compiler.modifyWorkspace (·.watchRoot path)) :=
  (moves_context target).bind fun _ _ => .forM fun path _ => moves_watchRoot supports path

private theorem makes_watchRoots (resolved : ∀ root ∈ scene.roots, system.resolve root = root)
    (target : String) :
    Makes (scene.Attends setup (scene.Stands system))
      (fun compiler => scene.Watched compiler.workspace) (do
      (← Compiler.context target).roots.forM fun path =>
        Compiler.modifyWorkspace (·.watchRoot path)) := by
  have found : scene.MovesIn system setup (scene.Stands system)
      (fun context => scene.contexts.lookup target = some context) (Compiler.context target) :=
    moves_context target
  refine Makes.bind found fun context known => ?_
  rw [staged.shared _ (mem_of_lookup known)]
  refine Makes.forM (fun path _ => moves_watchRoot supports path) (fun path isRoot => ?_)
    fun path _ _ _ upholds => upholds.watched path
  intro compiler _ later attends ran
  cases ran
  exact (attends.good.of_watchRoot supports path).2.2 (resolved path isRoot)

/-- What is done once the targets are compiled. -/
private def startWatching (result : PassResult) : Compiling PassResult := do
  if (← get).workspace.system.supportsWatch then
    (← Compiler.setup).activeTargets.forM fun target => do
      (← Compiler.context target).roots.forM fun path =>
        Compiler.modifyWorkspace (·.watchRoot path)
    Compiler.status (Compiler.foundErrors result)
    return result
  else
    Compiler.modifyWorkspace (·.report Compiler.watchUnsupported)
    return { result with diagnostics := result.diagnostics ++ [Compiler.watchUnsupported] }

omit staged supports in
private theorem watch_eq : Compiler.watch = (do
    Compiler.ensureContexts
    let result ← (← Compiler.writingTargets).foldlM
      (fun result target => return result.merge (← Compiler.compileTarget target true)) {}
    startWatching result) := rfl

private theorem moves_startWatching (result : PassResult) :
    scene.MovesIn system setup (scene.Stands system) (fun _ => True) (startWatching result) := by
  refine Moves.get_bind fun compiler attends => ?_
  rw [if_pos (attends.good.like.supportsWatch.trans supports)]
  exact moves_setup.bind fun options _ =>
    (Moves.forM fun target _ => moves_watchRoots supports target).bind fun _ _ =>
      (moves_status (sustains_stands staged.toOrderly staged.spares) _).bind fun _ _ =>
        .pure trivial

private theorem makes_startWatching (resolved : ∀ root ∈ scene.roots, system.resolve root = root)
    (result : PassResult) :
    Makes (scene.Attends setup (scene.Stands system))
      (fun compiler => ∀ target ∈ setup.activeTargets, scene.Watched compiler.workspace)
      (startWatching result) := by
  have sustains := sustains_stands staged.toOrderly staged.spares
  refine Makes.get_bind fun compiler attends => ?_
  rw [if_pos (attends.good.like.supportsWatch.trans supports)]
  have asked : scene.MovesIn system setup (scene.Stands system)
      (fun options => options.activeTargets = setup.activeTargets) Compiler.setup := moves_setup
  refine Makes.bind asked fun options same => ?_
  rw [same]
  refine Makes.bind_left (Moves.forM fun target _ => moves_watchRoots supports target)
    (Makes.forM (Q := fun _ compiler => scene.Watched compiler.workspace)
      (fun target _ => moves_watchRoots supports target)
      (fun target _ => staged.makes_watchRoots supports resolved target)
      fun target _ _ _ upholds => upholds.allWatched)
    (fun _ _ => (moves_status sustains _).bind fun _ _ => Moves.pure (A := fun _ => True) trivial)
    fun _ _ _ upholds watched target active => upholds.allWatched (watched target active)

theorem moves_watch :
    scene.MovesIn system setup (scene.Stands system) (fun _ => True) Compiler.watch := by
  have sustains := sustains_stands staged.toOrderly staged.spares
  rw [watch_eq]
  exact staged.moves_ensureContexts.bind fun _ _ => moves_writingTargets.bind fun targets _ =>
    (staged.moves_passes sustains targets true {}).bind fun result _ =>
      staged.moves_startWatching supports result

/-- When watch mode begins, the root files of all targets that write are up to date and watched. -/
theorem makes_watch (resolved : ∀ root ∈ scene.roots, system.resolve root = root) :
    Makes (scene.Attends setup (scene.Stands system))
      (fun compiler => ∀ target ∈ setup.activeTargets, scene.Watched compiler.workspace ∧
        (scene.writes target = true → scene.Current system target compiler.workspace))
      Compiler.watch := by
  have sustains := sustains_stands staged.toOrderly staged.spares
  have asked : scene.MovesIn system setup (scene.Stands system)
      (· = setup.activeTargets.filter scene.writes) Compiler.writingTargets := moves_writingTargets
  intro compiler result later attends ran target active
  rw [watch_eq] at ran
  constructor
  · exact Makes.bind staged.moves_ensureContexts (fun _ _ => Makes.bind asked fun targets _ =>
      Makes.bind (staged.moves_passes sustains targets true {}) fun result _ =>
        staged.makes_startWatching supports resolved result)
      compiler result later attends ran target active
  · intro writes
    refine Makes.bind staged.moves_ensureContexts (fun _ _ => Makes.bind asked fun targets same =>
      Makes.bind_left (Q := fun compiler => scene.Current system target compiler.workspace)
        (staged.moves_passes sustains targets true {}) (fun compiler result later attends ran => ?_)
        (fun result _ => staged.moves_startWatching supports result)
        fun _ _ _ upholds => upholds.current) compiler result later attends ran
    exact staged.makes_passes sustains targets {} compiler result later attends ran target
      (same ▸ List.mem_filter.mpr ⟨active, writes⟩)

end Watching

end Staged

end Attending

end Sequel

end Recast.Build
