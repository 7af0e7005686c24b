import Recast.Proofs.Build.Activating
import Recast.Proofs.Build.Passes

/-! # Incremental compilation is clean compilation

A compiler that has lived through edits, compilations and handled changes compiles as one that knows
nothing (`compile_eq_fresh`). Its addons must be pure, its outputs must not hit root files, and a
root file that is compiled on its own must be given under the spelling that the compiler has for it:
under another one the outputs that are kept for it are named after that one.
-/

namespace Recast.Build

open Recast.Emit Recast.Files

/-- An addon that registers processors and transformers which only compute. -/
structure Addon.IsPure (addon : Addon) : Prop extends addon.Registers where
  pure : ∀ context : Context, context.IsPure → (addon.register context).IsPure

/-- An edit that writes a file. -/
def writing (path : Path) (text : String) (system : System) : System :=
  (system.write path text).1

/-- An edit that removes a file. Files on a disk are removed by others. -/
def removing (path : Path) : System → System
  | .memory tree => .memory (tree.remove path)
  | .disk tree => .disk tree

/-- What may happen between two passes: edits, compilations, and handled changes. -/
def Action.IsRound : Action → Prop
  | edit change => (∃ path text, change = writing path text) ∨ ∃ path, change = removing path
  | ensureContexts | compile | compileFile _ _ _ | fileChanged _ => True
  | notify _ _ | configure _ | watch | drainChanges | runWatch _ | closeWatches => False

namespace Setup

/-- The root files that the configuration lists. -/
def listed (setup : Setup) (tree : MemoryTree) : List Path :=
  setup.project.listedRoots (.memory tree) setup.projectRoot

/-- The scene of a run that begins with some files: root files have the texts that they have there
or that are written, and the files that are compiled are root files, those that are given, and those
that depend on others. -/
def scene (setup : Setup) (tree : MemoryTree) (actions : List Action) : Scene where
  current := tree.current
  supportsWatch := tree.supportsWatch
  contexts := setup.contextsOf (.memory tree) (setup.listed tree) setup.activeTargets
  roots := setup.listed tree
  sources text := (∃ root ∈ setup.listed tree, tree.read root = .ok text) ∨
    ∃ path, .edit (writing path text) ∈ actions
  paths path := path ∈ setup.listed tree ∨
    (∃ target force, .compileFile target path force ∈ actions) ∨
    ∃ dependents changed, setup.dependents? = some dependents ∧
      ∃ file ∈ dependents changed, path = (setup.projectRoot.join file).resolveFrom tree.current

variable {setup : Setup} {tree : MemoryTree} {actions : List Action}

theorem isNormal_of_mem_listed {root : Path} (member : root ∈ setup.listed tree) :
    root.IsNormal := by
  obtain ⟨file, _, rfl⟩ := List.mem_map.mp (mem_of_mem_distinct member)
  exact Path.isNormal_resolveFrom _ _

theorem registers_of_isPure (pure : setup.registry.All Addon.IsPure) :
    setup.registry.All Addon.Registers :=
  ⟨fun name addon member => (pure.1 name addon member).toRegisters,
    fun system name path addon loaded => (pure.2 system name path addon loaded).toRegisters⟩

/-- The contexts of pure addons are pure, and what else a scene needs of them holds of all
contexts. -/
theorem orderly_of_contexts {scene : Scene} {system : System} {roots : List Path}
    (pure : setup.registry.All Addon.IsPure)
    (contexts : scene.contexts = setup.contextsOf system roots setup.activeTargets)
    (normal : ∀ root ∈ scene.roots, root.IsNormal)
    (compiled : ∀ root ∈ scene.roots, scene.paths root)
    (dependents : ∀ dependents, setup.dependents? = some dependents → ∀ changed,
      ∀ file ∈ dependents changed,
        scene.paths ((setup.projectRoot.join file).resolveFrom scene.current))
    (spelled : ∀ path, scene.paths path → ∀ root ∈ scene.roots, path.same root = true → path = root)
    (digests : ∀ root ∈ scene.roots, ∀ text other, scene.texts root text → scene.texts root other →
      Digest.of text = Digest.of other → text = other) :
    scene.Orderly := by
  have registers := registers_of_isPure pure
  have made : ∀ entry ∈ scene.contexts, entry.2 = setup.contextOf system roots entry.1 := by
    intro entry member
    rw [contexts] at member
    obtain ⟨target, _, rfl⟩ := List.mem_map.mp member
    rfl
  have scope : ∀ entry ∈ scene.contexts, entry.2.toScope = setup.scope system entry.1 :=
    fun entry member => by rw [made entry member, contextOf_toScope registers]
  have isPure : ∀ entry ∈ scene.contexts, entry.2.IsPure := by
    intro entry member
    rw [made entry member]
    exact contextOf_induction pure (fun addon good => good.pure) _ _ _
      ⟨rfl, by simp, by simp [TransformerSet.all], rfl, rfl, rfl⟩
  constructor
  case unique =>
    intro entry member other member' same
    rw [made entry member, made other member', same]
  case target => exact fun entry member => by rw [scope entry member]; rfl
  case pure => exact isPure
  case keeps =>
    intro entry member
    have bare := (governs_keepsCache.bare setup system entry.1 []).watch
    refine (isPure entry member).keepsCache ?_
    rw [scope entry member]
    exact bare
  case normal => exact normal
  case compiled => exact compiled
  case dependents =>
    intro entry member
    rw [scope entry member]
    exact dependents
  case spelled => exact spelled
  case digests => exact digests

/-- The scene of a run is fair if the addons are pure. -/
theorem fair_scene (pure : setup.registry.All Addon.IsPure)
    (spelled : ∀ target path force, .compileFile target path force ∈ actions →
      ∀ root ∈ setup.listed tree, path.same root = true → path = root)
    (apart : ∀ entry ∈ (setup.scene tree actions).contexts, ∀ path,
      (setup.scene tree actions).paths path → ∀ text, ∀ file ∈ (entry.2.emission path text).files,
      ∀ root ∈ setup.listed tree,
        (tree.resolve root).same (tree.resolve file.name) = false)
    (digests : ∀ root ∈ setup.listed tree, ∀ text other,
      (setup.scene tree actions).texts root text →
      (setup.scene tree actions).texts root other → Digest.of text = Digest.of other →
        text = other) :
    (setup.scene tree actions).Fair := by
  refine ⟨orderly_of_contexts pure rfl (fun root member => isNormal_of_mem_listed member)
    (fun root member => .inl member) ?_ ?_ digests, ?_, apart⟩
  · exact fun dependents told changed file known =>
      .inr (.inr ⟨dependents, changed, told, file, known, rfl⟩)
  · rintro path (known | ⟨target, force, given⟩ | ⟨_, _, _, file, _, rfl⟩) root member same
    · exact (isNormal_of_mem_listed known).eq_of_same (isNormal_of_mem_listed member) same
    · exact spelled target path force given root member same
    · exact (Path.isNormal_resolveFrom _ _).eq_of_same (isNormal_of_mem_listed member) same
  · intro entry member
    obtain ⟨target, _, rfl⟩ := List.mem_map.mp member
    exact contextOf_roots (registers_of_isPure pure) ..

end Setup

namespace Scene

variable {scene : Scene}

/-- The files that are compiled when a resolved path changes are files of the scene. -/
theorem Orderly.paths_of_affected (orderly : scene.Orderly) {entry : String × Context}
    (member : entry ∈ scene.contexts)
    (rooted : ∀ root ∈ entry.2.roots, root.IsNormal ∧ scene.paths root) {workspace : Workspace}
    (current : workspace.system.current = scene.current) {changed : Path}
    (normal : changed.IsNormal) :
    ∀ path ∈ Compiler.affected entry.2 workspace changed, scene.paths path := by
  intro path affected
  unfold Compiler.affected at affected
  split at affected
  · split at affected
    · next isRoot =>
      rw [List.mem_singleton.mp affected]
      obtain ⟨root, known, same⟩ := List.any_eq_true.mp isRoot
      obtain ⟨spelled, listed⟩ := rooted root known
      rw [normal.eq_of_same spelled (Path.same_symm same)]
      exact listed
    · simp at affected
  · obtain ⟨file, dependent, rfl⟩ := List.mem_map.mp affected
    unfold Context.dependents at dependent
    rw [(orderly.pure entry member).resolvers] at dependent
    have told := mem_of_mem_distinct dependent
    rw [List.flatMap_nil, List.append_nil] at told
    cases dependents : entry.2.dependents? with
    | none => simp [dependents] at told
    | some dependents' =>
      rw [dependents] at told
      have listed := orderly.dependents entry member dependents' dependents changed file told
      rwa [← current] at listed

/-- What is not about files, cache and service does not matter. -/
theorem Sound.of_eq {workspace other : Workspace} (sound : scene.Sound workspace)
    (system : other.system = workspace.system) (cache : other.cache = workspace.cache)
    (service : other.service = workspace.service) : scene.Sound other :=
  ⟨system ▸ sound.memory, system ▸ sound.sources, cache ▸ sound.entries, service ▸ sound.service⟩

/-- A compiler in a scene: its workspace is sound, and it has no contexts or those of the scene. -/
structure Lives (scene : Scene) (setup : Setup) (compiler : Compiler) : Prop where
  sound : scene.Sound compiler.workspace
  state : compiler.contexts = [] ∧ compiler.setup? = some setup ∨
    compiler.contexts = scene.contexts ∧
      ∃ registry, compiler.setup? = some { setup with registry := registry }

namespace Lives

variable {setup : Setup} {compiler : Compiler}

theorem of_eq (lives : scene.Lives setup compiler) {other : Compiler}
    (sound : scene.Sound other.workspace) (contexts : other.contexts = compiler.contexts)
    (same : other.setup? = compiler.setup?) :
    scene.Lives setup other := by
  refine ⟨sound, ?_⟩
  rw [contexts, same]
  exact lives.state

theorem mem_of_context? (lives : scene.Lives setup compiler) {target : String} {context : Context}
    (known : compiler.context? target = some context) : (target, context) ∈ scene.contexts := by
  obtain ⟨before, behind, spelled, _⟩ := List.lookup_eq_some_iff.mp known
  rcases lives.state with ⟨bare, _⟩ | ⟨ready, _⟩
  · simp [bare] at spelled
  · rw [← ready, spelled]
    simp

/-- A step in the context of a target that follows a sound session. -/
theorem run_inContext (fair : scene.Fair) (lives : scene.Lives setup compiler) {α : Type}
    {target : String} {context : Context} (known : compiler.context? target = some context)
    (step : Context → Step α) (each : ∀ session, scene.Sound session.workspace →
      session.roots = scene.roots →
      ∃ a later, step context session = .ok a later ∧ scene.Follows session later) :
    ∃ a later, step context ⟨compiler.workspace, scene.roots⟩ = .ok a later ∧
      scene.Follows ⟨compiler.workspace, scene.roots⟩ later ∧
      Compiler.inContext target step compiler =
        .ok a { compiler with workspace := later.workspace } := by
  have member := lives.mem_of_context? known
  obtain ⟨a, later, ran, follows⟩ := each ⟨compiler.workspace, scene.roots⟩ lives.sound rfl
  refine ⟨a, later, ran, follows, ?_⟩
  have roots : ∀ entry ∈ compiler.contexts, entry.2.roots = later.roots := by
    rw [follows.roots]
    rcases lives.state with ⟨bare, _⟩ | ⟨ready, _⟩
    · simp [bare]
    · rw [ready]
      exact fair.roots
  rw [Compiler.run_inContext, known]
  dsimp only
  rw [fair.roots _ member, ran]
  dsimp only
  unfold Compiler.absorb
  rw [Compiler.updateContext_roots roots]

theorem preserves_inContext (fair : scene.Fair) {α : Type} (target : String)
    {step : Context → Step α}
    (each : ∀ entry ∈ scene.contexts, ∀ session, scene.Sound session.workspace →
      session.roots = scene.roots →
      ∃ a later, step entry.2 session = .ok a later ∧ scene.Follows session later) :
    Preserves (scene.Lives setup) (Compiler.inContext target step) := by
  intro compiler lives
  cases known : compiler.context? target with
  | none =>
    rw [Compiler.run_inContext, known]
    exact lives
  | some context =>
    obtain ⟨a, later, _, follows, ran⟩ := lives.run_inContext fair known step
      (each (target, context) (lives.mem_of_context? known))
    rw [ran]
    exact lives.of_eq follows.sound rfl rfl

theorem preserves_status (message : String) :
    Preserves (scene.Lives setup) (Compiler.status message) := by
  refine Preserves.get.bind fun compiler => ?_
  split
  · exact Preserves.modify fun compiler lives => lives.of_eq (lives.sound.of_eq rfl rfl rfl) rfl rfl
  · exact Preserves.pure _

theorem preserves_compileFile (fair : scene.Fair) (target : String) {path : Path}
    (listed : scene.paths path) (force : Bool) :
    Preserves (scene.Lives setup) (Compiler.compileFile target path force) :=
  preserves_inContext fair target fun _ member _ sound _ =>
    let ⟨emission, later, ran, follows, _⟩ := compileFile_spec fair member listed sound force
    ⟨emission, later, ran, follows⟩

theorem preserves_targetChanged (fair : scene.Fair) {changed : Path} (normal : changed.IsNormal)
    (result : PassResult) (target : String) :
    Preserves (scene.Lives setup) (Compiler.targetChanged changed result target) := by
  intro compiler lives
  rw [Compiler.run_targetChanged]
  cases known : compiler.context? target with
  | none => exact lives
  | some context =>
    dsimp only
    split
    · exact lives
    · have member := lives.mem_of_context? known
      obtain ⟨tree, memory, current, _⟩ := lives.sound.memory
      have listed := fair.paths_of_affected member
        (fun root isRoot => by
          rw [fair.roots _ member] at isRoot
          exact ⟨fair.normal root isRoot, fair.compiled root isRoot⟩)
        (by rw [memory]; exact current) normal
      have refreshed : Preserves (scene.Lives setup) (Compiler.inContext target fun context' =>
          Compiler.refreshAll context' compiler.rootLimit
            (Compiler.affected context compiler.workspace changed)) :=
        preserves_inContext fair target fun _ member _ sound _ =>
          refreshAll_spec fair member sound listed _
      exact (refreshed.bind fun pass => Preserves.pure (result.merge pass)) compiler lives

theorem preserves_fileChanged (fair : scene.Fair) (path : Path) :
    Preserves (scene.Lives setup) (Compiler.fileChanged path) := by
  refine Preserves.get.bind fun compiler => (preserves_status _).bind fun _ =>
    Compiler.preserves_writingTargets.bind fun _ => ?_
  refine (Preserves.foldlM (fun result target _ => ?_) _).bind fun result =>
    (preserves_status _).bind fun _ => Preserves.pure _
  exact preserves_targetChanged fair (Path.isNormal_resolveFrom _ _) result target

end Lives

end Scene

namespace Setup

variable {setup : Setup} {tree : MemoryTree} {actions : List Action} {compiler : Compiler}

/-- The context of a target in the scene of a run. -/
def sceneContext (setup : Setup) (tree : MemoryTree) (target : String) : Context :=
  setup.contextOf (.memory tree) (setup.listed tree) target

/-- Modules are what they were in the beginning. -/
def Steady (setup : Setup) (tree : MemoryTree) (system : System) : Prop :=
  ∀ name path, setup.registry.resolve system name path =
    setup.registry.resolve (.memory tree) name path

theorem ensureContexts_spec (includes : setup.project.includes = [])
    (registers : setup.registry.All Addon.Registers)
    (lives : (setup.scene tree actions).Lives setup compiler)
    (steady : setup.Steady tree compiler.workspace.system) :
    ∃ next, Compiler.ensureContexts compiler = .ok () next ∧
      (setup.scene tree actions).Lives setup next ∧
      next.contexts = (setup.scene tree actions).contexts ∧
      next.workspace.system = compiler.workspace.system := by
  rcases lives.state with ⟨bare, configured⟩ | ⟨ready, registry, configured⟩
  · obtain ⟨tree', memory, current, watches⟩ := lives.sound.memory
    have found : setup.project.rootFiles compiler.workspace.system setup.projectRoot =
        .ok (setup.listed tree) := by
      unfold Project.rootFiles
      rw [includes, List.foldlM_nil, memory]
      unfold listed Project.listedRoots
      have resolve (file : Path) : (System.memory tree').resolve file =
          (System.memory tree).resolve file := by
        change file.resolveFrom tree'.current = file.resolveFrom tree.current
        rw [current]
        rfl
      simp only [resolve]
      rfl
    obtain ⟨registry, reports, ran⟩ := Compiler.run_ensureContexts configured bare found registers
    have contexts : setup.contextsOf compiler.workspace.system (setup.listed tree)
        setup.activeTargets =
        (setup.scene tree actions).contexts := by
      refine List.map_congr_left fun target _ => ?_
      rw [contextOf_congr (by rw [memory]; exact current) (by rw [memory]; exact watches) steady]
    rw [contexts] at ran
    exact ⟨_, ran, ⟨lives.sound.of_eq rfl rfl rfl, .inr ⟨rfl, registry, rfl⟩⟩, rfl, rfl⟩
  · have known : ∀ target ∈ setup.activeTargets, (compiler.context? target).isSome := by
      intro target member
      rw [Compiler.context?, ready]
      change ((setup.contextsOf _ _ _).lookup target).isSome
      rw [Compiler.lookup_contextsOf, if_pos member]
      rfl
    refine ⟨_, Compiler.run_ensureContexts_of_ready configured known, ?_, ready, rfl⟩
    exact lives.of_eq (lives.sound.of_eq rfl rfl rfl) rfl rfl

/-- Passes over targets, one after the other, give what clean passes give. -/
theorem passes_spec (fair : (setup.scene tree actions).Fair)
    (lives : (setup.scene tree actions).Lives setup compiler)
    (ready : compiler.contexts = (setup.scene tree actions).contexts) {targets : List String}
    (active : ∀ target ∈ targets, target ∈ setup.activeTargets) (result : PassResult) :
    ∃ result' next, Compiler.passes targets result compiler = .ok result' next ∧
      (setup.scene tree actions).Lives setup next ∧
      result'.files = result.files ++ targets.flatMap (fun target =>
        (setup.sceneContext tree target).cleanFiles compiler.workspace.system (setup.listed tree)) ∧
      result'.skipped = (result.skipped || targets.any fun target =>
        (setup.sceneContext tree target).cleanSkipped compiler.workspace.system
          (setup.listed tree)) := by
  induction targets generalizing compiler result with
  | nil => exact ⟨result, compiler, rfl, lives, by simp, by simp⟩
  | cons target targets ih =>
    have known : compiler.context? target = some (setup.sceneContext tree target) := by
      rw [Compiler.context?, ready]
      exact (Compiler.lookup_contextsOf ..).trans (if_pos (active target (List.mem_cons_self ..)))
    have member := lives.mem_of_context? known
    let session : Session := ⟨compiler.workspace, (setup.scene tree actions).roots⟩
    have each (session : Session) (sound : (setup.scene tree actions).Sound session.workspace)
        (roots : session.roots = (setup.scene tree actions).roots) :=
      Scene.compileAll_spec fair member sound roots compiler.rootLimit false
    obtain ⟨pass, later, compiled, follows, ran⟩ := lives.run_inContext fair known
      (fun context => context.compileAll compiler.rootLimit false) (by
        intro session sound roots
        obtain ⟨pass, later, ran, follows, _⟩ := each session sound roots
        exact ⟨pass, later, ran, follows⟩)
    obtain ⟨pass', later', compiled', _, files, skipped⟩ := each session lives.sound rfl
    obtain ⟨rfl, rfl⟩ := EStateM.Result.ok.inj (compiled.symm.trans compiled')
    have lives' : (setup.scene tree actions).Lives setup
        { compiler with workspace := later.workspace } :=
      lives.of_eq follows.sound rfl rfl
    obtain ⟨result', next, rested, last, files', skipped'⟩ := ih lives' ready
      (fun other known => active other (List.mem_cons_of_mem _ known)) (result.merge pass)
    have reads : ∀ root ∈ setup.listed tree,
        later.workspace.system.read root = compiler.workspace.system.read root := follows.reads
    refine ⟨result', next, ?_, last, ?_, ?_⟩
    · have first : Compiler.compileTarget target false compiler =
          .ok pass { compiler with workspace := later.workspace } := by
        unfold Compiler.compileTarget
        rw [run_bind_ok (run_get compiler)]
        exact ran
      rw [Compiler.run_passes_cons first]
      exact rested
    · have same (target : String) :
          (setup.sceneContext tree target).cleanFiles later.workspace.system (setup.listed tree) =
            (setup.sceneContext tree target).cleanFiles compiler.workspace.system
              (setup.listed tree) :=
        Context.cleanFiles_congr reads _
      simp only [files', same, PassResult.merge, files, List.flatMap_cons, List.append_assoc]
      rfl
    · have same (target : String) :
          (setup.sceneContext tree target).cleanSkipped later.workspace.system (setup.listed tree) =
            (setup.sceneContext tree target).cleanSkipped compiler.workspace.system
              (setup.listed tree) :=
        Context.cleanSkipped_congr reads _
      simp only [skipped', same, PassResult.merge, skipped, List.any_cons, Bool.or_assoc]
      rfl

/-- A pass over all targets of a compiler that lives in a scene gives what clean passes give. -/
theorem compile_spec (includes : setup.project.includes = [])
    (registers : setup.registry.All Addon.Registers) (fair : (setup.scene tree actions).Fair)
    (lives : (setup.scene tree actions).Lives setup compiler)
    (steady : setup.Steady tree compiler.workspace.system) :
    ∃ result next, Compiler.compile compiler = .ok result next ∧
      (setup.scene tree actions).Lives setup next ∧
      result.files = (setup.activeTargets.flatMap fun target =>
        (setup.sceneContext tree target).cleanFiles compiler.workspace.system (setup.listed tree)) ∧
      result.skipped = setup.activeTargets.any fun target =>
        (setup.sceneContext tree target).cleanSkipped compiler.workspace.system
          (setup.listed tree) := by
  obtain ⟨middle, ensured, lives', ready, system⟩ :=
    ensureContexts_spec includes registers lives steady
  obtain ⟨result, next, ran, last, files, skipped⟩ :=
    passes_spec fair lives' ready (fun _ member => member) {}
  rw [system] at files skipped
  obtain ⟨setup', configured, targets⟩ : ∃ setup', middle.setup? = some setup' ∧
      setup'.activeTargets = setup.activeTargets := by
    rcases lives'.state with ⟨_, configured⟩ | ⟨_, registry, configured⟩
    · exact ⟨setup, configured, rfl⟩
    · exact ⟨{ setup with registry := registry }, configured, rfl⟩
  refine ⟨result, next, ?_, last, by simpa using files, by simpa using skipped⟩
  rw [Compiler.run_compile_of_ensured ensured configured, targets]
  exact ran

/-- An edit of the run leaves a sound workspace. -/
private theorem sound_edit {change : System → System}
    (round : (∃ path text, change = writing path text) ∨ ∃ path, change = removing path)
    (listed : .edit change ∈ actions) {workspace : Workspace}
    (sound : (setup.scene tree actions).Sound workspace) :
    (setup.scene tree actions).Sound { workspace with system := change workspace.system } := by
  obtain ⟨tree', memory, current, watches⟩ := sound.memory
  have before := sound.sources
  rw [memory] at before
  rcases round with ⟨path, text, rfl⟩ | ⟨path, rfl⟩
  · refine ⟨⟨tree'.write path text, by rw [memory]; rfl, current, watches⟩,
      fun root member source found => ?_, sound.entries, sound.service⟩
    dsimp only at found
    rw [memory] at found
    have read := MemoryTree.read_write tree' path root text
    split at read
    · have same : text = source := Except.ok.inj (read.symm.trans found)
      exact .inr ⟨path, same ▸ listed⟩
    · exact before root member source (read.symm.trans found)
  · refine ⟨⟨tree'.remove path, by rw [memory]; rfl, current, watches⟩,
      fun root member source found => ?_, sound.entries, sound.service⟩
    dsimp only at found
    rw [memory] at found
    have read := MemoryTree.read_remove tree' path root
    split at read
    · exact absurd (read.symm.trans found) (by simp)
    · exact before root member source (read.symm.trans found)

variable (includes : setup.project.includes = []) (registers : setup.registry.All Addon.Registers)
  (fair : (setup.scene tree actions).Fair)

include includes registers fair

theorem lives_run {action : Action} (round : action.IsRound) (listed : action ∈ actions)
    (lives : (setup.scene tree actions).Lives setup compiler)
    (steady : setup.Steady tree compiler.workspace.system) :
    (setup.scene tree actions).Lives setup (action.run compiler) := by
  cases action with
  | edit change => exact lives.of_eq (sound_edit round listed lives.sound) rfl rfl
  | ensureContexts =>
    obtain ⟨next, ran, kept, _⟩ := ensureContexts_spec includes registers lives steady
    change (setup.scene tree actions).Lives setup (endState (Compiler.ensureContexts compiler))
    rw [ran]
    exact kept
  | compile =>
    obtain ⟨result, next, ran, kept, _⟩ := compile_spec includes registers fair lives steady
    change (setup.scene tree actions).Lives setup (endState (Compiler.compile compiler))
    rw [ran]
    exact kept
  | compileFile target path force =>
    have given : (setup.scene tree actions).paths path := .inr (.inl ⟨target, force, listed⟩)
    exact Scene.Lives.preserves_compileFile fair target given force compiler lives
  | fileChanged path => exact Scene.Lives.preserves_fileChanged fair path compiler lives
  | notify | configure | watch | drainChanges | runWatch | closeWatches => exact round.elim

/-- A compiler that lives in a scene lives in it after every round. -/
theorem lives_runAll {rest : List Action} (round : ∀ action ∈ rest, action.IsRound)
    (listed : ∀ action ∈ rest, action ∈ actions)
    (lives : (setup.scene tree actions).Lives setup compiler)
    (steady : ∀ past, past <+: rest → setup.Steady tree (compiler.runAll past).workspace.system) :
    (setup.scene tree actions).Lives setup (compiler.runAll rest) := by
  induction rest generalizing compiler with
  | nil => exact lives
  | cons action rest ih =>
    have next := lives_run includes registers fair (round action (List.mem_cons_self ..))
      (listed action (List.mem_cons_self ..)) lives (steady [] (List.nil_prefix ..))
    refine ih (fun other member => round other (List.mem_cons_of_mem _ member))
      (fun other member => listed other (List.mem_cons_of_mem _ member)) next fun past before => ?_
    exact steady (action :: past) (List.cons_prefix_cons.mpr ⟨rfl, before⟩)

end Setup

/-- A compiler that was configured and has lived through any rounds compiles as a new one: the same
files in the same order, and skipped or not alike. -/
theorem compile_eq_fresh {compiler : Compiler} {setup : Setup} {tree : MemoryTree}
    {actions : List Action} (memory : (compiler.configure setup).workspace.system = .memory tree)
    (known : compiler.workspace.service.Faithful (setup.scene tree actions).texts)
    (includes : setup.project.includes = []) (pure : setup.registry.All Addon.IsPure)
    (rounds : ∀ action ∈ actions, action.IsRound)
    (steady : ∀ past, past <+: actions →
      setup.Steady tree ((compiler.configure setup).runAll past).workspace.system)
    (spelled : ∀ target path force, .compileFile target path force ∈ actions →
      ∀ root ∈ setup.listed tree, path.same root = true → path = root)
    (apart : ∀ entry ∈ (setup.scene tree actions).contexts, ∀ path,
      (setup.scene tree actions).paths path → ∀ text, ∀ file ∈ (entry.2.emission path text).files,
      ∀ root ∈ setup.listed tree,
        (tree.resolve root).same (tree.resolve file.name) = false)
    (digests : ∀ root ∈ setup.listed tree, ∀ text other,
      (setup.scene tree actions).texts root text →
      (setup.scene tree actions).texts root other → Digest.of text = Digest.of other →
        text = other) :
    let last := (compiler.configure setup).runAll actions
    ∃ result next clean next', Compiler.compile last = .ok result next ∧
      Compiler.compile ((Compiler.ofSystem last.workspace.system).configure setup) =
        .ok clean next' ∧
      result.files = clean.files ∧ result.skipped = clean.skipped := by
  intro last
  have registers := Setup.registers_of_isPure pure
  have fair := Setup.fair_scene pure spelled apart digests
  have start : (setup.scene tree actions).Lives setup (compiler.configure setup) := by
    refine ⟨⟨⟨tree, memory, rfl, rfl⟩, fun root member source found => ?_,
      fun _ _ _ _ _ found => ?_, known⟩, .inl ⟨rfl, rfl⟩⟩
    · rw [memory] at found
      exact .inl ⟨root, member, found⟩
    · simp [Compiler.configure] at found
  have lives := Setup.lives_runAll includes registers fair rounds (fun _ member => member)
    start steady
  have settled := steady actions (List.prefix_refl _)
  have fresh : (setup.scene tree actions).Lives setup
      ((Compiler.ofSystem last.workspace.system).configure setup) := by
    refine ⟨⟨lives.sound.memory, lives.sound.sources, fun _ _ _ _ _ found => ?_,
      Service.faithful_empty _⟩, .inl ⟨rfl, rfl⟩⟩
    simp [Compiler.configure] at found
  obtain ⟨result, next, ran, _, files, skipped⟩ :=
    Setup.compile_spec includes registers fair lives settled
  obtain ⟨clean, next', ran', _, files', skipped'⟩ :=
    Setup.compile_spec includes registers fair fresh settled
  exact ⟨result, next, clean, next', ran, ran', files.trans files'.symm,
    skipped.trans skipped'.symm⟩

section Closing

/-- An addon with a processor that closes every script. -/
def closingAddon : Addon where
  name := "closing"
  activate := Activation.registerProcessor fun _ _ text => pure (text ++ ";")

def closingPath : Path := ⟨true, ["a.ts"]⟩

def closingSetup : Setup where
  projectRoot := ⟨true, []⟩
  project := { files := [closingPath] }
  transpileOnly := true
  registry :=
    { explicit := [], project? := none, resolve := fun _ _ _ => .error .notConfigured,
      entries := [("closing", .loaded closingAddon)] }

def closingTree : MemoryTree :=
  (MemoryTree.new ⟨true, []⟩ false).write closingPath "let a = 1"

def closingActions : List Action :=
  [.compile, .edit (writing closingPath "let b = 2"), .fileChanged closingPath,
    .compileFile "*" closingPath true]

theorem isPure_closingAddon : closingAddon.IsPure where
  activates := ⟨closingAddon.register, fun _ => rfl⟩
  scope _ := rfl
  roots _ := rfl
  pure context pure := by
    refine ⟨pure.generators, fun processor member path source => ?_, pure.transformers,
      pure.resultProcessors, pure.postTransformers, pure.resolvers⟩
    rcases List.mem_append.mp member with known | fresh
    · exact pure.processors processor known path source
    · rw [List.mem_singleton.mp fresh]
      exact .pure _

theorem all_closingAddon : closingSetup.registry.All Addon.IsPure :=
  .of_only isPure_closingAddon rfl fun _ _ _ _ => nofun

private theorem listed_closing : closingSetup.listed closingTree = [closingPath] := by decide

theorem contexts_closing (system : System) (roots : List Path) :
    closingSetup.contextsOf system roots closingSetup.activeTargets =
    [("*", closingAddon.register
      { toScope := closingSetup.scope system "*", roots := roots })] := rfl

/-- The outputs of a file lie beside it. -/
theorem name_closing {system : System} {roots : List Path} {entry : String × Context}
    (member : entry ∈ closingSetup.contextsOf system roots closingSetup.activeTargets) {path : Path}
    {text : String} {file : OutputFile} (written : file ∈ (entry.2.emission path text).files) :
    file.name = path.withExtension path.emittedExtension ∨
      file.name = (path.withExtension path.emittedExtension).append ".map" := by
  rw [contexts_closing, List.mem_singleton] at member
  subst member
  have pure : Context.IsPure
      { toScope := closingSetup.scope system "*", roots := roots } :=
    ⟨rfl, by simp, by simp [TransformerSet.all], rfl, rfl, rfl⟩
  exact (isPure_closingAddon.pure _ pure).name_of_mem_emission (fun _ => rfl) written

/-- What the addon makes of a text. -/
theorem processed_closing {system : System} {roots : List Path} {entry : String × Context}
    (member : entry ∈ closingSetup.contextsOf system roots closingSetup.activeTargets) (path : Path)
    (text : String) : entry.2.processed path text = text ++ ";" := by
  rw [contexts_closing, List.mem_singleton] at member
  subst member
  rfl

/-- Two texts with the semicolon of the addon. -/
theorem eq_of_digest_closing {text other : String}
    (known : text = "let a = 1;" ∨ text = "let b = 2;")
    (known' : other = "let a = 1;" ∨ other = "let b = 2;")
    (same : Digest.of text = Digest.of other) : text = other := by
  rcases known with rfl | rfl <;> rcases known' with rfl | rfl
  · rfl
  · exact absurd same (by decide +kernel)
  · exact absurd same (by decide +kernel)
  · rfl

/-- A pass, an edit, a handled change and a forced compilation: the next pass is that of a new
compiler. -/
theorem compile_eq_fresh_closing :
    let last := ((Compiler.ofSystem (.memory closingTree)).configure closingSetup).runAll
      closingActions
    ∃ result next clean next', Compiler.compile last = .ok result next ∧
      Compiler.compile ((Compiler.ofSystem last.workspace.system).configure closingSetup) =
        .ok clean next' ∧
      result.files = clean.files ∧ result.skipped = clean.skipped := by
  refine compile_eq_fresh rfl (Service.faithful_empty none) rfl all_closingAddon ?_ ?_ ?_ ?_ ?_
  · simp [closingActions, Action.IsRound]
  · exact fun _ _ _ _ => rfl
  · intro target path force given root member _
    rw [listed_closing] at member
    simp [closingActions] at given
    rw [given.2.1, List.mem_singleton.mp member]
  · intro entry member path listed text file written root isRoot
    have here : path = closingPath := by
      rcases listed with known | ⟨target, force, given⟩ | ⟨dependents, _, told, _⟩
      · rw [listed_closing] at known
        exact List.mem_singleton.mp known
      · simp [closingActions] at given
        exact given.2.1
      · cases told
    rw [listed_closing] at isRoot
    rw [List.mem_singleton.mp isRoot]
    subst here
    obtain named | named := name_closing member written <;> rw [named] <;> decide
  · have only (text : String)
        (known : (closingSetup.scene closingTree closingActions).texts closingPath text) :
        text = "let a = 1;" ∨ text = "let b = 2;" := by
      obtain ⟨entry, member, source, sourced, made⟩ := known.2 (by
        change closingPath ∈ closingSetup.listed closingTree
        rw [listed_closing]
        exact List.mem_singleton.mpr rfl)
      rw [processed_closing member] at made
      rcases sourced with ⟨root, isRoot, found⟩ | ⟨path, edited⟩
      · rw [listed_closing] at isRoot
        rw [List.mem_singleton.mp isRoot] at found
        have text : closingTree.read closingPath = .ok "let a = 1" := rfl
        cases text.symm.trans found
        exact .inl made
      · have same : writing path source = writing closingPath "let b = 2" := by
          simpa [closingActions] using edited
        let textsIn : System → List String
          | .memory tree => tree.files.entries.map Prod.snd
          | .disk _ => []
        have texts := congrArg
          (fun change : System → System =>
            textsIn (change (System.memory (MemoryTree.new ⟨true, []⟩ false)))) same
        change [source] = ["let b = 2"] at texts
        rw [List.singleton_inj.mp texts] at made
        exact .inr made
    intro root isRoot text other known known' same
    rw [listed_closing] at isRoot
    rw [List.mem_singleton.mp isRoot] at known known'
    exact eq_of_digest_closing (only text known) (only other known') same

/-- The names of the files that a pass gave. -/
private def writtenBy : EStateM.Result Failure Compiler PassResult → List Path
  | .ok result _ => result.files.map (·.name)
  | .error _ _ => []

private theorem exists_of_writtenBy {ran : EStateM.Result Failure Compiler PassResult}
    {names : List Path} (written : writtenBy ran = names) (some : names ≠ []) :
    ∃ result next, ran = .ok result next ∧ result.files.map (·.name) = names := by
  cases ran with
  | ok result next => exact ⟨result, next, rfl, written⟩
  | error failure next => exact absurd written.symm some

/-- Another spelling of the root file. -/
def respelledPath : Path := ⟨true, [".", "a.ts"]⟩

def respelledActions : List Action :=
  [.compile, .compileFile "*" respelledPath true]

/-- A root file that is compiled under another spelling: the next pass names its output after that
one, although all other conditions hold. -/
theorem compile_ne_fresh_respelled :
    closingSetup.project.includes = [] ∧ closingSetup.registry.All Addon.IsPure ∧
      (∀ action ∈ respelledActions, action.IsRound) ∧
      (∀ entry ∈ (closingSetup.scene closingTree respelledActions).contexts, ∀ path,
        (closingSetup.scene closingTree respelledActions).paths path → ∀ text,
          ∀ file ∈ (entry.2.emission path text).files, ∀ root ∈ closingSetup.listed closingTree,
            (closingTree.resolve root).same (closingTree.resolve file.name) = false) ∧
      let last := ((Compiler.ofSystem (.memory closingTree)).configure closingSetup).runAll
        respelledActions
      ∃ result next clean next', Compiler.compile last = .ok result next ∧
        Compiler.compile ((Compiler.ofSystem last.workspace.system).configure closingSetup) =
          .ok clean next' ∧
        result.files.map (·.name) = [⟨true, [".", "a.js"]⟩] ∧
          clean.files.map (·.name) = [⟨true, ["a.js"]⟩] := by
  refine ⟨rfl, all_closingAddon, by simp [respelledActions, Action.IsRound], ?_, ?_⟩
  · intro entry member path listed text file written root isRoot
    have here : path = closingPath ∨ path = respelledPath := by
      rcases listed with known | ⟨target, force, given⟩ | ⟨dependents, _, told, _⟩
      · rw [listed_closing] at known
        exact .inl (List.mem_singleton.mp known)
      · simp [respelledActions] at given
        exact .inr given.2.1
      · cases told
    rw [listed_closing] at isRoot
    rw [List.mem_singleton.mp isRoot]
    rcases here with rfl | rfl <;> obtain named | named :=
      name_closing member written <;> rw [named] <;> decide
  · intro last
    have checked : writtenBy (Compiler.compile last) = [⟨true, [".", "a.js"]⟩] := by decide +kernel
    have checked' :
        writtenBy (Compiler.compile ((Compiler.ofSystem last.workspace.system).configure
          closingSetup)) =
        [⟨true, ["a.js"]⟩] := by
      decide +kernel
    obtain ⟨result, next, ran, named⟩ := exists_of_writtenBy checked (List.cons_ne_nil _ _)
    obtain ⟨clean, next', ran', named'⟩ := exists_of_writtenBy checked' (List.cons_ne_nil _ _)
    exact ⟨result, next, clean, next', ran, ran', named, named'⟩

end Closing

end Recast.Build
