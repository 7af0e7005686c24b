import Recast.Proofs.Build.Contexts

/-! # Contexts in equations

An addon that only registers callbacks makes one context of another, whatever the workspace. With
such addons the context of a target is a function of the options and the system
(`run_ensureContexts`); it does not matter which other targets there are, although all of them share
one registry.
-/

namespace Recast.Build

open Recast.Emit

namespace Registry

/-- A registry in which modules of another one may be loaded already. -/
structure LoadedFrom (system : Files.System) (registry later : Registry) : Prop where
  explicit : later.explicit = registry.explicit
  project : later.project? = registry.project?
  resolve : later.resolve = registry.resolve
  names : later.available = registry.available
  entries : ∀ name, later.entries.lookup name = registry.entries.lookup name ∨
    ∃ path addon, registry.entries.lookup name = some (.module path) ∧
      later.entries.lookup name = some (.loaded addon) ∧
        registry.resolve system name path = .ok addon

variable {system : Files.System} {registry later : Registry}

theorem LoadedFrom.refl (system : Files.System) (registry : Registry) :
    LoadedFrom system registry registry :=
  ⟨rfl, rfl, rfl, rfl, fun _ => .inl rfl⟩

theorem lookup_replace (entries : List (String × AddonSource)) (name other : String)
    (addon : Addon) :
    (replace entries name addon).lookup other =
      if other = name then (entries.lookup other).map fun _ =>
        .loaded addon else entries.lookup other := by
  induction entries with
  | nil => simp [replace]
  | cons entry entries ih =>
    obtain ⟨first, source⟩ := entry
    have rest : (replace ((first, source) :: entries) name addon) =
        (if first = name then (name, .loaded addon) else (first, source)) :: replace entries name
          addon := rfl
    rw [rest]
    by_cases here : first = name
    · subst here
      by_cases same : other = first
      · subst same
        simp
      · have apart : (other == first) = false := by simpa using same
        simp [List.lookup_cons, apart, ih, same]
    · rw [if_neg here, List.lookup_cons, List.lookup_cons, ih]
      by_cases same : other = first
      · subst same
        simp [here]
      · have apart : (other == first) = false := by simpa using same
        simp [apart]

theorem available_replace (registry : Registry) (name : String) (addon : Addon) :
    ({ registry with entries := replace registry.entries name addon } : Registry).available =
      registry.available := by
  unfold available replace
  rw [List.map_map]
  refine List.map_congr_left fun entry _ => ?_
  simp only [Function.comp_apply]
  split
  · next same => exact same.symm
  · rfl

/-- A registry with some modules loaded gives the same addon, and loads nothing else. -/
theorem LoadedFrom.load (loaded : LoadedFrom system registry later) (name : String) :
    (later.load system name).1 = (registry.load system name).1 ∧
      LoadedFrom system registry (later.load system name).2.1 := by
  unfold Registry.load
  rcases loaded.entries name with same | ⟨path, addon, was, now, answer⟩
  · rw [same]
    cases known : registry.entries.lookup name with
    | none => exact ⟨rfl, loaded⟩
    | some source =>
      cases source with
      | loaded addon => exact ⟨rfl, loaded⟩
      | module path =>
        rw [loaded.resolve]
        dsimp only
        cases answer : registry.resolve system name path with
        | error failure => exact ⟨rfl, loaded⟩
        | ok addon =>
          refine ⟨rfl, loaded.explicit, loaded.project, rfl,
            (available_replace later name addon).trans loaded.names, fun other => ?_⟩
          dsimp only
          rw [lookup_replace]
          by_cases here : other = name
          · subst here
            exact .inr ⟨path, addon, known, by simp [same, known], answer⟩
          · rw [if_neg here]
            exact loaded.entries other
  · rw [now, was]
    dsimp only
    rw [answer]
    exact ⟨rfl, loaded⟩

theorem LoadedFrom.loadAll (loaded : LoadedFrom system registry later) (names : List String) :
    (later.loadAll system names).1 = (registry.loadAll system names).1 ∧
      LoadedFrom system registry (later.loadAll system names).2.1 := by
  have step (later : Registry) (loaded : LoadedFrom system registry later) :
      (later.loadAll system names).1 = names.flatMap (fun name =>
        (registry.load system name).1.toList) ∧
        LoadedFrom system registry (later.loadAll system names).2.1 := by
    induction names generalizing later with
    | nil => exact ⟨rfl, loaded⟩
    | cons name names ih =>
      obtain ⟨first, kept⟩ := loaded.load name
      obtain ⟨others, last⟩ := ih _ kept
      refine ⟨?_, last⟩
      simp only [Registry.loadAll, List.flatMap_cons, first, others]
  exact ⟨(step later loaded).1.trans (step registry (.refl system registry)).1.symm,
    (step later loaded).2⟩

theorem LoadedFrom.addonsFor (loaded : LoadedFrom system registry later) (target : String) :
    (later.addonsFor system target).1 = (registry.addonsFor system target).1 ∧
      LoadedFrom system registry (later.addonsFor system target).2.1 := by
  have expected : later.expected target = registry.expected target := by
    unfold Registry.expected
    rw [loaded.explicit, loaded.project]
  unfold Registry.addonsFor
  rw [expected, loaded.names]
  dsimp only
  split
  · exact loaded.loadAll _
  · exact loaded.loadAll _

end Registry

/-- An addon whose activation only registers callbacks: it makes one context of another, whatever
the workspace. -/
structure Addon.Registers (addon : Addon) : Prop where
  activates : ∃ f : Context → Context, ∀ activation : Activation,
    addon.activate activation = .ok () { activation with context := f activation.context }
  scope : ∀ activation, (endState (addon.activate activation)).context.toScope =
    activation.context.toScope
  roots : ∀ activation, (endState (addon.activate activation)).context.roots =
    activation.context.roots

/-- The context that an addon makes of another. -/
def Addon.register (addon : Addon) (context : Context) : Context :=
  (endState (addon.activate ⟨context, default⟩)).context

namespace Addon.Registers

variable {addon : Addon}

theorem run (registers : addon.Registers) (activation : Activation) :
    addon.activate activation =
      .ok () { activation with context := addon.register activation.context } := by
  obtain ⟨f, always⟩ := registers.activates
  rw [register, always, always]
  rfl

theorem register_toScope (registers : addon.Registers) (context : Context) :
    (addon.register context).toScope = context.toScope :=
  registers.scope ⟨context, default⟩

theorem register_roots (registers : addon.Registers) (context : Context) :
    (addon.register context).roots = context.roots :=
  registers.roots ⟨context, default⟩

end Addon.Registers

/-- The context of a target, with its addons activated. -/
def Setup.contextOf (setup : Setup) (system : Files.System) (roots : List Path) (target : String) :
    Context :=
  (setup.registry.addonsFor system target).1.foldl (fun context addon => addon.register context)
    { toScope := setup.scope system target, roots := roots }

/-- The contexts of all targets. -/
def Setup.contextsOf (setup : Setup) (system : Files.System) (roots : List Path)
    (targets : List String) :
    List (String × Context) :=
  targets.map fun target => (target, setup.contextOf system roots target)

private theorem foldl_register {addons : List Addon} (registers : ∀ addon ∈ addons, addon.Registers)
    (context : Context) :
    (addons.foldl (fun context addon => addon.register context) context).toScope = context.toScope ∧
      (addons.foldl (fun context addon => addon.register context) context).roots =
        context.roots := by
  induction addons generalizing context with
  | nil => exact ⟨rfl, rfl⟩
  | cons addon addons ih =>
    have first := registers addon (List.mem_cons_self ..)
    obtain ⟨scope, roots⟩ := ih (fun other member =>
      registers other (List.mem_cons_of_mem _ member))
      (addon.register context)
    exact ⟨scope.trans (first.register_toScope context), roots.trans (first.register_roots context)⟩

namespace Setup

variable {setup : Setup}

theorem contextOf_toScope (all : setup.registry.All Addon.Registers) (system : Files.System)
    (roots : List Path) (target : String) :
    (setup.contextOf system roots target).toScope = setup.scope system target :=
  (foldl_register (all.addonsFor system target).1 _).1

theorem contextOf_roots (all : setup.registry.All Addon.Registers) (system : Files.System)
    (roots : List Path) (target : String) : (setup.contextOf system roots target).roots = roots :=
  (foldl_register (all.addonsFor system target).1 _).2

/-- What addons keep of contexts holds of every context, if it holds without addons. -/
theorem contextOf_induction {A : Addon → Prop} {C : Context → Prop} (all : setup.registry.All A)
    (kept : ∀ addon, A addon → ∀ context, C context → C (addon.register context))
    (system : Files.System) (roots : List Path) (target : String)
    (bare : C { toScope := setup.scope system target, roots := roots }) :
    C (setup.contextOf system roots target) := by
  have folded : ∀ (addons : List Addon), (∀ addon ∈ addons, A addon) → ∀ context, C context →
      C (addons.foldl (fun context addon => addon.register context) context) := by
    intro addons
    induction addons with
    | nil => exact fun _ _ holds => holds
    | cons addon addons ih =>
      exact fun good context holds =>
        ih (fun other member => good other (List.mem_cons_of_mem _ member)) _
        (kept addon (good addon (List.mem_cons_self ..)) context holds)
  exact folded _ (all.addonsFor system target).1 _ bare

private theorem loadAll_congr {a b : Files.System} (registry : Registry)
    (resolve : ∀ name path, registry.resolve a name path = registry.resolve b name path)
    (names : List String) :
    registry.loadAll a names = registry.loadAll b names := by
  induction names generalizing registry with
  | nil => rfl
  | cons name names ih =>
    have first : registry.load a name = registry.load b name := by
      unfold Registry.load
      split
      · rfl
      · rfl
      · rw [resolve]
    have kept : ∀ name' path, (registry.load b name).2.1.resolve a name' path =
        (registry.load b name).2.1.resolve b name' path := by
      intro name' path
      unfold Registry.load
      split
      · exact resolve name' path
      · exact resolve name' path
      · split <;> exact resolve name' path
    unfold Registry.loadAll
    rw [first]
    dsimp only
    rw [ih _ kept]

/-- A context depends on the system only where paths lead, whether it can watch, and what modules
are. -/
theorem contextOf_congr {a b : Files.System} (current : a.current = b.current)
    (watches : a.supportsWatch = b.supportsWatch)
    (resolve : ∀ name path, setup.registry.resolve a name path = setup.registry.resolve b name path)
    (roots : List Path) (target : String) :
    setup.contextOf a roots target = setup.contextOf b roots target := by
  have scope : setup.scope a target = setup.scope b target := by
    unfold scope
    rw [current, watches]
  have addons : setup.registry.addonsFor a target = setup.registry.addonsFor b target := by
    unfold Registry.addonsFor
    dsimp only
    rw [loadAll_congr _ resolve, loadAll_congr _ resolve]
  unfold contextOf
  rw [scope, addons]

end Setup

namespace Compiler

theorem run_activate {addons : List Addon} (registers : ∀ addon ∈ addons, addon.Registers)
    (context : Context) (compiler : Compiler) :
    activate context addons compiler =
      .ok (addons.foldl (fun context addon => addon.register context) context) compiler := by
  have ran : ∀ (activation : Activation),
      (addons.forM (·.activate) : EStateM Failure Activation Unit) activation =
        .ok () { activation with
          context := addons.foldl (fun context addon => addon.register context)
            activation.context } := by
    induction addons with
    | nil => exact fun _ => rfl
    | cons addon addons ih =>
      intro activation
      have first := (registers addon (List.mem_cons_self ..)).run activation
      exact (run_bind_ok first).trans (ih (fun other member =>
        registers other (List.mem_cons_of_mem _ member)) _)
  unfold activate
  rw [ran]

/-- Making a context only loads addons and says what is wrong with them. -/
theorem run_makeContext {compiler : Compiler} {setup : Setup} {later : Registry} {roots : List Path}
    (configured : compiler.setup? = some { setup with registry := later })
    (loaded : setup.registry.LoadedFrom compiler.workspace.system later)
    (found : setup.project.rootFiles compiler.workspace.system setup.projectRoot = .ok roots)
    (all : setup.registry.All Addon.Registers) (target : String) :
    ∃ registry reports, setup.registry.LoadedFrom compiler.workspace.system registry ∧
      makeContext target compiler = .ok (setup.contextOf compiler.workspace.system roots target)
        { compiler with
          setup? := some { setup with registry := registry }
          workspace := { compiler.workspace with reports := reports } } := by
  obtain ⟨same, kept⟩ := loaded.addonsFor target
  have registers : ∀ addon ∈ (later.addonsFor compiler.workspace.system target).1,
      addon.Registers := by
    rw [same]
    exact (all.addonsFor compiler.workspace.system target).1
  refine ⟨_, ((later.addonsFor compiler.workspace.system target).2.2.foldl Workspace.report
    compiler.workspace).reports, kept, ?_⟩
  have activated := run_bind_ok (f := fun addons => activate
    { toScope := setup.scope compiler.workspace.system target, roots := roots } addons)
    (run_addonsFor configured target)
  unfold makeContext
  rw [run_bind_ok (run_setup_of_eq configured), run_bind_ok (run_get compiler)]
  dsimp only
  rw [found]
  refine activated.trans ?_
  rw [run_activate registers, same]
  rfl

theorem lookup_contextsOf (setup : Setup) (system : Files.System) (roots : List Path)
    (targets : List String) (target : String) :
    (setup.contextsOf system roots targets).lookup target =
      if target ∈ targets then some (setup.contextOf system roots target) else none := by
  induction targets with
  | nil => rfl
  | cons first targets ih =>
    unfold Setup.contextsOf at ih ⊢
    rw [List.map_cons, List.lookup_cons, ih]
    by_cases same : target = first
    · subst same
      simp
    · have apart : (target == first) = false := by simpa using same
      simp [apart, same]

/-- The contexts of targets that have none yet, one after the other. -/
private theorem run_forM_ensureContext {setup : Setup} {system : Files.System} {roots : List Path}
    (found : setup.project.rootFiles system setup.projectRoot = .ok roots)
    (all : setup.registry.All Addon.Registers) (done targets : List String)
    (fresh : (done ++ targets).Nodup) (compiler : Compiler)
    (placed : compiler.workspace.system = system) (later : Registry)
    (configured : compiler.setup? = some { setup with registry := later })
    (loaded : setup.registry.LoadedFrom system later)
    (contexts : compiler.contexts = setup.contextsOf system roots done) :
    ∃ registry reports, targets.forM ensureContext compiler = .ok ()
      { compiler with
        setup? := some { setup with registry := registry }
        contexts := setup.contextsOf system roots (done ++ targets)
        workspace := { compiler.workspace with reports := reports } } := by
  induction targets generalizing done compiler later with
  | nil =>
    refine ⟨later, compiler.workspace.reports, ?_⟩
    rw [List.append_nil, ← contexts, ← configured]
    rfl
  | cons target targets ih =>
    subst placed
    obtain ⟨registry, reports, kept, made⟩ := run_makeContext configured loaded found all target
    have missing : compiler.context? target = none := by
      rw [context?, contexts, lookup_contextsOf, if_neg]
      intro member
      exact (List.nodup_append.mp fresh).2.2 target member target (List.mem_cons_self ..) rfl
    let next : Compiler :=
      { compiler with
        setup? := some { setup with registry := registry }
        contexts := setup.contextsOf compiler.workspace.system roots (done ++ [target])
        workspace := { compiler.workspace with reports := reports } }
    have ensured : ensureContext target compiler = .ok () next := by
      unfold ensureContext
      rw [run_bind_ok (run_get compiler), missing]
      refine (run_bind_ok made).trans ?_
      rw [run_modify, contexts]
      simp [next, Setup.contextsOf]
    obtain ⟨last, said, rest⟩ :=
      ih (done ++ [target]) (by simpa using fresh) next rfl registry rfl kept rfl
    refine ⟨last, said, ?_⟩
    have whole := (run_bind_ok (f := fun _ => targets.forM ensureContext) ensured).trans rest
    rw [List.append_assoc] at whole
    exact whole

theorem nodup_distinct {α : Type} [BEq α] [LawfulBEq α] (xs : List α) :
    (distinct (· == ·) xs).Nodup :=
  (pairwise_distinct _ xs).imp fun apart same => by simp [same] at apart

theorem nodup_activeTargets (setup : Setup) : setup.activeTargets.Nodup := by
  unfold Setup.activeTargets Target.normalize
  dsimp only
  split
  · simp
  · exact nodup_distinct _

/-- The contexts of a compiler that has none. -/
theorem run_ensureContexts {compiler : Compiler} {setup : Setup} {roots : List Path}
    (configured : compiler.setup? = some setup) (bare : compiler.contexts = [])
    (found : setup.project.rootFiles compiler.workspace.system setup.projectRoot = .ok roots)
    (all : setup.registry.All Addon.Registers) :
    ∃ registry reports, ensureContexts compiler = .ok ()
      { compiler with
        setup? := some { setup with registry := registry }
        contexts := setup.contextsOf compiler.workspace.system roots setup.activeTargets
        phase := .ready
        workspace := { compiler.workspace with reports := reports } } := by
  obtain ⟨registry, reports, ran⟩ := run_forM_ensureContext found all [] setup.activeTargets
    (by simpa using nodup_activeTargets setup) compiler rfl setup.registry configured
    (.refl _ _) bare
  refine ⟨registry, reports, ?_⟩
  unfold ensureContexts
  rw [run_bind_ok (run_setup_of_eq configured), run_bind_ok ran]
  rfl

/-- A compiler with all its contexts makes no more. -/
theorem run_ensureContexts_of_ready {compiler : Compiler} {setup : Setup}
    (configured : compiler.setup? = some setup)
    (known : ∀ target ∈ setup.activeTargets, (compiler.context? target).isSome) :
    ensureContexts compiler = .ok () { compiler with phase := .ready } := by
  have ran : ∀ targets : List String, (∀ target ∈ targets, (compiler.context? target).isSome) →
      targets.forM ensureContext compiler = .ok () compiler := by
    intro targets
    induction targets with
    | nil => exact fun _ => rfl
    | cons target targets ih =>
      intro known
      have first : ensureContext target compiler = .ok () compiler := by
        unfold ensureContext
        rw [run_bind_ok (run_get compiler)]
        have some := known target (List.mem_cons_self ..)
        cases found : compiler.context? target with
        | none => simp [found] at some
        | some context => rfl
      exact (run_bind_ok first).trans (ih fun other member =>
        known other (List.mem_cons_of_mem _ member))
  unfold ensureContexts
  rw [run_bind_ok (run_setup_of_eq configured), run_bind_ok (ran _ known)]
  rfl

end Compiler

end Recast.Build
