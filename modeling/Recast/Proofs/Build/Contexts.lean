import Recast.Proofs.Build.Moves
import Recast.Proofs.Build.Operations

/-! # What holds of the contexts of a compiler

A context is made from the scope of its target by activating addons, and after that only its root
files change. So a property that every addon keeps holds of all contexts, whatever the compiler
lives through (`Holds.runAll`).
-/

namespace Recast.Build

open Recast.Emit

/-- If callbacks may have files watched, files can be watched, and it is the workspace that does
it. -/
theorem Setup.watch?_scope {setup : Setup} {system : Files.System} {target : String}
    {watch : Path → Workspace → Except Failure Workspace}
    (wanted : (setup.scope system target).watch? = some watch) :
    system.supportsWatch = true ∧ watch = fun path workspace => workspace.watch path := by
  change (if setup.watch && system.supportsWatch then
    some fun path workspace => Workspace.watch workspace path else none) = some watch at wanted
  split at wanted
  · next asked =>
    cases wanted
    exact ⟨(Bool.and_eq_true_iff.mp asked).2, rfl⟩
  · cases wanted

namespace Registry

/-- Every addon that the registry has or may load has a property. -/
def All (A : Addon → Prop) (registry : Registry) : Prop :=
  (∀ name addon, (name, .loaded addon) ∈ registry.entries → A addon) ∧
    ∀ system name path addon, registry.resolve system name path = .ok addon → A addon

variable {A : Addon → Prop} {registry : Registry}

private theorem mem_of_lookup {entries : List (String × AddonSource)} {name : String}
    {source : AddonSource} (found : entries.lookup name = some source) :
    (name, source) ∈ entries := by
  obtain ⟨before, behind, spelled, _⟩ := List.lookup_eq_some_iff.mp found
  simp [spelled]

private theorem all_replace (all : registry.All A) {name : String} {addon : Addon}
    (good : A addon) :
    ({ registry with entries := replace registry.entries name addon } : Registry).All A := by
  refine ⟨fun other loaded member => ?_, all.2⟩
  obtain ⟨entry, known, replaced⟩ := List.mem_map.mp member
  split at replaced
  · cases replaced
    exact good
  · exact all.1 other loaded (replaced ▸ known)

/-- A registry with one addon, which loads no other. -/
theorem All.of_only {name : String} {addon : Addon} (good : A addon)
    (only : registry.entries = [(name, .loaded addon)])
    (none : ∀ system name path other, registry.resolve system name path ≠ .ok other) :
    registry.All A := by
  refine ⟨fun other loaded member => ?_, fun _ _ _ _ loaded => absurd loaded (none _ _ _ _)⟩
  rw [only] at member
  cases List.mem_singleton.mp member
  exact good

theorem All.load (all : registry.All A) (system : Files.System) (name : String) :
    (∀ addon, (registry.load system name).1 = some addon → A addon) ∧
      (registry.load system name).2.1.All A := by
  unfold Registry.load
  split
  · exact ⟨by simp, all⟩
  · next addon found =>
      exact ⟨fun other same => by cases same; exact all.1 _ _ (mem_of_lookup found), all⟩
  · split
    · next loaded =>
      have good := all.2 _ _ _ _ loaded
      exact ⟨fun other same => by cases same; exact good, all_replace all good⟩
    · exact ⟨by simp, all⟩

theorem All.loadAll (all : registry.All A) (system : Files.System) (names : List String) :
    (∀ addon ∈ (registry.loadAll system names).1, A addon) ∧
      (registry.loadAll system names).2.1.All A := by
  induction names generalizing registry with
  | nil => exact ⟨by simp [Registry.loadAll], all⟩
  | cons name names ih =>
    obtain ⟨first, kept⟩ := all.load system name
    obtain ⟨others, last⟩ := ih kept
    refine ⟨fun addon member => ?_, last⟩
    simp only [Registry.loadAll, List.mem_append, Option.mem_toList] at member
    exact member.elim (first addon) (others addon)

theorem All.addonsFor (all : registry.All A) (system : Files.System) (target : String) :
    (∀ addon ∈ (registry.addonsFor system target).1, A addon) ∧
      (registry.addonsFor system target).2.1.All A := by
  unfold Registry.addonsFor
  dsimp only
  split
  · exact all.loadAll system _
  · exact all.loadAll system _

end Registry

/-- Nothing happened to a cache. -/
def Cache.Stays (before after : Cache) : Prop := after = before

instance : Std.Refl Cache.Stays := ⟨fun _ => rfl⟩

instance : IsTrans Cache Cache.Stays := ⟨fun _ _ _ first second => second.trans first⟩

/-- A property of contexts that holds of the bare scope of a target, and that addons and new root
files keep. What addons do to the cache when they are activated is limited. -/
structure Governs (R : Cache → Cache → Prop) (A : Addon → Prop) (C : String → Context → Prop) :
    Prop where
  cache : ∀ addon, A addon →
    Follows (InvImage R fun activation : Activation => activation.workspace.cache) addon.activate
  bare : ∀ (setup : Setup) system target roots,
    C target { toScope := setup.scope system target, roots := roots }
  activated : ∀ addon, A addon → ∀ target activation, C target activation.context →
    C target (endState (addon.activate activation)).context
  withRoots : ∀ target context roots, C target context → C target { context with roots := roots }

namespace Compiler

/-- A step that leaves the root files of all contexts as they were changes no context. -/
theorem updateContext_roots {contexts : List (String × Context)} {roots : List Path}
    (same : ∀ entry ∈ contexts, entry.2.roots = roots) (target : String) :
    updateContext contexts target (fun context => { context with roots := roots }) = contexts := by
  refine (List.map_congr_left fun entry member => ?_).trans (List.map_id contexts)
  split
  · exact Prod.ext rfl (by rw [← same entry member]; rfl)
  · rfl

/-- All contexts have a property, and the registry has only addons that keep it. -/
structure Holds (A : Addon → Prop) (C : String → Context → Prop) (compiler : Compiler) : Prop where
  contexts : ∀ entry ∈ compiler.contexts, C entry.1 entry.2
  registry : ∀ setup, compiler.setup? = some setup → setup.registry.All A

namespace Holds

variable {R : Cache → Cache → Prop} {A : Addon → Prop} {C : String → Context → Prop}
  {compiler : Compiler}

theorem context (holds : compiler.Holds A C) {target : String} {context : Context}
    (known : compiler.context? target = some context) : C target context := by
  obtain ⟨before, behind, spelled, _⟩ := List.lookup_eq_some_iff.mp known
  exact holds.contexts (target, context) (by simp [spelled])

/-- The property is not about the workspace. -/
theorem of_eq (holds : compiler.Holds A C) {other : Compiler}
    (contexts : other.contexts = compiler.contexts) (setup : other.setup? = compiler.setup?) :
    other.Holds A C :=
  ⟨contexts ▸ holds.contexts, setup ▸ holds.registry⟩

theorem absorb (governs : Governs R A C) (holds : compiler.Holds A C) (target : String)
    (session : Session) :
    (compiler.absorb target session).Holds A C := by
  refine ⟨fun entry member => ?_, holds.registry⟩
  obtain ⟨old, known, changed⟩ := List.mem_map.mp member
  have kept := holds.contexts old known
  split at changed
  · rw [← changed]
    exact governs.withRoots _ _ _ kept
  · rw [← changed]
    exact kept

/-- The property survives whatever happens to the workspace and to root files. -/
theorem sturdy (governs : Governs R A C) : Sturdy (Holds A C) where
  workspace _ _ holds := holds.of_eq rfl rfl
  absorb _ target session holds := holds.absorb governs target session

/-- The addons of a target keep the property, and so does the registry that loaded them. -/
theorem addonsFor (holds : compiler.Holds A C) (target : String) :
    (endState (Compiler.addonsFor target compiler)).Holds A C ∧
      (endState (Compiler.addonsFor target compiler)).workspace.cache = compiler.workspace.cache ∧
      ∀ addons next, Compiler.addonsFor target compiler = .ok addons next → ∀ addon ∈ addons,
        A addon := by
  cases known : compiler.setup? with
  | none =>
    rw [run_addonsFor_of_none known]
    exact ⟨holds, rfl, by simp⟩
  | some setup =>
    rw [run_addonsFor known]
    obtain ⟨good, kept⟩ := (holds.registry setup known).addonsFor compiler.workspace.system target
    refine ⟨⟨holds.contexts, fun other same => ?_⟩, rfl, fun addons next same => ?_⟩
    · cases same
      exact kept
    · cases same
      exact good

private theorem activated (governs : Governs R A C) {addons : List Addon}
    (good : ∀ addon ∈ addons, A addon) (target : String) :
    Preserves (fun activation : Activation => C target activation.context)
      (addons.forM (·.activate)) :=
  Preserves.forM fun addon member activation =>
    governs.activated addon (good addon member) target activation

variable [Std.Refl R] [IsTrans Cache R]

/-- The context of a target has the property once the addons are activated. -/
theorem activate (governs : Governs R A C) (holds : compiler.Holds A C) {target : String}
    {context : Context} (bare : C target context) {addons : List Addon}
    (good : ∀ addon ∈ addons, A addon) :
    (endState (Compiler.activate context addons compiler)).Holds A C ∧
      R compiler.workspace.cache
        (endState (Compiler.activate context addons compiler)).workspace.cache ∧
      ∀ made next, Compiler.activate context addons compiler = .ok made next → C target made := by
  have kept := activated governs good target ⟨context, compiler.workspace⟩ bare
  have cached : Follows (InvImage R fun activation : Activation => activation.workspace.cache)
      (addons.forM (·.activate)) :=
    .forM fun addon member => governs.cache addon (good addon member)
  have cache := cached ⟨context, compiler.workspace⟩
  unfold Compiler.activate
  revert kept cache
  cases (addons.forM (·.activate) : EStateM Failure Activation Unit)
    ⟨context, compiler.workspace⟩ with
  | ok _ activation =>
    intro kept cache
    exact ⟨holds.of_eq rfl rfl, cache, fun made next same => by cases same; exact kept⟩
  | error failure activation =>
    intro _ cache
    exact ⟨holds.of_eq rfl rfl, cache, by simp⟩

theorem makeContext (governs : Governs R A C) (holds : compiler.Holds A C) (target : String) :
    (endState (Compiler.makeContext target compiler)).Holds A C ∧
      R compiler.workspace.cache (endState (Compiler.makeContext target compiler)).workspace.cache ∧
      ∀ made next, Compiler.makeContext target compiler = .ok made next → C target made := by
  unfold Compiler.makeContext
  rw [run_bind, run_setup]
  cases known : compiler.setup? with
  | none => exact ⟨holds, refl compiler.workspace.cache, by simp⟩
  | some setup =>
    simp only [run_bind, run_get]
    cases setup.project.rootFiles compiler.workspace.system setup.projectRoot with
    | error failure => exact ⟨holds, refl compiler.workspace.cache, by simp⟩
    | ok roots =>
      obtain ⟨loaded, cache, good⟩ := holds.addonsFor target
      simp only [run_bind]
      cases found : Compiler.addonsFor target compiler with
      | error failure next =>
        rw [found] at loaded cache
        exact ⟨loaded, cache ▸ refl next.workspace.cache, by simp⟩
      | ok addons next =>
        rw [found] at loaded cache
        have bare : C target
            { toScope := setup.scope compiler.workspace.system target, roots := roots } :=
          governs.bare setup compiler.workspace.system target roots
        obtain ⟨kept, led, made⟩ := loaded.activate governs bare (good addons next found)
        exact ⟨kept, cache ▸ led, made⟩

theorem ensureContext (governs : Governs R A C) (holds : compiler.Holds A C) (target : String) :
    (endState (Compiler.ensureContext target compiler)).Holds A C ∧
      R compiler.workspace.cache
        (endState (Compiler.ensureContext target compiler)).workspace.cache := by
  unfold Compiler.ensureContext
  simp only [run_bind, run_get]
  split
  · obtain ⟨kept, cache, good⟩ := holds.makeContext governs target
    rw [run_bind]
    cases made : Compiler.makeContext target compiler with
    | error failure next =>
      rw [made] at kept cache
      exact ⟨kept, cache⟩
    | ok context next =>
      rw [made] at kept cache
      refine ⟨⟨fun entry member => ?_, kept.registry⟩, cache⟩
      rcases List.mem_append.mp member with known | fresh
      · exact kept.contexts entry known
      · rw [List.mem_singleton.mp fresh]
        exact good context next made
  · exact ⟨holds, refl compiler.workspace.cache⟩

theorem ensureContexts (governs : Governs R A C) (holds : compiler.Holds A C) :
    (endState (Compiler.ensureContexts compiler)).Holds A C ∧
      R compiler.workspace.cache (endState (Compiler.ensureContexts compiler)).workspace.cache := by
  have each (target : String) : Preserves
      (fun later : Compiler => later.Holds A C ∧ R compiler.workspace.cache later.workspace.cache)
      (Compiler.ensureContext target) := fun later ⟨holds, came⟩ =>
    let ⟨kept, cache⟩ := holds.ensureContext governs target
    ⟨kept, IsTrans.trans _ _ _ came cache⟩
  have all : Preserves (fun later : Compiler => later.Holds A C ∧
      R compiler.workspace.cache later.workspace.cache) Compiler.ensureContexts := by
    exact preserves_setup.bind fun setup =>
      (Preserves.forM fun target _ => each target).bind fun _ =>
        Preserves.modify fun later ⟨kept, cache⟩ => ⟨kept.of_eq rfl rfl, cache⟩
  exact all compiler ⟨holds, refl compiler.workspace.cache⟩

theorem preserves_ensureContexts (governs : Governs R A C) :
    Preserves (Holds A C) Compiler.ensureContexts :=
  fun _ holds => (holds.ensureContexts governs).1

theorem configure (compiler : Compiler) {setup : Setup} (all : setup.registry.All A) :
    (compiler.configure setup).Holds A C := by
  refine ⟨by simp [Compiler.configure], fun other same => ?_⟩
  cases same
  exact all

theorem ofSystem (system : Files.System) : (Compiler.ofSystem system).Holds A C :=
  ⟨by simp [Compiler.ofSystem], by simp [Compiler.ofSystem]⟩

end Holds

end Compiler

/-- Every addon that an action brings in has a property. -/
def Action.Brings (A : Addon → Prop) : Action → Prop
  | configure setup => setup.registry.All A
  | _ => True

namespace Compiler.Holds

variable {R : Cache → Cache → Prop} [Std.Refl R] [IsTrans Cache R] {A : Addon → Prop}
  {C : String → Context → Prop} {compiler : Compiler}

theorem run (governs : Governs R A C) {action : Action} (brings : action.Brings A)
    (holds : compiler.Holds A C) :
    (action.run compiler).Holds A C := by
  cases action with
  | configure setup => exact .configure compiler brings
  | _ =>
    refine (sturdy governs).run (by simp) ?_
    split
    · exact preserves_ensureContexts governs compiler holds
    · exact holds

theorem runAll (governs : Governs R A C) {actions : List Action}
    (brings : ∀ action ∈ actions, action.Brings A) (holds : compiler.Holds A C) :
    (compiler.runAll actions).Holds A C := by
  induction actions generalizing compiler with
  | nil => exact holds
  | cons action actions ih =>
    exact ih (fun other member => brings other (List.mem_cons_of_mem _ member))
      (holds.run governs (brings action (List.mem_cons_self ..)))

end Compiler.Holds

end Recast.Build
