import Recast.Addons.Builtin
import Recast.Proofs.Build.Evolution

/-! # What the addons of the library leave alone

Activating an addon of the library changes neither the cache nor any file, and its callbacks do not
touch the cache. So everything that is said about compilers with such addons holds of those that
load their addons from modules (`keepsCache_of_loadModule`).
-/

namespace Recast.Addons

open Recast.Build Recast.Emit

theorem leaves_orFail {σ α γ : Type} (observe : σ → γ) (answer : Except Failure α) :
    Leaves observe (orFail answer : EStateM Failure σ α) := by
  cases answer <;> exact fun _ => rfl

theorem preserves_orFail {σ α : Type} {P : σ → Prop} (answer : Except Failure α) :
    Preserves P (orFail answer : EStateM Failure σ α) := by
  cases answer <;> exact fun _ holds => holds

/-- An addon that leaves the workspace alone keeps the cache when its change of the context does. -/
private theorem leaves_cache_onContext (f : Context → Context) :
    Leaves (fun activation : Activation => activation.workspace.cache) (Activation.onContext f) :=
  fun _ => rfl

private theorem preserves_onContext {P : Context → Prop} {f : Context → Context}
    (kept : ∀ context, P context → P (f context)) :
    Preserves (fun activation : Activation => P activation.context) (Activation.onContext f) :=
  fun activation holds => kept activation.context holds

/-- A check of options comes before the addon, and has no part in it. -/
theorem eq_of_checked {α β : Type} {check : Except Failure α} {made answer : β}
    (ran : (do let _ ← check; return made) = Except.ok answer) : made = answer := by
  cases check with
  | error failure => cases ran
  | ok _ => exact Except.ok.inj ran

theorem keepsCache_rename {name : String} {options : Toml.Table} {addon : Addon}
    (made : rename name options = .ok addon) : addon.KeepsCache := by
  cases eq_of_checked made
  refine ⟨?_, ?_⟩
  · refine Leaves.bind (fun _ => rfl) fun scope => (leaves_orFail _ _).bind fun table => ?_
    split
    · exact leaves_cache_onContext _
    · exact Leaves.pure _
  · refine Preserves.bind (fun _ holds => holds) fun scope =>
      (preserves_orFail _).bind fun table => ?_
    split
    · exact preserves_onContext fun context keeps =>
        ⟨keeps.watch, keeps.generators, keeps.processors, keeps.resultProcessors,
          keeps.postTransformers⟩
    · exact Preserves.pure _

theorem keepsCache_banner {name : String} {options : Toml.Table} {addon : Addon}
    (made : banner name options = .ok addon) : addon.KeepsCache := by
  cases eq_of_checked made
  refine ⟨?_, ?_⟩
  · exact Leaves.bind (fun _ => rfl) fun scope => (leaves_orFail _ _).bind fun _ =>
      leaves_cache_onContext _
  · exact Preserves.bind (fun _ holds => holds) fun scope => (preserves_orFail _).bind fun _ =>
      preserves_onContext fun context keeps => keeps.withProcessor fun _ _ => Leaves.pure _

theorem leaves_cache_manifest (file : String) (scope : Scope) (roots : List Path) :
    Leaves Session.cache (Manifest.write file scope roots) := by
  unfold Manifest.write
  split
  · exact Leaves.bind (fun _ => rfl) fun _ => Step.leaves_cache_write _ _
  · exact Leaves.pure _

theorem keepsCache_manifest {name : String} {options : Toml.Table} {addon : Addon}
    (made : manifest name options = .ok addon) : addon.KeepsCache := by
  cases eq_of_checked made
  refine ⟨?_, ?_⟩
  · exact Leaves.bind (fun _ => rfl) fun scope => (leaves_orFail _ _).bind fun _ =>
      leaves_cache_onContext _
  · exact Preserves.bind (fun _ holds => holds) fun scope => (preserves_orFail _).bind fun file =>
      preserves_onContext fun context keeps =>
        keeps.withResultProcessor (leaves_cache_manifest _ _)

/-- Watching for a callback leaves the cache alone. -/
theorem leaves_cache_watchFile {context : Context} (keeps : context.KeepsCache) (path : Path) :
    Leaves Session.cache (context.toScope.watchFile path) :=
  leaves_iff_follows.mpr (Scope.follows_watchFile fun watch wanted session next watched =>
    (keeps.watch watch wanted path session.workspace next watched).symm)

theorem leaves_cache_assetImports {context : Context} (keeps : context.KeepsCache) (graph : Nat)
    (path : Path) (source : String) :
    Leaves Session.cache (AssetImports.generator graph context.toScope path source) := by
  refine Leaves.bind (fun _ => rfl) fun workspace => ?_
  refine Leaves.bind (fun _ => rfl) fun _ => ?_
  exact Leaves.forM fun asset _ => leaves_cache_watchFile keeps asset

theorem keepsCache_assetImports (name : String) : (assetImports name).KeepsCache := by
  refine ⟨?_, ?_⟩
  · refine Leaves.bind (fun _ => rfl) fun activation => Leaves.bind (fun _ => rfl) fun _ => ?_
    exact (leaves_cache_onContext _).bind fun _ => leaves_cache_onContext _
  · refine Preserves.bind (fun _ holds => holds) fun activation => ?_
    refine Preserves.bind (fun _ holds => holds) fun _ => Preserves.bind ?_ fun _ => ?_
    · exact preserves_onContext fun context keeps =>
        keeps.withGenerator (leaves_cache_assetImports keeps _)
    · exact preserves_onContext fun context keeps =>
        ⟨keeps.watch, keeps.generators, keeps.processors, keeps.resultProcessors,
          keeps.postTransformers⟩

theorem keepsCache_builtin {name kind : String} {options : Toml.Table} {addon : Addon}
    (made : builtin name kind options = .ok addon) : addon.KeepsCache := by
  unfold builtin at made
  split at made
  · exact keepsCache_rename made
  · exact keepsCache_banner made
  · exact keepsCache_manifest made
  · cases made
    exact keepsCache_assetImports name
  · simp at made

/-- A module makes one of the addons of the library. -/
theorem exists_builtin_of_loadModule {system : Files.System} {name : String} {path : Path}
    {addon : Addon} (loaded : loadModule system name path = .ok addon) :
    ∃ kind options, builtin name kind options = .ok addon := by
  unfold loadModule at loaded
  dsimp only at loaded
  repeat' split at loaded
  all_goals first
    | simp at loaded
    | exact ⟨_, _, loaded⟩

/-- Whatever a module says, the addon that it makes leaves the cache alone. -/
theorem keepsCache_of_loadModule {system : Files.System} {name : String} {path : Path}
    {addon : Addon} (loaded : loadModule system name path = .ok addon) : addon.KeepsCache :=
  let ⟨_, _, made⟩ := exists_builtin_of_loadModule loaded
  keepsCache_builtin made

theorem all_insert_module {A : Addon → Prop} {registry : Registry} (all : registry.All A)
    (name : String) (file : Path) : (registry.insert name (.module file)).1.All A := by
  unfold Registry.insert
  split
  · exact all
  · refine ⟨fun other addon member => ?_, all.2⟩
    rcases List.mem_append.mp member with known | fresh
    · exact all.1 other addon known
    · simp at fresh

theorem all_addModules {A : Addon → Prop} {registry : Registry} (all : registry.All A)
    (files : List Path) :
    (registry.addModules files).1.All A := by
  unfold Registry.addModules
  refine List.foldlRecOn files _
    (motive := fun state : Registry × List Diagnostic => state.1.All A) all ?_
  intro state all file _
  obtain ⟨registry, warnings⟩ := state
  dsimp only
  cases Registry.moduleName? file with
  | none => exact all
  | some name => exact all_insert_module all name file

/-- What holds of all addons of modules holds of those in a registry that finds its addons in a
directory. -/
theorem all_create {A : Addon → Prop} (system : Files.System) (directory : Option Path)
    (names : String) (project? : Option Project)
    (good : ∀ system name path addon, loadModule system name path = .ok addon → A addon) :
    (Registry.create system directory names project? loadModule).1.All A := by
  let bare : Registry :=
    { explicit := Target.splitNames names, project? := project?, resolve := loadModule }
  have all : bare.All A := ⟨by simp [bare], good⟩
  unfold Registry.create
  cases directory with
  | none => exact all
  | some directory =>
    change (bare.scan system directory).1.All A
    unfold Registry.scan
    split
    · split
      · exact all_addModules all _
      · exact all
    · exact all

/-- So these leave the cache alone. -/
theorem all_keepsCache_create (system : Files.System) (directory : Option Path) (names : String)
    (project? : Option Project) :
    (Registry.create system directory names project? loadModule).1.All Addon.KeepsCache :=
  all_create system directory names project? fun _ _ _ _ => keepsCache_of_loadModule

end Recast.Addons
