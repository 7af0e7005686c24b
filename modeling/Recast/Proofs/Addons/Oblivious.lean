import Recast.Proofs.Addons.Callbacks
import Recast.Proofs.Build.Remaining

/-! # What the addons of the library see of the past

An addon of the library does the same whatever is left in the workspace. The one that follows
imports opens a graph behind those that are left, and looks into this one only. So everything that
is said about oblivious addons holds of those that are loaded from modules
(`oblivious_of_loadModule`).
-/

namespace Recast.Addons

open Recast.Build Recast.Emit

variable {left : Leftover}

theorem twins_orFail {σ α : Type} {R : σ → σ → Prop} (answer : Except Failure α) :
    Twins R Eq (orFail answer : EStateM Failure σ α) (orFail answer) := by
  cases answer with
  | ok a => exact .pure rfl
  | error failure => exact .throw failure

theorem twins_activeScope : Twins left.Activates Eq activeScope activeScope :=
  Twins.get.bind fun _ _ activates => .pure activates.context.scope

theorem oblivious_rename {name : String} {options : Toml.Table} {addon : Addon}
    (made : rename name options = .ok addon) : addon.Oblivious := by
  cases eq_of_checked made
  intro left
  refine twins_activeScope.bind_same fun scope => (twins_orFail _).bind_same fun table => ?_
  split
  · exact Leftover.twins_registerTransformers .preEmit ⟨.cons (fun _ => .pure rfl) .nil, .nil⟩
  · exact .pure rfl

theorem oblivious_banner {name : String} {options : Toml.Table} {addon : Addon}
    (made : banner name options = .ok addon) : addon.Oblivious := by
  cases eq_of_checked made
  intro left
  refine twins_activeScope.bind_same fun scope => (twins_orFail _).bind_same fun template => ?_
  exact Leftover.twins_registerProcessor fun _ _ _ => .pure rfl

theorem twins_manifest (file : String) (scope : Scope) (roots : List Path) :
    Twins left.LingersIn Eq (Manifest.write file scope roots)
      (Manifest.write file scope roots) := by
  unfold Manifest.write
  split
  · refine Leftover.twins_workspace.bind fun used fresh lingers => ?_
    rw [lingers.cache]
    exact Leftover.twins_write _ _
  · exact .pure rfl

theorem oblivious_manifest {name : String} {options : Toml.Table} {addon : Addon}
    (made : manifest name options = .ok addon) : addon.Oblivious := by
  cases eq_of_checked made
  intro left
  refine twins_activeScope.bind_same fun scope => (twins_orFail _).bind_same fun file => ?_
  exact Leftover.twins_registerResultProcessor fun scope roots => twins_manifest _ scope roots

/-- A graph behind those that are left is changed as it is without them. -/
theorem twins_assetImports {scope : Scope}
    (watches : ∀ path, Twins left.LingersIn Eq (scope.watchFile path) (scope.watchFile path))
    (graph : Nat) (path : Path) (source : String) :
    Twins left.LingersIn Eq
      (AssetImports.generator (left.imports.length + graph) scope path source)
      (AssetImports.generator graph scope path source) := by
  refine Leftover.twins_workspace.bind fun used fresh lingers => ?_
  rw [lingers.system]
  refine Twins.bind_same (Leftover.twins_modifyWorkspace ?_) fun _ =>
    .forM_same fun asset _ => watches asset
  intro used fresh lingers
  refine { lingers with imports := ?_ }
  dsimp only
  rw [lingers.imports]
  exact List.modifyTailIdx_add _ graph left.imports fresh.imports

theorem oblivious_assetImports (name : String) : (assetImports name).Oblivious := by
  intro left
  refine Twins.get.bind fun used fresh activates => ?_
  rw [activates.workspace.imports, List.length_append]
  refine Twins.bind_same (.modify fun used fresh activates =>
    ⟨activates.context, { activates.workspace with imports := ?_ }⟩) fun _ => ?_
  · dsimp only
    rw [activates.workspace.imports, List.append_assoc]
  refine (Leftover.twins_registerGenerator fun scope watches path source =>
    twins_assetImports watches _ path source).bind_same fun _ => ?_
  refine Leftover.twins_registerResolver fun path s t lingers => ?_
  unfold AssetImports.resolver
  rw [lingers.imports, List.getElem?_append_right (Nat.le_add_right ..), Nat.add_sub_cancel_left]

theorem oblivious_builtin {name kind : String} {options : Toml.Table} {addon : Addon}
    (made : builtin name kind options = .ok addon) : addon.Oblivious := by
  unfold builtin at made
  split at made
  · exact oblivious_rename made
  · exact oblivious_banner made
  · exact oblivious_manifest made
  · cases made
    exact oblivious_assetImports name
  · simp at made

/-- Whatever a module says, the addon that it makes is oblivious. -/
theorem oblivious_of_loadModule {system : Files.System} {name : String} {path : Path}
    {addon : Addon} (loaded : loadModule system name path = .ok addon) : addon.Oblivious :=
  let ⟨_, _, made⟩ := exists_builtin_of_loadModule loaded
  oblivious_builtin made

/-- So a registry that finds its addons in a directory has oblivious addons only. -/
theorem all_oblivious_create (system : Files.System) (directory : Option Path) (names : String)
    (project? : Option Project) :
    (Registry.create system directory names project? loadModule).1.All Addon.Oblivious :=
  all_create system directory names project? fun _ _ _ _ => oblivious_of_loadModule

end Recast.Addons
