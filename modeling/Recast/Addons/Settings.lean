import Recast.Build.Addon

/-!
# Settings of addons

The options of an addon, with the settings of a target laid over them, read with a check of their types.
-/

namespace Recast.Addons

open Recast.Build

/-- The options of an addon under a target. -/
def optionsFor (name : String) (options : Toml.Table) (scope : Scope) : Toml.Table :=
  options.overlaid ((scope.settings.settingsFor? name).getD [])

/-- An option that is a text, if it is set. -/
def textOption (name : String) (options : Toml.Table) (key : String) : Except Failure (Option String) :=
  match options.get? key with
  | none => .ok none
  | some (.string text) => .ok (some text)
  | some other =>
    .error (.addon name ("option '" ++ key ++ "' must be a string, found " ++ other.typeName))

/-- Goes on with an answer, or fails with it. -/
def orFail {σ α : Type} : Except Failure α → EStateM Failure σ α
  | .ok a => pure a
  | .error failure => throw failure

/-- The scope of the context that is activated. -/
def activeScope : EStateM Failure Activation Scope :=
  return (← get).context.toScope

end Recast.Addons
