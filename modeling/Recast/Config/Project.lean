import Recast.Options
import Recast.Toml.Value

/-!
# Configurations

What a project says about its files, its addons, its options and its targets.
-/

namespace Recast

/-- What a configuration says about one target. -/
structure TargetSettings where
  addons : Option (List String) := none
  write : Option Bool := none
  transpileOnly : Option Bool := none
  options : Options := {}
  settings : Toml.Table := []
deriving Repr, Inhabited

namespace TargetSettings

/-- A target writes its outputs unless it says no. -/
def writesFiles (target : TargetSettings) : Bool :=
  target.write != some false

/-- The settings of an addon for the target. -/
def settingsFor? (target : TargetSettings) (addon : String) : Option Toml.Table :=
  match Toml.Table.get? target.settings addon with
  | some (.table entries) => some entries
  | _ => none

end TargetSettings

/-- A configuration. The targets are sorted by name. -/
structure Project where
  files : List Path := []
  includes : List Path := []
  addons : Option (List String) := none
  addonDir : Option Path := none
  options : Options := {}
  targets : Option (List (String × TargetSettings)) := none
deriving Repr, Inhabited

namespace Project

/-- What is said about a target. -/
def target? (project : Project) (name : String) : Option TargetSettings :=
  project.targets.bind (·.lookup name)

def targetNames (project : Project) : List String :=
  (project.targets.getD []).map (·.1)

end Project

end Recast
