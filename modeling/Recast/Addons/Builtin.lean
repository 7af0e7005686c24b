import Recast.Addons.AssetImports
import Recast.Addons.Banner
import Recast.Addons.Manifest
import Recast.Addons.Rename
import Recast.Config.Loading

/-!
# Addons by name, and addon modules

A module is a document that names one of the addons of this library and gives its options.
-/

namespace Recast.Addons

open Recast.Build Recast.Toml

/-- The names of the addons of this library. -/
def builtinNames : List String :=
  ["rename", "banner", "manifest", "asset-imports"]

/-- An addon of this library under a name of its own. -/
def builtin (name kind : String) (options : Table) : Except Failure Addon :=
  match kind with
  | "rename" => rename name options
  | "banner" => banner name options
  | "manifest" => manifest name options
  | "asset-imports" => .ok (assetImports name)
  | other =>
    .error (.addon name ("unknown builtin '" ++ other ++ "' (expected one of: " ++ ", ".intercalate builtinNames ++ ")"))

/-- What a module says. -/
structure Module where
  uses : Option String := none
  options : Table := []
deriving Inhabited

namespace Module

def fields : List String := ["uses", "options"]

/-- Takes one entry in; there are no other keys. -/
def decodeEntry (module : Module) (entry : String × Value) : Decoding Module := do
  match entry.1 with
  | "uses" => return { module with uses := some (← asText entry.2) }
  | "options" => return { module with options := ← asTable entry.2 }
  | key => throw (.unknownField key fields)

def decode (document : Table) : Except Offence Module :=
  (document.foldlM decodeEntry {} : Decoding Module).run' []

end Module

/-- Loads the module in a file. -/
def loadModule : AddonResolver := fun system name path =>
  let failed {α : Type} (detail : String) : Except Failure α := .error (.addonLoad name path detail)
  if path.extension?.map Path.lowerAscii = some "toml" then
    match system.read path with
    | .error error => failed error.message
    | .ok content =>
      match Toml.parse? content with
      | none => failed tomlSyntaxError
      | some document =>
        match Module.decode document with
        | .error offence => failed (offenceText document offence)
        | .ok module =>
          match builtin name (module.uses.getD name) module.options with
          | .error (.addon _ detail) => failed detail
          | result => result
  else failed "unsupported addon module, expected an addon.toml manifest"

end Recast.Addons
