import Recast.Addons.Settings

/-!
# The manifest addon

After each pass it writes which outputs belong to which root file. A target that does not write has no manifest.
-/

namespace Recast.Addons

open Recast.Build

/-- What a manifest says about one root file. -/
structure ManifestEntry where
  source : String
  version : Nat
  outputs : List String
deriving DecidableEq, Repr, Inhabited

/-- The root files of a target with their outputs. -/
structure Manifest where
  target : String
  files : List ManifestEntry
deriving DecidableEq, Repr, Inhabited

namespace Manifest

def defaultFile : String := "manifest.json"

/-- How a file is named in a manifest: relative to the project if it lies in there, and with slashes. -/
def nameOf (root path : Path) : String :=
  Text.replace "\\" "/" ((path.stripPrefix? root).getD path).toString

/-- What the cache knows of a root file. -/
def entry (scope : Scope) (cache : Cache) (path : Path) : ManifestEntry :=
  let known := cache.get path scope.target
  ⟨nameOf scope.projectRoot path, known.version, known.outputs.map fun file => nameOf scope.projectRoot file.name⟩

/-- The manifest of some root files. -/
def ofCache (scope : Scope) (cache : Cache) (roots : List Path) : Manifest :=
  ⟨scope.target, roots.map (entry scope cache)⟩

def toJson (manifest : Manifest) : Json :=
  let file (entry : ManifestEntry) : Json :=
    .obj [("source", .str entry.source), ("version", .nat entry.version), ("outputs", .strs entry.outputs)]
  .obj [("target", .str manifest.target), ("files", .arr (manifest.files.map file))]

/-- Where the manifest is written: below the output directory, or the project when there is none. -/
def location (scope : Scope) (file : String) : Path :=
  (scope.options.outDir.getD scope.projectRoot).join (.ofString file)

/-- Writes the manifest of a pass. -/
def write (file : String) : ResultProcessor := fun scope roots => do
  if scope.writesFiles then
    let manifest := ofCache scope (← Step.workspace).cache roots
    Step.write (location scope file) (manifest.toJson.pretty 0)

end Manifest

/-- The addon that writes manifests. -/
def manifest (name : String) (options : Toml.Table) : Except Failure Addon := do
  let _ ← textOption name options "file"
  return {
    name := name
    activate := do
      let file ← orFail (textOption name (optionsFor name options (← activeScope)) "file")
      Activation.registerResultProcessor (Manifest.write (file.getD Manifest.defaultFile)) }

end Recast.Addons
