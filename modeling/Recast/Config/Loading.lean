import Recast.Config.Decoding
import Recast.Config.Warning
import Recast.Failure
import Recast.Files.System
import Recast.Script.Naming
import Recast.Target

/-!
# Loading a configuration

A configuration comes from a text, or from the file at the root of the project, which may be absent. From it the
root files of a build follow.
-/

namespace Recast

/-- How an error of the TOML grammar is worded. -/
def tomlSyntaxError : String := "<toml syntax>"

/-- How an offence is worded. In a document whose values cannot all be kept, it counts as one of the grammar. -/
def offenceText (document : Toml.Table) (offence : Toml.Offence) : String :=
  if document.settled?.isSome then offence.message else tomlSyntaxError

namespace Project

/-- The name of the configuration at the root of a project. -/
def fileName : String := "tspipe.toml"

/-- Reads a configuration, with a warning for each key that nobody expects. -/
def parse (content : String) (file : Path) : Except Failure (Project × List KeyWarning) :=
  match Toml.parse? content with
  | none => .error (.config file tomlSyntaxError)
  | some document =>
    match decode document with
    | .error offence => .error (.config file (offenceText document offence))
    | .ok (project, unknown) => .ok (project, unknown.map (KeyWarning.ofKey content file))

/-- Reads the configuration in a file. -/
def load (system : Files.System) (file : Path) : Except Failure (Project × List KeyWarning) :=
  match system.read file with
  | .error error => .error (.file error)
  | .ok content => parse content file

/-- Reads the configuration of a project, which says nothing when it is absent. -/
def loadOrDefault (system : Files.System) (root : Path) : Except Failure (Project × List KeyWarning) :=
  let file := root.join (.ofString fileName)
  if system.fileExists file then load system file else .ok ({}, [])

/-- The files that a configuration lists. -/
def listedRoots (project : Project) (system : Files.System) (root : Path) : List Path :=
  distinct Path.same (project.files.map fun file => system.resolve (root.join file))

/-- The scripts below a directory, as resolved paths. -/
def scriptsBelow (system : Files.System) (directory : Path) : Except Failure (List Path) :=
  match system.list directory scriptExtensions with
  | .error error => .error (.file error)
  | .ok files => .ok (files.map system.resolve)

/-- The root files: those that are listed, then the scripts below the included directories; each once. -/
def rootFiles (project : Project) (system : Files.System) (root : Path) : Except Failure (List Path) :=
  project.includes.foldlM
    (fun roots directory => do
      let found ← scriptsBelow system (system.resolve (root.join directory))
      return found.foldl (pushNew Path.same) roots)
    (project.listedRoots system root)

end Project

/-- Whether a target other than the wildcard is not configured. -/
def hasInvalidTargets (targets : List String) (project? : Option Project) : Bool :=
  (targets.filter fun target => !Target.isWildcard target).any fun target =>
    (project?.bind (·.target? target)).isNone

/-- What the environment says about a build. -/
structure Environment where
  targets : Option (List String) := none
  addons : Option String := none
  outDir : Option Path := none
deriving Repr, Inhabited

/-- Reads the environment; what is blank counts as unset. -/
def Environment.ofLookup (lookup : String → Option String) : Environment where
  targets := ((lookup "TSPIPE_TARGETS").map Target.splitNames).filter (!·.isEmpty)
  addons := (lookup "TSPIPE_ADDONS").filter (Text.trim · ≠ "")
  outDir := ((lookup "TSPIPE_OUT_DIR").filter (Text.trim · ≠ "")).map .ofString

end Recast
