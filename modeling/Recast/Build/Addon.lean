import Recast.Build.Context
import Recast.Files.System
import Recast.Target

/-!
# Addons and their registry

An addon registers callbacks on a context. The registry knows addons by name: those found in a directory, which
are loaded when they are first wanted, and those registered directly. The first of a name wins.
-/

namespace Recast.Build

/-- What the activation of an addon may change. -/
structure Activation where
  context : Context
  workspace : Workspace

/-- A named extension of the compiler. -/
structure Addon where
  name : String
  activate : EStateM Failure Activation Unit

namespace Activation

/-- Changes the context. -/
def onContext (f : Context → Context) : EStateM Failure Activation Unit :=
  modify fun activation => { activation with context := f activation.context }

/-- Changes the workspace. -/
def onWorkspace (f : Workspace → Workspace) : EStateM Failure Activation Unit :=
  modify fun activation => { activation with workspace := f activation.workspace }

def registerGenerator (generator : Generator) : EStateM Failure Activation Unit :=
  onContext fun context => { context with generators := context.generators ++ [generator] }

def registerProcessor (processor : Processor) : EStateM Failure Activation Unit :=
  onContext fun context => { context with processors := context.processors ++ [processor] }

def registerTransformers (stage : Emit.Stage) (hooks : Emit.Hooks) : EStateM Failure Activation Unit :=
  onContext fun context => { context with transformers := context.transformers.register stage hooks }

def registerResultProcessor (processor : ResultProcessor) : EStateM Failure Activation Unit :=
  onContext fun context => { context with resultProcessors := context.resultProcessors ++ [processor] }

def registerPostTransformer (processor : ResultProcessor) : EStateM Failure Activation Unit :=
  onContext fun context => { context with postTransformers := context.postTransformers ++ [processor] }

def registerResolver (resolver : DependencyResolver) : EStateM Failure Activation Unit :=
  onContext fun context => { context with resolvers := context.resolvers ++ [resolver] }

end Activation

/-- Where an addon comes from. -/
inductive AddonSource where
  | module (path : Path)
  | loaded (addon : Addon)

/-- How a source is called in messages. -/
def AddonSource.location : AddonSource → String
  | module path => path.toString
  | loaded _ => "<registered>"

/-- Turns a module into an addon of a name. -/
abbrev AddonResolver := Files.System → String → Path → Except Failure Addon

/-- The addons that are known, in the order in which they were found. -/
structure Registry where
  explicit : List String
  project? : Option Project
  resolve : AddonResolver
  entries : List (String × AddonSource) := []

namespace Registry

/-- The stem of the file that makes a directory an addon. -/
def moduleStem : String := "addon"

/-- The name of the addon to which a file belongs, if the file makes its directory an addon. -/
def moduleName? (file : Path) : Option String :=
  match file.stem? with
  | some stem => if Path.lowerAscii stem = moduleStem then file.parent?.bind (·.fileName?) else none
  | none => none

def available (registry : Registry) : List String :=
  registry.entries.map (·.1)

/-- Adds a source under a name; when the name is taken there is a warning instead. -/
def insert (registry : Registry) (name : String) (source : AddonSource) : Registry × List Diagnostic :=
  match registry.entries.lookup name with
  | some kept =>
    (registry, [.warning ("Duplicate addon \"" ++ name ++ "\" at " ++ source.location ++ "; keeping " ++
      kept.location)])
  | none => ({ registry with entries := registry.entries ++ [(name, source)] }, [])

/-- Adds an addon; false when its name is taken. -/
def register (registry : Registry) (addon : Addon) : Bool × Registry × List Diagnostic :=
  (!registry.available.contains addon.name, registry.insert addon.name (.loaded addon))

/-- Adds the modules among some files. -/
def addModules (registry : Registry) (files : List Path) : Registry × List Diagnostic :=
  files.foldl
    (fun (registry, warnings) file =>
      match moduleName? file with
      | none => (registry, warnings)
      | some name =>
        let (registry, more) := registry.insert name (.module file)
        (registry, warnings ++ more))
    (registry, [])

/-- Adds the modules below a directory; one that does not exist has none. -/
def scan (registry : Registry) (system : Files.System) (directory : Path) : Registry × List Diagnostic :=
  if system.directoryExists directory then
    match system.list directory [] with
    | .ok files => registry.addModules files
    | .error error =>
      (registry, [(Diagnostic.warning ("Cannot scan addon directory: " ++ error.message)).withFile directory])
  else (registry, [])

/-- A registry with the modules of a directory, if one is given. The names that are wanted are written with
commas; without any, the configuration decides. -/
def create (system : Files.System) (directory : Option Path) (names : String) (project? : Option Project)
    (resolve : AddonResolver) : Registry × List Diagnostic :=
  let registry : Registry := { explicit := Target.splitNames names, project? := project?, resolve := resolve }
  match directory with
  | some directory => registry.scan system directory
  | none => (registry, [])

/-- The names that are wanted for a target: explicit ones, else those of the target, else those of the project. -/
def expected (registry : Registry) (target : String) : List String :=
  if registry.explicit.isEmpty then
    match registry.project? with
    | none => []
    | some project =>
      let own := if Target.isWildcard target then none else (project.target? target).bind (·.addons)
      (own <|> project.addons).getD []
  else registry.explicit

/-- The warning about names that are wanted and not known. -/
def missingWarning (target : String) (missing : List String) : Diagnostic :=
  let names := ", ".intercalate missing
  .warning (if Target.isWildcard target then "Missing addons: " ++ names
    else "Missing addons for target \"" ++ target ++ "\": " ++ names)

/-- The entry of a name with its source replaced. -/
def replace (entries : List (String × AddonSource)) (name : String) (addon : Addon) : List (String × AddonSource) :=
  entries.map fun entry => if entry.1 = name then (name, .loaded addon) else entry

/-- The addon of a name. A module is loaded and kept; a failure to load it is reported. -/
def load (registry : Registry) (system : Files.System) (name : String) :
    Option Addon × Registry × List Diagnostic :=
  match registry.entries.lookup name with
  | none => (none, registry, [])
  | some (.loaded addon) => (some addon, registry, [])
  | some (.module path) =>
    match registry.resolve system name path with
    | .ok addon => (some addon, { registry with entries := replace registry.entries name addon }, [])
    | .error failure => (none, registry, [(Diagnostic.error failure.message).withFile path])

/-- The addons of some names. -/
def loadAll (registry : Registry) (system : Files.System) :
    List String → List Addon × Registry × List Diagnostic
  | [] => ([], registry, [])
  | name :: names =>
    let (addon, registry, reports) := registry.load system name
    let (addons, registry, more) := registry.loadAll system names
    (addon.toList ++ addons, registry, reports ++ more)

/-- The addons to activate for a target: those that are wanted, in that order, or all when none is wanted. -/
def addonsFor (registry : Registry) (system : Files.System) (target : String) :
    List Addon × Registry × List Diagnostic :=
  let expected := registry.expected target
  if expected.isEmpty then registry.loadAll system registry.available
  else
    let known := registry.available
    let missing := expected.filter (!known.contains ·)
    let warnings := if missing.isEmpty then [] else [missingWarning target missing]
    let (addons, registry, reports) :=
      registry.loadAll system (distinct (· == ·) (expected.filter known.contains))
    (addons, registry, warnings ++ reports)

end Registry

end Recast.Build
