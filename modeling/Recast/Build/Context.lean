import Recast.Build.Workspace
import Recast.Config.Project
import Recast.Distinct

/-!
# The context of a target

A target is compiled in a context: its scope, which never changes, its root files, which may grow, and the
callbacks that addons registered, in order.
-/

namespace Recast.Build

open Recast.Emit

/-- What is fixed while a target is compiled. -/
structure Scope where
  target : String
  options : Options
  projectRoot : Path
  settings : TargetSettings
  transpileOnly : Bool
  debug : Bool
  watch? : Option (Path → Workspace → Except Failure Workspace) := none
  dependents? : Option (Path → List Path) := none
deriving Inhabited

/-- What a callback may change: the workspace, and the root files of its target. -/
structure Session where
  workspace : Workspace
  roots : List Path
deriving Inhabited

/-- A step of a build. What it did before it failed stays done. -/
abbrev Step := EStateM Failure Session

/-- Runs on the source of a file before anything else. -/
abbrev Generator := Scope → Path → String → Step Unit

/-- Changes the text of a file before it is parsed. -/
abbrev Processor := Scope → Path → String → Step String

/-- Runs on the root files of a target after they were compiled. -/
abbrev ResultProcessor := Scope → List Path → Step Unit

/-- The files that depend on a file. -/
abbrev DependencyResolver := Path → Workspace → List Path

namespace Step

def workspace : Step Workspace :=
  return (← get).workspace

def modifyWorkspace (f : Workspace → Workspace) : Step Unit :=
  modify fun session => { session with workspace := f session.workspace }

def modifyCache (f : Cache → Cache) : Step Unit :=
  modifyWorkspace fun workspace => { workspace with cache := f workspace.cache }

def report (diagnostic : Diagnostic) : Step Unit :=
  modifyWorkspace (·.report diagnostic)

/-- Runs a step that only leaves lines in the journal. -/
def journaled {α : Type} (step : Journaled α) : Step α := fun session =>
  let keep (journal : Journal) : Session :=
    { session with workspace := { session.workspace with journal := journal } }
  match step session.workspace.journal with
  | .ok a journal => .ok a (keep journal)
  | .error failure journal => .error failure (keep journal)

/-- Writes a file. -/
def write (path : Path) (text : String) : Step Unit := do
  let (system, error) := (← workspace).system.write path text
  modifyWorkspace fun workspace => { workspace with system := system }
  match error with
  | none => return
  | some error => throw (.file error)

end Step

namespace Scope

/-- Whether the outputs of the target are written. -/
def writesFiles (scope : Scope) : Bool :=
  scope.settings.writesFiles

/-- Adds a root file to the target; false when it is one already. -/
def addInput (scope : Scope) (path : Path) : Step Bool := do
  let session ← get
  let path := session.workspace.system.resolve (scope.projectRoot.join path)
  if session.roots.any (path.same ·) then return false
  set { session with roots := session.roots ++ [path] }
  return true

/-- Asks for a file to be watched; nothing happens unless the build watches. -/
def watchFile (scope : Scope) (path : Path) : Step Unit := do
  match scope.watch? with
  | none => return
  | some watch =>
    match watch path (← Step.workspace) with
    | .ok workspace => Step.modifyWorkspace fun _ => workspace
    | .error failure => throw failure

end Scope

/-- A scope with its root files and callbacks. -/
structure Context extends Scope where
  roots : List Path := []
  generators : List Generator := []
  processors : List Processor := []
  transformers : TransformerSet := {}
  resultProcessors : List ResultProcessor := []
  postTransformers : List ResultProcessor := []
  resolvers : List DependencyResolver := []
deriving Inhabited

namespace Context

def isRoot (context : Context) (path : Path) : Bool :=
  context.roots.any (·.same path)

/-- The files that depend on a file: those that the compiler was told of, then those that addons know of; each
once. -/
def dependents (context : Context) (workspace : Workspace) (path : Path) : List Path :=
  let told := (context.dependents?.map fun f => f path).getD []
  distinct Path.same (told ++ context.resolvers.flatMap fun resolver => resolver path workspace)

/-- The context as the language service sees it. -/
def host (context : Context) (session : Session) : Host where
  projectName := context.projectRoot.toString ++ " [" ++ context.target ++ "]"
  projectRoot := context.projectRoot
  roots := session.roots
  options := context.options
  transformers := context.transformers
  version path := (session.workspace.cache.get path context.target).version
  text? path := (session.workspace.cache.get path context.target).snapshot

end Context

end Recast.Build
