import Recast.Build.Addon
import Recast.Build.Pass
import Recast.Config.Loading

/-!
# The compiler

The compiler has one context for each active target. Contexts are made when they are first needed, and new
options drop them together with the cache and the watchers.
-/

namespace Recast.Build

open Recast.Emit

/-- The options of a compiler. -/
structure Setup where
  projectRoot : Path
  project : Project
  targets : List String := []
  registry : Registry
  outDir : Option Path := none
  sourceMap : Bool := false
  debug : Bool := false
  watch : Bool := false
  transpileOnly : Bool := false
  dependents? : Option (Path → List Path) := none

namespace Setup

/-- The targets to build, each once. -/
def activeTargets (setup : Setup) : List String :=
  Target.normalize setup.targets

/-- The options of the project with those of the call laid over them. -/
def options (setup : Setup) : Options :=
  setup.project.options.overlaid
    { outDir := setup.outDir
      sourceMap := if setup.sourceMap then some true else none
      transpileOnly := if setup.transpileOnly then some true else none }

/-- What is said about a target. -/
def settings (setup : Setup) (target : String) : TargetSettings :=
  (setup.project.target? target).getD {}

/-- The options under which a target is built. -/
def targetOptions (setup : Setup) (target : String) (current : Path) : Options :=
  (setup.options.overlaid (setup.settings target).options).resolved current setup.projectRoot

/-- The scope of a target. -/
def scope (setup : Setup) (system : Files.System) (target : String) : Scope :=
  let options := setup.targetOptions target system.current
  let settings := setup.settings target
  { target := target
    options := options
    projectRoot := setup.projectRoot
    settings := settings
    transpileOnly := setup.transpileOnly || settings.transpileOnly.getD false || options.wantsTranspileOnly
    debug := setup.debug
    watch? := if setup.watch && system.supportsWatch then some fun path workspace => workspace.watch path else none
    dependents? := setup.dependents? }

end Setup

/-- How far a compiler is. -/
inductive Phase where
  | unconfigured
  | configured
  | ready
deriving DecidableEq, Repr, Inhabited

/-- A compiler: its workspace, its options, how far it is, and a context for each target that has one. Callbacks may
add at most `rootLimit` root files to a target in one pass. -/
structure Compiler where
  workspace : Workspace
  setup? : Option Setup := none
  phase : Phase := .unconfigured
  contexts : List (String × Context) := []
  rootLimit : Nat := 1000000

/-- A step of a compiler. What it did before it failed stays done. -/
abbrev Compiling := EStateM Failure Compiler

namespace Compiler

/-- A compiler without options. -/
def ofSystem (system : Files.System) : Compiler :=
  { workspace := { system := system } }

def context? (compiler : Compiler) (target : String) : Option Context :=
  compiler.contexts.lookup target

/-- The contexts with one changed. -/
def updateContext (contexts : List (String × Context)) (target : String) (f : Context → Context) :
    List (String × Context) :=
  contexts.map fun entry => if entry.1 = target then (entry.1, f entry.2) else entry

/-- Sets new options. Contexts and cache are dropped, and all watchers are closed. -/
def configure (compiler : Compiler) (setup : Setup) : Compiler :=
  { compiler with
    workspace := { compiler.workspace.closeWatches with cache := {} }
    setup? := some setup
    phase := .configured
    contexts := [] }

def modifyWorkspace (f : Workspace → Workspace) : Compiling Unit :=
  modify fun compiler => { compiler with workspace := f compiler.workspace }

/-- The options, which must be set. -/
def setup : Compiling Setup := do
  match (← get).setup? with
  | some setup => return setup
  | none => throw .notConfigured

/-- The context of a target, which must exist. -/
def context (target : String) : Compiling Context := do
  match (← get).context? target with
  | some context => return context
  | none => throw (.missingContext target)

/-- The compiler after a step in a context: the workspace is that of the step, and so are the root files. -/
def absorb (compiler : Compiler) (target : String) (session : Session) : Compiler :=
  { compiler with
    workspace := session.workspace
    contexts := updateContext compiler.contexts target fun context => { context with roots := session.roots } }

/-- Runs a step in the context of a target. -/
def inContext {α : Type} (target : String) (step : Context → Step α) : Compiling α := do
  let context ← context target
  fun compiler =>
    match step context ⟨compiler.workspace, context.roots⟩ with
    | .ok a session => .ok a (compiler.absorb target session)
    | .error failure session => .error failure (compiler.absorb target session)

/-- The addons of a target. -/
def addonsFor (target : String) : Compiling (List Addon) := do
  let setup ← setup
  let (addons, registry, reports) := setup.registry.addonsFor (← get).workspace.system target
  modify fun compiler =>
    { compiler with
      setup? := some { setup with registry := registry }
      workspace := reports.foldl Workspace.report compiler.workspace }
  return addons

/-- Activates addons on a context, one after the other. -/
def activate (context : Context) (addons : List Addon) : Compiling Context := fun compiler =>
  match (addons.forM (·.activate) : EStateM Failure Activation Unit) ⟨context, compiler.workspace⟩ with
  | .ok _ activation => .ok activation.context { compiler with workspace := activation.workspace }
  | .error failure activation => .error failure { compiler with workspace := activation.workspace }

/-- Makes the context of a target. -/
def makeContext (target : String) : Compiling Context := do
  let setup ← setup
  let system := (← get).workspace.system
  match setup.project.rootFiles system setup.projectRoot with
  | .error failure => throw failure
  | .ok roots =>
    let context : Context := { toScope := setup.scope system target, roots := roots }
    activate context (← addonsFor target)

/-- Makes the context of a target that has none. -/
def ensureContext (target : String) : Compiling Unit := do
  if ((← get).context? target).isNone then
    let context ← makeContext target
    modify fun compiler => { compiler with contexts := compiler.contexts ++ [(target, context)] }

/-- Makes the contexts that are missing. -/
def ensureContexts : Compiling Unit := do
  (← setup).activeTargets.forM ensureContext
  modify fun compiler => { compiler with phase := .ready }

/-- Compiles all root files of a target. -/
def compileTarget (target : String) (force : Bool) : Compiling PassResult := do
  let limit := (← get).rootLimit
  inContext target fun context => context.compileAll limit force

/-- Compiles all root files of all targets. -/
def compile : Compiling PassResult := do
  ensureContexts
  let targets := (← setup).activeTargets
  let result ← targets.foldlM
    (fun result target => return result.merge (← compileTarget target false)) ({} : PassResult)
  return { result with skipped := result.skipped || targets.isEmpty }

/-- Compiles one file for a target. -/
def compileFile (target : String) (path : Path) (force : Bool) : Compiling Emission :=
  inContext target fun context => context.compileFile path force

/-- The active targets that write their outputs. -/
def writingTargets : Compiling (List String) := do
  (← setup).activeTargets.filterM fun target => return (← context target).writesFiles

/-- Closes all watchers, and counts them. -/
def closeWatches : Compiling Nat := do
  let count := (← get).workspace.watches.length
  modifyWorkspace (·.closeWatches)
  return count

end Compiler

end Recast.Build
