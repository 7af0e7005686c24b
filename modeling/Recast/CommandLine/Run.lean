import Recast.Addons.Builtin
import Recast.Build.Watch
import Recast.CommandLine.Help

/-!
# Commands

A command prepares a compiler from the configuration, the environment and its arguments, and runs it. What it
prints goes to one of two streams, and its exit code says whether anything went wrong.
-/

namespace Recast.CommandLine

open Recast.Build Recast.Emit

/-- Where a line goes. -/
inductive Stream where
  | output
  | errors
deriving DecidableEq, Repr, Inhabited

/-- A text on a stream. -/
structure Printed where
  stream : Stream
  text : String
deriving DecidableEq, Repr, Inhabited

/-- How reports are printed. -/
structure Style where
  json : Bool
  colored : Bool
  clock : String
deriving Repr, Inhabited

namespace Style

/-- An event for programs is a line of the output. -/
def event (event : Json) : Printed :=
  ⟨.output, event.compact ++ "\n"⟩

/-- Reports for people go to the stream of errors. -/
def report (style : Style) (report : Report) : Printed :=
  if style.json then event (report.event style.clock)
  else ⟨.errors, report.consoleText style.colored style.clock⟩

/-- The end of a build. -/
def summary (style : Style) (result : PassResult) : Printed :=
  if style.json then
    event (.obj [("emit_skipped", .bool result.skipped),
      ("emitted", .strs (result.paths.map Path.toString)),
      ("errors", .nat result.errorCount),
      ("event", .str "build_complete")])
  else
    ⟨.errors, "Emitted " ++ toString result.files.length ++ " file(s), " ++ toString result.errorCount ++ " error(s)" ++
      (if result.skipped then ", output skipped" else "") ++ "\n"⟩

end Style

/-- How a failure ends the program; the failure of a file is its own cause. -/
def failureText (failure : Failure) : String :=
  let cause := match failure with
    | .file error => "\nCaused by:\n    " ++ Text.replace "\n" "\n    " error.message ++ "\n"
    | _ => ""
  "Error: " ++ failure.message ++ "\n" ++ cause

/-- The addons that are named anywhere: those asked for, those of the project, and those of its targets. -/
def requestedAddons (explicit : String) (project : Project) : List String :=
  let ofTargets := (project.targets.getD []).flatMap fun (_, target) => target.addons.getD []
  (project.addons.getD [] ++ ofTargets).foldl (pushNew (· == ·)) (Target.splitNames explicit)

/-- The error about targets that are not configured. -/
def unknownTargets (targets : List String) (project : Project) : Diagnostic :=
  let unknown := targets.filter fun target => !Target.isWildcard target && (project.target? target).isNone
  let error := Diagnostic.error ("Unknown target(s): " ++ ", ".intercalate unknown)
  if project.targetNames.isEmpty then error
  else { error with chain := ["Configured targets: " ++ ", ".intercalate project.targetNames] }

/-- A step that reports, and may fail. -/
abbrev Reporting := EStateM Failure (List Report)

def say (diagnostics : List Diagnostic) : Reporting Unit :=
  modify (· ++ diagnostics.map Report.diagnostic)

/-- Adds the addons of this library that are asked for by name and not known yet. -/
def registerBuiltins (registry : Registry) (requested : List String) : Reporting Registry := do
  let missing := requested.filter fun name =>
    Addons.builtinNames.contains name && !registry.available.contains name
  missing.foldlM
    (fun registry name => do
      let addon ← Addons.orFail (Addons.builtin name name [])
      let (_, registry, warnings) := registry.register addon
      say warnings
      return registry)
    registry

/-- The configuration of a project, with its warnings reported. -/
def configuration (system : Files.System) (root : Path) (arguments : Arguments) : Reporting Project := do
  let (project, warnings) ← Addons.orFail (match arguments.config with
    | some file => Project.load system (system.resolve file)
    | none => Project.loadOrDefault system root)
  say (warnings.map KeyWarning.diagnostic)
  return project

/-- The options of the compiler, unless targets are asked for that are not configured. -/
def setupOf (system : Files.System) (environment : Environment) (arguments : Arguments) (watch : Bool) :
    Reporting (Option Setup) := do
  let root := system.resolve arguments.project
  let project ← configuration system root arguments
  let targets := if arguments.targets.isEmpty then environment.targets.getD [] else arguments.targets
  if hasInvalidTargets targets (some project) then
    say [unknownTargets targets project]
    return none
  let names := (arguments.addons <|> environment.addons).getD ""
  let directory := (arguments.addonDir <|> project.addonDir).map fun directory => system.resolve (root.join directory)
  let (registry, warnings) := Registry.create system directory names (some project) Addons.loadModule
  say warnings
  let registry ← registerBuiltins registry (requestedAddons names project)
  return some
    { projectRoot := root
      project := project
      targets := targets
      registry := registry
      outDir := (arguments.outDir <|> environment.outDir).map system.resolve
      sourceMap := arguments.sourceMap
      debug := arguments.debug
      watch := watch
      transpileOnly := arguments.transpileOnly }

/-- A compiler for some arguments, unless targets are asked for that are not configured. What was reported so far
is in its workspace. -/
def prepare (system : Files.System) (environment : Environment) (arguments : Arguments) (watch : Bool) :
    Except (Failure × List Report) (List Report × Option Compiler) :=
  match setupOf system environment arguments watch [] with
  | .error failure reports => .error (failure, reports)
  | .ok none reports => .ok (reports, none)
  | .ok (some setup) reports =>
    let compiler := (Compiler.ofSystem system).configure setup
    .ok ([], some { compiler with workspace := { compiler.workspace with reports := reports } })

/-- What a run of the program leaves. -/
structure Outcome where
  exitCode : Nat
  printed : List Printed
  system : Files.System
deriving Inhabited

/-- The end of a run that did not fail. -/
def Outcome.ofResult (isGood : Bool) (printed : List Printed) (system : Files.System) : Outcome :=
  ⟨if isGood then 0 else 1, printed, system⟩

/-- The end of a run that failed. -/
def Outcome.ofFailure (failure : Failure) (printed : List Printed) (system : Files.System) : Outcome :=
  ⟨1, printed ++ [⟨.errors, failureText failure⟩], system⟩

/-- Runs a compiler, and prints what it reports. -/
def runCompiler {α : Type} (style : Style) (compiler : Compiler) (step : Compiling α)
    (ending : α → Bool × List Printed) : Outcome :=
  match step compiler with
  | .ok a compiler =>
    let (isGood, last) := ending a
    .ofResult isGood (compiler.workspace.reports.map style.report ++ last) compiler.workspace.system
  | .error failure compiler =>
    .ofFailure failure (compiler.workspace.reports.map style.report) compiler.workspace.system

/-- Whether there is nothing to watch and something is wrong. -/
def watchesNothing (compiler : Compiler) (seeded : PassResult) : Bool :=
  compiler.workspace.watches.isEmpty && decide (0 < seeded.errorCount)

/-- Watches until an interruption that comes before any change; says whether the first pass was good. -/
def watchOnce : Compiling Bool := do
  let seeded ← Compiler.watch
  if watchesNothing (← get) seeded then return false
  Compiler.runWatch true
  return !seeded.skipped

/-- Runs a command. A watch is interrupted after its first pass. -/
def runCommand (command : Command) (arguments : Arguments) (system : Files.System) (environment : Environment)
    (style : Style) : Outcome :=
  match prepare system environment arguments (command = .watch) with
  | .error (failure, reports) => .ofFailure failure (reports.map style.report) system
  | .ok (reports, none) => .ofResult false (reports.map style.report) system
  | .ok (_, some compiler) =>
    match command with
    | .build => runCompiler style compiler Compiler.compile fun result => (!result.skipped, [style.summary result])
    | .watch => runCompiler style compiler watchOnce fun isGood => (isGood, [])

/-- Runs the program. -/
def run (arguments : List String) (system : Files.System) (lookup : String → Option String) (colored : Bool)
    (clock : String) : Outcome :=
  match Request.ofArguments arguments with
  | .help topic => ⟨0, [⟨.output, helpText topic⟩], system⟩
  | .version => ⟨0, [⟨.output, programName ++ " " ++ programVersion ++ "\n"⟩], system⟩
  | .wrong error => ⟨2, [⟨.errors, "error: " ++ error.message ++ "\n"⟩], system⟩
  | .run command arguments =>
    runCommand command arguments system (.ofLookup lookup) ⟨arguments.json, colored, clock⟩

/-- What a run printed on one stream. -/
def Outcome.textOn (outcome : Outcome) (stream : Stream) : String :=
  String.join ((outcome.printed.filter (·.stream = stream)).map (·.text))

end Recast.CommandLine
