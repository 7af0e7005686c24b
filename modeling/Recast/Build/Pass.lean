import Recast.Build.Context
import Recast.Emit.PassResult

/-!
# A pass over the root files of a target

A file goes through generators, processors, emission, the cache and the disk. A file that has not changed since
its last compilation had output is served from the cache, and nothing runs for it.
-/

namespace Recast.Build

open Recast.Emit

/-- The diagnostic about a file that cannot be read. -/
def unreadable (path : Path) (error : FileError) : Diagnostic :=
  ((Diagnostic.error ("Cannot read file '" ++ path.toString ++ "': " ++ error.message)).withCode 6053).withFile path

namespace Context

/-- Makes the context the one for which the language service answers. -/
def installHost (context : Context) : Step Unit :=
  modify fun session =>
    { session with workspace :=
      { session.workspace with service := session.workspace.service.setHost (context.host session) } }

/-- Emits a file through the language service. -/
def emitChecked (context : Context) (path : Path) : Step Emission := do
  context.installHost
  let (emission, service) := (← Step.workspace).service.emit path
  Step.modifyWorkspace fun workspace => { workspace with service := service }
  Step.journaled emission

/-- Emits a file whose processed text is given. -/
def emitFile (context : Context) (path : Path) (text : String) : Step Emission :=
  if context.transpileOnly then
    Step.journaled (transpileFile path text context.options context.projectRoot context.transformers)
  else context.emitChecked path

/-- Records what a compilation gave, and writes its outputs if the target does that. An error leaves the former
outputs where they are. -/
def settle (context : Context) (path : Path) (emission : Emission) : Step Emission := do
  let skipped := emission.skipped || Diagnostic.anyError emission.diagnostics
  if skipped then Step.modifyCache (·.markFailed path context.target)
  else
    Step.modifyCache (·.setOutputs path context.target emission.files)
    if context.writesFiles then
      emission.files.forM fun file => Step.write file.name file.diskText
  return { emission with skipped := skipped }

/-- Compiles a source that was read. -/
def compileSource (context : Context) (path : Path) (source : String) : Step Emission := do
  context.generators.forM fun generator => generator context.toScope path source
  let text ← context.processors.foldlM (fun text processor => processor context.toScope path text) source
  Step.modifyCache (·.update path context.target source text)
  context.settle path (← context.emitFile path text)

/-- Compiles a file, whatever the cache knows. -/
def recompile (context : Context) (path : Path) : Step Emission := do
  match (← Step.workspace).system.read path with
  | .error error => return { diagnostics := [unreadable path error], skipped := true }
  | .ok source => context.compileSource path source

/-- Compiles a file unless the cache knows its outputs. With `force` the cache is not asked. -/
def compileFile (context : Context) (path : Path) (force : Bool) : Step Emission := do
  if force then
    Step.modifyCache (·.markStale path context.target)
    context.recompile path
  else
    let workspace ← Step.workspace
    if workspace.cache.hasChanged workspace.system path context.target then context.recompile path
    else return { files := (workspace.cache.get path context.target).outputs }

/-- The result of some files, and which they are. -/
structure Progress where
  result : PassResult := {}
  compiled : List Path := []
deriving Inhabited

def Progress.add (progress : Progress) (path : Path) (emission : Emission) : Progress :=
  ⟨progress.result.add emission, progress.compiled ++ [path]⟩

/-- Compiles the root files from an index on, those that are added meanwhile too. There may be at most `fuel`. -/
def compileRootsFrom (context : Context) (compileRoot : Path → Step Emission) :
    (fuel index : Nat) → Progress → Step Progress
  | fuel, index, progress => do
    match (← get).roots[index]? with
    | none => return progress
    | some path =>
      match fuel with
      | 0 => throw (.endlessRoots context.target)
      | fuel + 1 =>
        let emission ← compileRoot path
        context.compileRootsFrom compileRoot fuel (index + 1) (progress.add path emission)

/-- The diagnostics of a pass: of the options, of each file, and of the emission; each once. -/
def collectDiagnostics (context : Context) (files : List Path) (emitted : List Diagnostic) :
    Step (List Diagnostic) := do
  context.installHost
  let service := (← Step.workspace).service
  let (found, service) := files.foldl
    (fun (found, service) path =>
      let (syntactic, service) := service.syntactic path
      let (semantic, service) := service.semantic path
      (found ++ syntactic ++ semantic, service))
    (service.optionFaults, service)
  Step.modifyWorkspace fun workspace => { workspace with service := service }
  return distinct Diagnostic.same (found ++ emitted)

/-- Ends a pass: result processors run, then post transformers, and diagnostics are reported unless the target
is transpiled only. A pass with an error is skipped. -/
def finish (context : Context) (progress : Progress) : Step PassResult := do
  let roots := (← get).roots
  context.resultProcessors.forM fun processor => processor context.toScope roots
  context.postTransformers.forM fun processor => processor context.toScope roots
  let mut result := progress.result
  if !context.transpileOnly then
    let diagnostics ← context.collectDiagnostics progress.compiled result.diagnostics
    diagnostics.forM Step.report
    result := { result with diagnostics := diagnostics }
  return { result with skipped := result.skipped || Diagnostic.anyError result.diagnostics }

/-- Compiles all root files of a target. Callbacks may add at most `limit` of them. -/
def compileAll (context : Context) (limit : Nat) (force : Bool) : Step PassResult := do
  let count := (← get).roots.length
  context.finish (← context.compileRootsFrom (context.compileFile · force) (count + limit) 0 {})

end Context

end Recast.Build
