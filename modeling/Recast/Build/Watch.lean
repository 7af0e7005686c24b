import Recast.Build.Compiler
import Recast.Build.Settling

/-!
# Watch mode

After a first pass over the targets that write, every root file is watched. A change of a script compiles it
again where it is a root file; a change of another file compiles the files that depend on it.
-/

namespace Recast.Build

open Recast.Emit

namespace Compiler

/-- The status at the end of a pass. -/
def foundErrors (result : PassResult) : String :=
  "Found " ++ toString result.errorCount ++ " error(s). Watching for file changes."

/-- Tells how watching goes. -/
def status (message : String) : Compiling Unit := do
  if (← get).setup?.isSome then modifyWorkspace (·.status message)

/-- The error of a system that cannot watch. -/
def watchUnsupported : Diagnostic :=
  .error "File watching is not supported by the current system."

/-- Compiles the targets that write, and watches all root files. -/
def watch : Compiling PassResult := do
  ensureContexts
  let result ← (← writingTargets).foldlM
    (fun result target => return result.merge (← compileTarget target true)) ({} : PassResult)
  if (← get).workspace.system.supportsWatch then
    (← setup).activeTargets.forM fun target => do
      (← context target).roots.forM fun path => modifyWorkspace (·.watchRoot path)
    status (foundErrors result)
    return result
  else
    modifyWorkspace (·.report watchUnsupported)
    return { result with diagnostics := result.diagnostics ++ [watchUnsupported] }

/-- The files of a target to compile when a file changed: itself, if it is a script and a root file; for other
files those that depend on them. -/
def affected (context : Context) (workspace : Workspace) (path : Path) : List Path :=
  if path.isScript then
    if context.isRoot path then [path] else []
  else
    (context.dependents workspace path).map fun file => workspace.system.resolve (context.projectRoot.join file)

/-- Compiles a file again, or forgets it when it is gone. -/
def refresh (context : Context) (progress : Context.Progress) (path : Path) : Step Context.Progress := do
  if (← Step.workspace).system.fileExists path then
    return progress.add path (← context.compileFile path true)
  else
    Step.modifyCache (·.remove path context.target)
    return progress

/-- Compiles a root file that was just added, and watches it. -/
def adopt (context : Context) (path : Path) : Step Emission := do
  let emission ← context.compileFile path true
  Step.modifyWorkspace fun workspace =>
    if workspace.system.supportsWatch then workspace.watchRoot path else workspace
  return emission

/-- Compiles files again, and the root files that are added meanwhile. -/
def refreshAll (context : Context) (limit : Nat) (files : List Path) : Step PassResult := do
  let known := (← get).roots.length
  let progress ← files.foldlM (refresh context) {}
  let added := (← get).roots.length - known
  context.finish (← context.compileRootsFrom (adopt context) (added + limit) known progress)

/-- Handles a change for one target. -/
def targetChanged (path : Path) (result : PassResult) (target : String) : Compiling PassResult := do
  let files := affected (← context target) (← get).workspace path
  if files.isEmpty then return result
  let limit := (← get).rootLimit
  return result.merge (← inContext target fun context => refreshAll context limit files)

/-- Handles a change of a file. -/
def fileChanged (path : Path) : Compiling PassResult := do
  let path := (← get).workspace.system.resolve path
  status ("File change detected: " ++ path.toString ++ ". Starting incremental compilation...")
  let result ← (← writingTargets).foldlM (targetChanged path) {}
  status (foundErrors result)
  return result

/-- Takes all changes that are queued, each path once and in path order. -/
def takeQueue : Compiling (List Path) := do
  let changes := (← get).workspace.queue.foldl Settling.add {}
  modifyWorkspace fun workspace => { workspace with queue := [] }
  return changes.take.1

/-- Handles all changes that are queued. The first failure ends it. -/
def drainChanges : Compiling PassResult := do
  (← takeQueue).foldlM (fun result path => return result.merge (← fileChanged path)) {}

/-- Handles a change, and reports a failure to do so. -/
def fileChangedOrReport (path : Path) : Compiling Unit :=
  tryCatch (discard (fileChanged path)) fun failure =>
    modifyWorkspace (·.report (.error failure.message))

/-- Watches until the end: the queued changes are handled once they have settled, unless the end comes first, and
the watchers are closed. -/
def runWatch (stopped : Bool) : Compiling Unit := do
  let _ ← setup
  if !stopped then
    (← takeQueue).forM fileChangedOrReport
  let _ ← closeWatches

end Compiler

end Recast.Build
