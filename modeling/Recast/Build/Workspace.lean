import Recast.Build.Cache
import Recast.Build.ImportGraph
import Recast.Emit.Service
import Recast.Report

/-!
# The workspace of a compiler

What all targets of a compiler share: the files, the cache, the language service, the open watchers and the
changes they have told of, and what was said so far.
-/

namespace Recast.Build

/-- A watcher that the compiler opened. -/
structure OpenWatch where
  number : Nat
  path : Path
deriving DecidableEq, Repr, Inhabited

/-- The state that all targets share. -/
structure Workspace where
  system : Files.System
  cache : Cache := {}
  service : Emit.Service := {}
  watches : List OpenWatch := []
  queue : List Path := []
  reports : List Report := []
  journal : Emit.Journal := []
  imports : List ImportGraph := []

instance : Inhabited Workspace := ⟨{ system := default }⟩

namespace Workspace

def report (workspace : Workspace) (diagnostic : Diagnostic) : Workspace :=
  { workspace with reports := workspace.reports ++ [.diagnostic diagnostic] }

/-- Tells how watching goes. -/
def status (workspace : Workspace) (message : String) : Workspace :=
  { workspace with reports := workspace.reports ++ [.status message workspace.system.newLine] }

/-- Watches a path, unless a watcher for it is open. -/
def watch (workspace : Workspace) (path : Path) : Except Failure Workspace :=
  if workspace.watches.any (·.path.same path) then .ok workspace
  else match workspace.system.watch path with
    | .error error => .error (.watch path error.message)
    | .ok (number, watched, system) =>
      .ok { workspace with system := system, watches := workspace.watches ++ [⟨number, watched⟩] }

/-- Watches a path, and reports a failure to do so. -/
def watchRoot (workspace : Workspace) (path : Path) : Workspace :=
  match workspace.watch path with
  | .ok workspace => workspace
  | .error failure => workspace.report ((Diagnostic.error failure.message).withFile path)

/-- Closes all watchers. -/
def closeWatches (workspace : Workspace) : Workspace :=
  { workspace with
    system := workspace.watches.foldl (fun system watch => system.close watch.number) workspace.system
    watches := [] }

/-- A change of a file is told to the watchers with some numbers: each that is open queues the path. -/
def notify (workspace : Workspace) (path : Path) (numbers : List Nat) : Workspace :=
  let told := numbers.filter fun number => workspace.watches.any (·.number = number)
  { workspace with queue := workspace.queue ++ told.map fun _ => path }

end Workspace

end Recast.Build
