import Recast.Proofs.Build.Moves
import Recast.Proofs.Build.Runs

/-! # Where a pass leads

Apart from what its callbacks do, a pass records, says and writes. A relation between sessions that
disregards what is said (`Disregards`) is followed when a file is emitted and when a pass ends, as
soon as the callbacks follow it. One that overlooks all of this (`Overlooks`) is followed by all
parts of a pass.
-/

namespace Recast.Build

open Recast.Emit

/-- A relation between sessions that disregards what is said to the reporter, to the journal and to
the language service. -/
structure Disregards (R : Session → Session → Prop) : Prop where
  unheard : ∀ a b : Session, b.roots = a.roots → b.workspace.system = a.workspace.system →
    b.workspace.watches = a.workspace.watches → b.workspace.cache = a.workspace.cache → R a b

/-- A relation between sessions that overlooks what is recorded and said, and which outputs are
written. -/
structure Overlooks (R : Session → Session → Prop) : Prop where
  unseen : ∀ a b : Session, b.roots = a.roots → b.workspace.system = a.workspace.system →
    b.workspace.watches = a.workspace.watches → R a b
  written : ∀ (session : Session) path text,
    R session (session.withSystem (session.workspace.system.write path text).1)

variable {R : Session → Session → Prop}

namespace Disregards

variable {α : Type} (disregards : Disregards R)
include disregards

theorem workspace : Follows R Step.workspace :=
  fun session => disregards.unheard session _ rfl rfl rfl rfl

/-- A change of the workspace that is not about the system, the watchers and the cache. -/
theorem of_frame {f : Workspace → Workspace}
    (frame : ∀ workspace, (f workspace).system = workspace.system ∧
      (f workspace).watches = workspace.watches ∧ (f workspace).cache = workspace.cache) :
    Follows R (Step.modifyWorkspace f) := fun session =>
  let ⟨system, watches, cache⟩ := frame session.workspace
  disregards.unheard session _ rfl system watches cache

theorem journaled (step : Journaled α) : Follows R (Step.journaled step) := by
  intro session
  unfold Step.journaled
  cases step session.workspace.journal <;> exact disregards.unheard session _ rfl rfl rfl rfl

end Disregards

namespace Overlooks

variable (overlooks : Overlooks R)
include overlooks

theorem disregards : Disregards R :=
  ⟨fun a b roots system watches _ => overlooks.unseen a b roots system watches⟩

theorem modifyCache (f : Cache → Cache) : Follows R (Step.modifyCache f) :=
  fun session => overlooks.unseen session _ rfl rfl rfl

theorem write (path : Path) (text : String) : Follows R (Step.write path text) := by
  intro session
  unfold Step.write
  rw [run_bind_ok (Step.run_workspace session)]
  have written := overlooks.written session path text
  revert written
  cases session.workspace.system.write path text with
  | mk system error => cases error <;> exact id

end Overlooks

/-- A workspace that is told to watch a path stays as it is, or has one more watcher. -/
theorem Workspace.watch_eq_ok {workspace next : Workspace} {path : Path}
    (watched : workspace.watch path = .ok next) :
    next = workspace ∨ ∃ number place system,
      workspace.system.watch path = .ok (number, place, system) ∧
      next = { workspace with
        system := system, watches := workspace.watches ++ [⟨number, place⟩] } := by
  unfold watch at watched
  split at watched
  · cases watched
    exact .inl rfl
  · split at watched
    · cases watched
    · next opened =>
      cases watched
      exact .inr ⟨_, _, _, opened, rfl⟩

/-- Watching a file for a callback follows a relation if the way that the scope watches files
does. -/
theorem Scope.follows_watchFile [Std.Refl R] {scope : Scope} {path : Path}
    (watches : ∀ watch, scope.watch? = some watch → ∀ session next,
      watch path session.workspace = .ok next → R session { session with workspace := next }) :
    Follows R (scope.watchFile path) := by
  intro session
  unfold Scope.watchFile
  cases wanted : scope.watch? with
  | none => exact refl session
  | some watch =>
    dsimp only
    rw [run_bind_ok (Step.run_workspace session)]
    cases watched : watch path session.workspace with
    | error failure => exact refl session
    | ok next => exact watches watch wanted session next watched

/-- Whatever runs on the source of a file follows a relation. -/
structure Context.PreparesIn (context : Context) (R : Session → Session → Prop) : Prop where
  generators : ∀ generator ∈ context.generators, ∀ path source,
    Follows R (generator context.toScope path source)
  processors : ∀ processor ∈ context.processors, ∀ path source,
    Follows R (processor context.toScope path source)

/-- Whatever runs behind a pass follows a relation. -/
structure Context.FinishesIn (context : Context) (R : Session → Session → Prop) : Prop where
  resultProcessors : ∀ processor ∈ context.resultProcessors, ∀ roots,
    Follows R (processor context.toScope roots)
  postTransformers : ∀ processor ∈ context.postTransformers, ∀ roots,
    Follows R (processor context.toScope roots)

/-- A context without callbacks runs none. -/
theorem Context.preparesIn_bare (scope : Scope) (roots : List Path) :
    ({ toScope := scope, roots := roots } : Context).PreparesIn R :=
  ⟨fun _ member => absurd member List.not_mem_nil, fun _ member => absurd member List.not_mem_nil⟩

theorem Context.finishesIn_bare (scope : Scope) (roots : List Path) :
    ({ toScope := scope, roots := roots } : Context).FinishesIn R :=
  ⟨fun _ member => absurd member List.not_mem_nil, fun _ member => absurd member List.not_mem_nil⟩

/-- A context may get one more generator that follows the relation. -/
theorem Context.PreparesIn.withGenerator {context : Context} (prepares : context.PreparesIn R)
    {generator : Generator}
    (follows : ∀ path source, Follows R (generator context.toScope path source)) :
    ({ context with generators := context.generators ++ [generator] } : Context).PreparesIn R where
  generators := List.forall_mem_append.mpr
    ⟨prepares.generators, List.forall_mem_singleton.mpr follows⟩
  processors := prepares.processors

/-- So may a context get one more result processor. -/
theorem Context.FinishesIn.withResultProcessor {context : Context}
    (finishes : context.FinishesIn R) {processor : ResultProcessor}
    (follows : ∀ roots, Follows R (processor context.toScope roots)) :
    ({ context with resultProcessors := context.resultProcessors ++ [processor] } :
      Context).FinishesIn R where
  resultProcessors := List.forall_mem_append.mpr
    ⟨finishes.resultProcessors, List.forall_mem_singleton.mpr follows⟩
  postTransformers := finishes.postTransformers

namespace Context

variable {context : Context} [Std.Refl R] [IsTrans Session R]

theorem follows_prepare (prepares : context.PreparesIn R) (path : Path) (source : String) :
    Follows R (context.prepare path source) :=
  Follows.bind (.forM fun generator member => prepares.generators generator member path source)
    fun _ => .foldlM (fun text processor member => prepares.processors processor member path text) _

theorem follows_emitFile (disregards : Disregards R) (context : Context) (path : Path)
    (text : String) : Follows R (context.emitFile path text) := by
  unfold emitFile
  split
  · exact disregards.journaled _
  · refine Follows.bind (fun session => disregards.unheard session _ rfl rfl rfl rfl) fun _ => ?_
    exact Follows.bind disregards.workspace fun _ =>
      Follows.bind (disregards.of_frame fun _ => ⟨rfl, rfl, rfl⟩) fun _ => disregards.journaled _

theorem follows_finish (disregards : Disregards R) (finishes : context.FinishesIn R)
    (progress : Progress) : Follows R (context.finish progress) := by
  refine Follows.bind (fun session => disregards.unheard session _ rfl rfl rfl rfl)
    fun session => ?_
  refine Follows.bind (.forM fun processor member =>
    finishes.resultProcessors processor member _) fun _ => ?_
  refine Follows.bind (.forM fun processor member =>
    finishes.postTransformers processor member _) fun _ => ?_
  dsimp only
  split
  · refine Follows.bind (fun session => disregards.unheard session _ rfl rfl rfl rfl)
      fun diagnostics => ?_
    exact Follows.bind (.forM fun diagnostic _ => disregards.of_frame fun _ => ⟨rfl, rfl, rfl⟩)
      fun _ => .pure _
  · exact .pure _

section Compilations

variable (overlooks : Overlooks R)
include overlooks

theorem follows_settle (context : Context) (path : Path) (emission : Emission) :
    Follows R (context.settle path emission) := by
  rw [settle_eq]
  exact Follows.bind (overlooks.modifyCache _) fun _ =>
    Follows.bind (.forM fun file _ => overlooks.write _ _) fun _ => .pure _

theorem follows_recompile (prepares : context.PreparesIn R) (path : Path) :
    Follows R (context.recompile path) := by
  refine Follows.bind overlooks.disregards.workspace fun workspace => ?_
  split
  · exact .pure _
  · rw [compileSource_eq]
    exact (follows_prepare prepares path _).bind fun text =>
      Follows.bind (overlooks.modifyCache _) fun _ =>
        (follows_emitFile overlooks.disregards context path text).bind fun emission =>
          follows_settle overlooks context path emission

theorem follows_compileFile (prepares : context.PreparesIn R) (path : Path) (force : Bool) :
    Follows R (context.compileFile path force) := by
  unfold compileFile
  split
  · exact Follows.bind (overlooks.modifyCache _) fun _ =>
      follows_recompile overlooks prepares path
  · refine Follows.bind overlooks.disregards.workspace fun workspace => ?_
    split
    · exact follows_recompile overlooks prepares path
    · exact .pure _

end Compilations

end Context

end Recast.Build
