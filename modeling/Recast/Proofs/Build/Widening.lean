import Recast.Proofs.Build.Following
import Recast.Proofs.Build.Mirroring
import Recast.Proofs.Build.Watching

/-! # What only grows

Root files are only added at the end of their list, and watchers stay open, whatever fails.
Callbacks have to play along (`Context.Widening`); then all that a compiler does in the context of a
target widens the session.
-/

namespace Recast.Build

open Recast.Emit

namespace Workspace

/-- Whether a watcher is open for a path as it is spelled, or for the place to which it leads. -/
def isWatched (workspace : Workspace) (path : Path) : Bool :=
  workspace.watches.any fun watch =>
    watch.path.same path || watch.path.same (workspace.system.resolve path)

/-- Open watchers stay open, and what can be watched stays the same. -/
structure Widens (before after : Workspace) : Prop where
  current : after.system.current = before.system.current
  supportsWatch : after.system.supportsWatch = before.system.supportsWatch
  watches : before.watches ⊆ after.watches

namespace Widens

variable {a b c : Workspace}

theorem refl (workspace : Workspace) : workspace.Widens workspace :=
  ⟨rfl, rfl, List.Subset.refl _⟩

theorem trans (first : a.Widens b) (second : b.Widens c) : a.Widens c :=
  ⟨second.current.trans first.current, second.supportsWatch.trans first.supportsWatch,
    List.Subset.trans first.watches second.watches⟩

/-- Only the system and the watchers matter. -/
theorem of_eq (system : b.system = a.system) (watches : b.watches = a.watches) : a.Widens b :=
  ⟨congrArg _ system, congrArg _ system, watches ▸ List.Subset.refl _⟩

theorem isWatched (widens : a.Widens b) {path : Path} (watched : a.isWatched path = true) :
    b.isWatched path = true := by
  obtain ⟨watch, isOpen, covers⟩ := List.any_eq_true.mp watched
  refine List.any_eq_true.mpr ⟨watch, widens.watches isOpen, ?_⟩
  rwa [Files.System.resolve, widens.current]

end Widens

/-- Watching a root file leaves all watchers open. -/
theorem widens_watchRoot (workspace : Workspace) (path : Path) :
    workspace.Widens (workspace.watchRoot path) := by
  unfold watchRoot
  split
  · next opened =>
    obtain rfl | ⟨_, _, _, found, rfl⟩ := watch_eq_ok opened
    · exact .refl _
    · obtain ⟨_, like, _⟩ := Files.System.watch_eq_ok found
      exact ⟨like.current, like.supportsWatch, List.subset_append_left _ _⟩
  · exact .of_eq rfl rfl

/-- Where watching is supported, watching a root file opens a watcher unless one is open. -/
theorem isWatched_watchRoot {workspace : Workspace}
    (supports : workspace.system.supportsWatch = true) (path : Path) :
    (workspace.watchRoot path).isWatched path = true := by
  unfold watchRoot watch
  cases isOpen : workspace.watches.any (·.path.same path) with
  | true =>
    obtain ⟨watch, member, same⟩ := List.any_eq_true.mp isOpen
    exact List.any_eq_true.mpr ⟨watch, member, by simp [same]⟩
  | false =>
    obtain ⟨number, next, opened, _⟩ := exists_watch supports path
    obtain ⟨_, like, _⟩ := Files.System.watch_eq_ok opened
    rw [if_neg Bool.false_ne_true, opened]
    refine List.any_eq_true.mpr ⟨⟨number, workspace.system.resolve path⟩,
      List.mem_append_right _ (List.mem_singleton.mpr rfl), ?_⟩
    simp [like.resolve]

end Workspace

/-- Root files are only added at the end, and watchers stay open. -/
structure Session.Widens (before after : Session) : Prop where
  workspace : before.workspace.Widens after.workspace
  roots : before.roots <+: after.roots

namespace Session.Widens

variable {a b c : Session}

theorem refl (session : Session) : session.Widens session := ⟨.refl _, List.prefix_refl _⟩

theorem trans (first : a.Widens b) (second : b.Widens c) : a.Widens c :=
  ⟨first.workspace.trans second.workspace, first.roots.trans second.roots⟩

end Session.Widens

instance : Std.Refl Session.Widens := ⟨.refl⟩

instance : IsTrans Session Session.Widens := ⟨fun _ _ _ => .trans⟩

/-- A step that only widens the session, whether it fails or not. -/
abbrev Widening {α : Type} (step : Step α) : Prop := Follows Session.Widens step

theorem overlooks_widens : Overlooks Session.Widens where
  unseen _ _ roots system watches := ⟨.of_eq system watches, roots ▸ List.prefix_refl _⟩
  written session path text :=
    have like := session.workspace.system.like_write path text
    ⟨⟨like.current, like.supportsWatch, List.Subset.refl _⟩, List.prefix_refl _⟩

/-- Callbacks that add root files at the end only, close no watcher, and leave alone what can be
watched. Those that run on results add no root file. -/
structure Context.Widening (context : Context) : Prop where
  generators : ∀ generator ∈ context.generators, ∀ path source,
    Build.Widening (generator context.toScope path source)
  processors : ∀ processor ∈ context.processors, ∀ path source,
    Build.Widening (processor context.toScope path source)
  resultProcessors : ∀ processor ∈ context.resultProcessors, ∀ roots,
    Build.Widening (processor context.toScope roots) ∧
      Leaves Session.roots (processor context.toScope roots)
  postTransformers : ∀ processor ∈ context.postTransformers, ∀ roots,
    Build.Widening (processor context.toScope roots) ∧
      Leaves Session.roots (processor context.toScope roots)

theorem Context.Widening.withRoots {context : Context} (widening : context.Widening)
    (roots : List Path) : ({ context with roots := roots } : Context).Widening :=
  ⟨widening.generators, widening.processors, widening.resultProcessors, widening.postTransformers⟩

/-- An addon that registers callbacks of this kind only. -/
def Addon.Widens (addon : Addon) : Prop :=
  Preserves (fun activation : Activation => activation.context.Widening) addon.activate

namespace Scope

/-- Adding a root file widens. -/
theorem widening_addInput (scope : Scope) (path : Path) : Widening (scope.addInput path) := by
  intro session
  rw [run_addInput]
  dsimp only
  split
  · exact .refl _
  · exact ⟨.refl _, List.prefix_append _ _⟩

end Scope

namespace Context

variable {context : Context}

theorem widening_compileFile (widening : context.Widening) (path : Path) (force : Bool) :
    Build.Widening (context.compileFile path force) :=
  follows_compileFile overlooks_widens ⟨widening.generators, widening.processors⟩ path force

theorem widening_finish (widening : context.Widening) (progress : Progress) :
    Build.Widening (context.finish progress) :=
  follows_finish overlooks_widens.disregards
    ⟨fun processor member roots => (widening.resultProcessors processor member roots).1,
      fun processor member roots => (widening.postTransformers processor member roots).1⟩ progress

/-- The end of a pass adds no root file. -/
theorem leaves_roots_finish (widening : context.Widening) (progress : Progress) :
    Leaves Session.roots (context.finish progress) :=
  leaves_iff_follows.mpr (follows_finish ⟨fun _ _ roots _ _ _ => roots.symm⟩
    ⟨fun processor member roots =>
      leaves_iff_follows.mp (widening.resultProcessors processor member roots).2,
      fun processor member roots =>
        leaves_iff_follows.mp (widening.postTransformers processor member roots).2⟩ progress)

end Context

end Recast.Build
