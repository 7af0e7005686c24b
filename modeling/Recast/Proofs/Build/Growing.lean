import Recast.Proofs.Build.Epoch
import Recast.Proofs.Build.Following
import Recast.Proofs.Build.Mirroring
import Recast.Proofs.Config.Rooting

/-! # How root files are added

Callbacks add root files one after the other, each behind those that are there, unless one of these
names the same (`Session.Grows`). Where that is all they do to root files, and files stay seen from
one directory, no two root files of a context ever name the same and all of them are resolved
(`Spread`), along a whole life (`lasting_growing`).
-/

namespace Recast.Build

open Recast.Emit

/-- Root files were added: some paths with a property, each resolved from the root of the project,
unless a root file named the same. -/
structure Session.Grows (root : Path) (P : Path → Prop) (before after : Session) : Prop where
  system : before.workspace.system.Abides after.workspace.system
  roots : ∃ inputs : List Path, (∀ input ∈ inputs, P input) ∧ after.roots =
    (inputs.map fun input => before.workspace.system.resolve (root.join input)).foldl
      (pushNew Path.same) before.roots

/-- Root files of which no two name the same, all resolved from a directory. -/
structure Spread (current : Path) (roots : List Path) : Prop where
  apart : roots.Pairwise fun a b => b.same a = false
  resolved : ∀ file ∈ roots, ∃ path : Path, path.resolveFrom current = file

/-- From an absolute directory, root files lead to themselves. -/
theorem Spread.fixed {current : Path} {roots : List Path} (spread : Spread current roots)
    (absolute : current.rooted = true) : ∀ file ∈ roots, file.resolveFrom current = file := by
  intro file member
  obtain ⟨path, rfl⟩ := spread.resolved file member
  exact Path.resolveFrom_resolveFrom path absolute

namespace Session.Grows

variable {root : Path} {P Q : Path → Prop} {a b c : Session}

theorem refl (session : Session) : session.Grows root P session :=
  ⟨.refl _, [], by simp⟩

theorem trans (first : a.Grows root P b) (second : b.Grows root P c) : a.Grows root P c := by
  obtain ⟨inputs, fit, grown⟩ := first.roots
  obtain ⟨more, fit', grown'⟩ := second.roots
  refine ⟨first.system.trans second.system, inputs ++ more, fun input member => ?_, ?_⟩
  · rcases List.mem_append.mp member with known | new
    · exact fit input known
    · exact fit' input new
  · simp only [Files.System.resolve, first.system.current] at grown grown' ⊢
    rw [grown', grown, List.map_append, List.foldl_append]

/-- What is added stands behind what was there, and each of it is new. -/
theorem exists_added (grows : a.Grows root P b) : ∃ added, b.roots = a.roots ++ added ∧
    (∀ file ∈ added, ∃ input, P input ∧ file = a.workspace.system.resolve (root.join input)) ∧
    added.Pairwise fun x y => y.same x = false := by
  obtain ⟨inputs, fit, grown⟩ := grows.roots
  obtain ⟨added, stands, among, apart, _⟩ := exists_foldl_pushNew Path.same
    (inputs.map fun input => a.workspace.system.resolve (root.join input)) a.roots
  refine ⟨added, grown.trans stands, fun file member => ?_, apart⟩
  obtain ⟨input, listed, rfl⟩ := List.mem_map.mp (among file member)
  exact ⟨input, fit input listed, rfl⟩

theorem isPrefix (grows : a.Grows root P b) : a.roots <+: b.roots :=
  let ⟨added, stands, _⟩ := grows.exists_added
  ⟨added, stands.symm⟩

theorem spread (grows : a.Grows root P b) (spread : Spread a.workspace.system.current a.roots) :
    Spread b.workspace.system.current b.roots := by
  obtain ⟨inputs, _, grown⟩ := grows.roots
  obtain ⟨added, stands, among, _⟩ := grows.exists_added
  refine ⟨grown ▸ pairwise_foldl_pushNew _ spread.apart, fun file member => ?_⟩
  rw [grows.system.current]
  rw [stands] at member
  rcases List.mem_append.mp member with known | new
  · exact spread.resolved file known
  · obtain ⟨input, _, rfl⟩ := among file new
    exact ⟨_, rfl⟩

end Session.Grows

instance (root : Path) (P : Path → Prop) : Std.Refl (Session.Grows root P) := ⟨.refl⟩

instance (root : Path) (P : Path → Prop) : IsTrans Session (Session.Grows root P) :=
  ⟨fun _ _ _ => .trans⟩

theorem overlooks_grows (root : Path) (P : Path → Prop) : Overlooks (Session.Grows root P) where
  unseen _ _ roots system _ := ⟨system ▸ .refl _, [], by simp [roots]⟩
  written session path text := ⟨session.workspace.system.abides_write path text, [], by
    simp [Session.withSystem]⟩

/-- Adding a root file grows. -/
theorem grows_addInput (scope : Scope) {P : Path → Prop} {path : Path} (fits : P path) :
    Follows (Session.Grows scope.projectRoot P) (scope.addInput path) := by
  intro session
  rw [Scope.run_addInput]
  dsimp only
  split
  · exact .refl session
  · next fresh =>
    refine ⟨.refl _, [path], by simpa using fits, ?_⟩
    rw [List.map_singleton, List.foldl_cons, List.foldl_nil, pushNew, if_neg fresh]
    rfl

theorem Workspace.abides_watch {workspace next : Workspace} {path : Path}
    (opened : workspace.watch path = .ok next) : workspace.system.Abides next.system := by
  obtain rfl | ⟨_, _, _, found, rfl⟩ := watch_eq_ok opened
  · exact .refl _
  · exact Files.System.abides_watch found

theorem Workspace.abides_watchRoot (workspace : Workspace) (path : Path) :
    workspace.system.Abides (workspace.watchRoot path).system := by
  unfold watchRoot
  split
  · next opened => exact abides_watch opened
  · exact .refl _

theorem Workspace.abides_closeWatches (workspace : Workspace) :
    workspace.system.Abides workspace.closeWatches.system := by
  have closed := workspace.system.abides_closeAll (workspace.watches.map (·.number))
  rwa [List.foldl_map] at closed

/-- All that callbacks do to root files is adding some, and they leave files where they are seen
from. So does watching a file for them. -/
structure Context.Growing (context : Context) : Prop where
  watch : ∀ watch, context.watch? = some watch → ∀ path workspace next,
    watch path workspace = .ok next → workspace.system.Abides next.system
  prepares : context.PreparesIn (Session.Grows context.projectRoot fun _ => True)
  finishes : context.FinishesIn (Session.Grows context.projectRoot fun _ => True)

theorem Context.Growing.withRoots {context : Context} (growing : context.Growing)
    (roots : List Path) : ({ context with roots := roots } : Context).Growing :=
  ⟨growing.watch, ⟨growing.prepares.generators, growing.prepares.processors⟩,
    ⟨growing.finishes.resultProcessors, growing.finishes.postTransformers⟩⟩

/-- A context may get one more generator that only adds root files. -/
theorem Context.Growing.withGenerator {context : Context} (growing : context.Growing)
    {generator : Generator} (grows : ∀ path source,
      Follows (Session.Grows context.projectRoot fun _ => True)
        (generator context.toScope path source)) :
    ({ context with generators := context.generators ++ [generator] } : Context).Growing :=
  ⟨growing.watch, growing.prepares.withGenerator grows,
    ⟨growing.finishes.resultProcessors, growing.finishes.postTransformers⟩⟩

/-- So may a context get one more result processor. -/
theorem Context.Growing.withResultProcessor {context : Context} (growing : context.Growing)
    {processor : ResultProcessor} (grows : ∀ roots,
      Follows (Session.Grows context.projectRoot fun _ => True)
        (processor context.toScope roots)) :
    ({ context with resultProcessors := context.resultProcessors ++ [processor] } :
      Context).Growing :=
  ⟨growing.watch, ⟨growing.prepares.generators, growing.prepares.processors⟩,
    growing.finishes.withResultProcessor grows⟩

/-- What callbacks see of an activation. -/
def Activation.session (activation : Activation) : Session :=
  ⟨activation.workspace, activation.context.roots⟩

/-- An addon that does no more to root files when it is activated, and registers callbacks of this
kind only. -/
def Addon.Grows (addon : Addon) : Prop :=
  ∀ activation,
    activation.session.Grows activation.context.projectRoot (fun _ => True)
      (endState (addon.activate activation)).session ∧
    (activation.context.Growing → (endState (addon.activate activation)).context.Growing)

/-- Actions that leave the files in order and where they are seen from, and bring addons that only
add root files. -/
def Action.Tends : Action → Prop
  | edit change => ∀ system, Files.System.Abides system (change system)
  | configure setup => setup.registry.All Addon.Grows
  | _ => True

/-- What is kept of root files and of the files they are resolved in; contexts may be known to have
a property that added root files cannot spoil. -/
def growing (current : Path) (T : String → Context → Prop) : Regime where
  workspace workspace := workspace.system.Sorted ∧ workspace.system.current = current
  context target context := context.Growing ∧ Spread current context.roots ∧ T target context
  addon := Addon.Grows

section Growing

variable {current : Path} {T : String → Context → Prop}

theorem growing_abides {workspace next : Workspace} (abides : workspace.system.Abides next.system)
    (kept : (growing current T).workspace workspace) : (growing current T).workspace next :=
  ⟨abides.sorted kept.1, abides.current.trans kept.2⟩

variable (grown : ∀ target context roots, T target context → context.roots <+: roots →
  T target { context with roots := roots })
include grown

theorem preserves_within_growing {α : Type} {target : String} {context : Context} {step : Step α}
    (follows : context.Growing → Follows (Session.Grows context.projectRoot fun _ => True) step) :
    Preserves ((growing current T).Within target context) step := by
  intro session within
  obtain ⟨good, spread, known⟩ := within.context
  have grows := follows (good.withRoots context.roots) session
  have here : session.workspace.system.current = current := within.workspace.2
  have later := grows.spread (here.symm ▸ spread)
  rw [grows.system.current, here] at later
  exact ⟨growing_abides grows.system within.workspace, good.withRoots _, later,
    grown target { context with roots := session.roots } _ known grows.isPrefix⟩

theorem lawful_growing : (growing current T).Lawful where
  compiled _ _ path force _ session within _ :=
    ⟨preserves_within_growing grown (fun good =>
      Context.follows_compileFile (overlooks_grows ..) good.prepares path force) session within,
      fun _ _ => trivial, fun _ _ _ => trivial⟩
  finished _ _ progress _ := preserves_within_growing grown fun good =>
    Context.follows_finish (overlooks_grows ..).disregards good.finishes progress
  roots _ _ _ _ _ := trivial
  resolved _ _ := trivial
  evicted _ _ kept := ⟨kept, trivial⟩
  watched workspace path _ kept := growing_abides (workspace.abides_watchRoot path) kept
  told _ _ _ kept := kept

end Growing

/-- A bare context has no callbacks. -/
theorem growing_bare (setup : Setup) (system : Files.System) (target : String)
    (roots : List Path) :
    ({ toScope := setup.scope system target, roots := roots } : Context).Growing := by
  refine ⟨fun watch wanted path workspace next opened => ?_, Context.preparesIn_bare ..,
    Context.finishesIn_bare ..⟩
  obtain ⟨_, rfl⟩ := Setup.watch?_scope wanted
  exact Workspace.abides_watch opened

theorem lasting_growing (current : Path) : (growing current fun _ _ => True).Lasting where
  toLawful := lawful_growing fun _ _ _ _ _ => trivial
  bare setup workspace target roots kept found := by
    refine ⟨growing_bare .., ⟨Project.apart_rootFiles found, fun file member => ?_⟩, trivial⟩
    rw [← show workspace.system.current = current from kept.2]
    exact Project.resolved_of_mem_rootFiles found file member
  activated addon grows target activation := by
    rintro ⟨kept, good, spread, _⟩
    obtain ⟨grown, growing⟩ := grows activation
    have here : activation.workspace.system.current = current := kept.2
    have later := grown.spread (here.symm ▸ spread)
    rw [grown.system.current] at later
    exact ⟨growing_abides grown.system kept, growing good, here ▸ later, trivial⟩
  closed workspace kept := growing_abides workspace.abides_closeWatches kept
  cleared _ kept := kept
  shown := trivial

end Recast.Build
