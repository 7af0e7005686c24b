import Recast.Proofs.Build.Emission
import Recast.Proofs.Build.Failing
import Recast.Proofs.Build.Remembering
import Recast.Proofs.Build.Twins
import Recast.Proofs.Path.Sameness

/-! # What is left in a workspace

New options drop the contexts, the cache and the watchers of a compiler. What it has said, the
graphs that addons opened and the parsed trees stay in the workspace. A workspace in which such
things linger is otherwise like a fresh one (`Leftover.Lingers`), and single steps do the same in
both. Whether a tree that is left is taken for a text is up to the digest of the text alone; so it
has to be the tree of that text (`Leftover.Tells`).
-/

namespace Recast.Build

open Recast.Emit Recast.Script

/-- The text that a compilation makes of its file, unless it refuses the file. -/
def Compilation.made? (compilation : Compilation) : Option String :=
  compilation.content?.bind fun source =>
    match compilation.context.prepare compilation.path source compilation.started with
    | .ok text _ => some text
    | .error _ _ => none

/-- What is left in a workspace, and the files for which the language service will be asked. -/
structure Leftover where
  reports : List Report
  journal : Journal
  imports : List ImportGraph
  service : Service
  asked : Path → Prop

namespace Leftover

/-- The service that is left tells nothing wrong of a text: if it takes a tree for that of the text,
it is the tree of the text. -/
def Tells (left : Leftover) (path : Path) (text : String) : Prop :=
  (left.service.parse path text).1 = Tree.parse path text

/-- This holds of all texts that are recorded. -/
def Recorded (left : Leftover) (cache : Cache) : Prop :=
  ∀ path, left.asked path → ∀ target text, (cache.get path target).snapshot = some text →
    left.Tells path text

/-- A service that knows the trees of another one, and those that are left. -/
def Knows (left : Leftover) (used fresh : Service) : Prop :=
  ∀ path, used.parsed.get? path = (fresh.parsed.get? path).or (left.service.parsed.get? path)

/-- What is left lingers in a workspace that is otherwise like another one. -/
structure Lingers (left : Leftover) (used fresh : Workspace) : Prop where
  system : used.system = fresh.system
  cache : used.cache = fresh.cache
  watches : used.watches = fresh.watches
  queue : used.queue = fresh.queue
  reports : used.reports = left.reports ++ fresh.reports
  journal : used.journal = left.journal ++ fresh.journal
  imports : used.imports = left.imports ++ fresh.imports
  parsed : left.Knows used.service fresh.service
  recorded : left.Recorded fresh.cache

/-- Two sessions with the same root files, the first of them in the workspace with leftovers. -/
structure LingersIn (left : Leftover) (used fresh : Session) : Prop where
  roots : used.roots = fresh.roots
  workspace : left.Lingers used.workspace fresh.workspace

/-- A journal in which what is left stands in front. -/
def Journals (left : Leftover) (used fresh : Journal) : Prop := used = left.journal ++ fresh

/-- Transformers that do the same on top of the journal that is left. -/
def TwinLists (left : Leftover) : List Transformer → List Transformer → Prop :=
  List.Forall₂ fun f g => ∀ tree, Twins left.Journals Eq (f tree) (g tree)

structure TwinHooks (left : Leftover) (used fresh : Hooks) : Prop where
  before : left.TwinLists used.before fresh.before
  after : left.TwinLists used.after fresh.after

structure TwinSets (left : Leftover) (used fresh : TransformerSet) : Prop where
  preEmit : left.TwinHooks used.preEmit fresh.preEmit
  emit : left.TwinHooks used.emit fresh.emit
  postEmit : left.TwinHooks used.postEmit fresh.postEmit

/-- Two contexts of one target of which the callbacks do the same. -/
structure Matches (left : Leftover) (used fresh : Context) : Prop where
  scope : used.toScope = fresh.toScope
  roots : used.roots = fresh.roots
  watches : ∀ path, Twins left.LingersIn Eq (fresh.toScope.watchFile path)
    (fresh.toScope.watchFile path)
  generators : List.Forall₂ (fun f g : Generator => ∀ path source,
    Twins left.LingersIn Eq (f fresh.toScope path source) (g fresh.toScope path source))
    used.generators fresh.generators
  processors : List.Forall₂ (fun f g : Processor => ∀ path source,
    Twins left.LingersIn Eq (f fresh.toScope path source) (g fresh.toScope path source))
    used.processors fresh.processors
  transformers : left.TwinSets used.transformers fresh.transformers
  resultProcessors : List.Forall₂ (fun f g : ResultProcessor => ∀ roots,
    Twins left.LingersIn Eq (f fresh.toScope roots) (g fresh.toScope roots))
    used.resultProcessors fresh.resultProcessors
  postTransformers : List.Forall₂ (fun f g : ResultProcessor => ∀ roots,
    Twins left.LingersIn Eq (f fresh.toScope roots) (g fresh.toScope roots))
    used.postTransformers fresh.postTransformers
  resolvers : List.Forall₂ (fun f g : DependencyResolver => ∀ path used fresh,
    left.Lingers used fresh → f path used = g path fresh) used.resolvers fresh.resolvers

/-- A compilation of a file for which the service may be asked, and of a text of which what is left
tells nothing wrong. -/
def Admits (left : Leftover) (compilation : Compilation) : Prop :=
  left.asked compilation.path ∧ ∀ text ∈ compilation.made?,
    ∀ path, left.asked path → path.same compilation.path = true → left.Tells path text

/-- Events in which nothing is parsed are always admitted. -/
def admits (left : Leftover) : Event → Prop
  | .compiled compilation => left.Admits compilation
  | .evicted _ | .cleared => True

variable {left : Leftover}

section Services

variable {used fresh : Service} {path : Path} {text : String}

theorem Knows.insert (knows : left.Knows used fresh) (path : Path) (value : Digest × Tree) :
    left.Knows { used with parsed := used.parsed.insert path value }
      { fresh with parsed := fresh.parsed.insert path value } := by
  intro other
  dsimp only
  rw [PathMap.get?_insert, PathMap.get?_insert]
  split
  · rfl
  · exact knows other

/-- A text has the same tree, whether it is parsed, known, or left. -/
theorem Knows.parse (knows : left.Knows used fresh) (tells : left.Tells path text) :
    (used.parse path text).1 = (fresh.parse path text).1 ∧
      left.Knows (used.parse path text).2 (fresh.parse path text).2 := by
  have here := knows path
  unfold Service.parse
  cases known : fresh.parsed.get? path with
  | some found =>
    rw [known, Option.some_or] at here
    rw [here]
    dsimp only
    cases (some found).filter (·.1 = Digest.of text) with
    | none => exact ⟨rfl, knows.insert path _⟩
    | some found => exact ⟨rfl, knows⟩
  | none =>
    rw [known, Option.none_or] at here
    rw [here]
    cases old : left.service.parsed.get? path with
    | none => exact ⟨rfl, knows.insert path _⟩
    | some found =>
      obtain ⟨digest, tree⟩ := found
      by_cases same : digest = Digest.of text
      · have whole : tree = Tree.parse path text := by
          unfold Tells Service.parse at tells
          simpa only [old, same, Option.filter_some, decide_true, ↓reduceIte] using tells
        simp only [Option.filter_none, Option.filter_some, same, decide_true, ↓reduceIte]
        -- The one service takes the tree that is left, the other one parses the text and keeps it.
        refine ⟨whole, fun other => ?_⟩
        dsimp only
        rw [PathMap.get?_insert]
        cases alike : other.same path with
        | false => exact knows other
        | true =>
          rw [PathMap.get?_congr _ alike, here, old, same, whole]
          rfl
      · simp only [Option.filter_none, Option.filter_some, same, decide_false, Bool.false_eq_true,
          ↓reduceIte]
        exact ⟨trivial, knows.insert path _⟩

end Services

section Transforming

variable {used fresh : TransformerSet}

theorem TwinLists.applyAll {fs gs : List Transformer} (twins : left.TwinLists fs gs) (tree : Tree) :
    Twins left.Journals Eq (applyAll fs tree) (applyAll gs tree) :=
  .foldlM (twins.imp fun _ _ each a _ same => same ▸ each a) rfl

theorem TwinSets.run (twins : left.TwinSets used fresh) (tree : Tree) :
    Twins left.Journals Eq (used.run tree) (fresh.run tree) :=
  (twins.preEmit.before.applyAll tree).bind_same fun tree =>
    (twins.preEmit.after.applyAll tree).bind_same fun tree =>
      (twins.emit.before.applyAll tree).bind_same fun _ =>
        (twins.emit.after.applyAll _).bind_same fun tree =>
          (twins.postEmit.before.applyAll tree).bind_same fun tree =>
            twins.postEmit.after.applyAll tree

theorem TwinSets.transpileFile (twins : left.TwinSets used fresh) (path : Path) (text : String)
    (options : Options) (root : Path) :
    Twins left.Journals Eq (transpileFile path text options root used)
      (Emit.transpileFile path text options root fresh) := by
  have transpiled : Twins left.Journals Eq (transpileModule path text options root used)
      (transpileModule path text options root fresh) := by
    unfold transpileModule
    dsimp only
    split
    · exact .pure rfl
    · exact (twins.run _).bind_same fun tree => .pure rfl
  unfold Emit.transpileFile
  split
  · exact .pure rfl
  · split
    · exact .pure rfl
    · refine transpiled.bind_same fun output => ?_
      split
      · exact .pure rfl
      · exact .pure rfl

/-- The emission of a script of a host. -/
private theorem emit_of_script (service : Service) (host : Host) {path : Path} {text : String}
    (known : host.text? path = some text) (emits : host.options.wantsNoEmit = false)
    (script : path.isJson = false) :
    let parsed := (service.setHost host).parse path text
    (service.setHost host).emit path =
      if Diagnostic.anyError parsed.1.faults then
        (pure { diagnostics := parsed.1.faults, skipped := true }, parsed.2)
      else (Service.emitTree host parsed.1, parsed.2) := by
  have installed : (service.setHost host).host? = some host := rfl
  unfold Service.emit
  rw [installed]
  dsimp only
  rw [known]
  dsimp only
  rw [emits, script]
  rfl

/-- The service emits the same for hosts that only differ in twin transformers. -/
theorem TwinSets.emission {host : Host} {set : TransformerSet} {s t : Service}
    (twins : left.TwinSets set host.transformers) (knows : left.Knows s t) {path : Path}
    (tells : ∀ text, host.text? path = some text → left.Tells path text) :
    Twins left.Journals Eq ((s.setHost { host with transformers := set }).emit path).1
        ((t.setHost host).emit path).1 ∧
      left.Knows ((s.setHost { host with transformers := set }).emit path).2
        ((t.setHost host).emit path).2 := by
  have installed : left.Knows (s.setHost { host with transformers := set })
      (t.setHost host) := knows
  cases known : host.text? path with
  | none =>
    unfold Service.emit Service.setHost
    dsimp only
    rw [known]
    exact ⟨.pure rfl, knows⟩
  | some text =>
    cases silent : host.options.wantsNoEmit with
    | true =>
      unfold Service.emit Service.setHost
      dsimp only
      rw [known]
      dsimp only
      rw [silent]
      exact ⟨.pure rfl, knows⟩
    | false =>
      cases json : path.isJson with
      | true =>
        unfold Service.emit Service.setHost
        dsimp only
        rw [known]
        dsimp only
        rw [silent, json]
        exact ⟨.pure rfl, knows⟩
      | false =>
        obtain ⟨same, later⟩ := installed.parse (tells text known)
        rw [emit_of_script s { host with transformers := set } known silent json,
          emit_of_script t host known silent json, same]
        split
        · exact ⟨.pure rfl, later⟩
        · exact ⟨(twins.run _).bind_same fun _ => .pure rfl, later⟩

end Transforming

section Workspaces

variable {used fresh : Workspace}

namespace Lingers

theorem report (lingers : left.Lingers used fresh) (diagnostic : Diagnostic) :
    left.Lingers (used.report diagnostic) (fresh.report diagnostic) :=
  { lingers with
    reports := by simp [Workspace.report, lingers.reports] }

theorem status (lingers : left.Lingers used fresh) (message : String) :
    left.Lingers (used.status message) (fresh.status message) :=
  { lingers with
    reports := by simp [Workspace.status, lingers.reports, lingers.system] }

theorem withSystem (lingers : left.Lingers used fresh) (system : Files.System) :
    left.Lingers { used with system := system } { fresh with system := system } :=
  { lingers with system := rfl }

theorem withCache (lingers : left.Lingers used fresh) {cache : Cache}
    (recorded : left.Recorded cache) :
    left.Lingers { used with cache := cache } { fresh with cache := cache } :=
  { lingers with cache := rfl, recorded := recorded }

theorem withService (lingers : left.Lingers used fresh) {s t : Service} (knows : left.Knows s t) :
    left.Lingers { used with service := s } { fresh with service := t } :=
  { lingers with parsed := knows }

theorem withQueue (lingers : left.Lingers used fresh) (queue : List Path) :
    left.Lingers { used with queue := queue } { fresh with queue := queue } :=
  { lingers with queue := rfl }

theorem closeWatches (lingers : left.Lingers used fresh) :
    left.Lingers used.closeWatches fresh.closeWatches :=
  { lingers with
    system := by simp only [Workspace.closeWatches, lingers.system, lingers.watches]
    watches := rfl }

theorem notify (lingers : left.Lingers used fresh) (path : Path) (numbers : List Nat) :
    left.Lingers (used.notify path numbers) (fresh.notify path numbers) :=
  { lingers with
    queue := by simp only [Workspace.notify, lingers.queue, lingers.watches] }

/-- Watching a path fails in both or in none. -/
theorem watch (lingers : left.Lingers used fresh) (path : Path) :
    (∃ failure, used.watch path = .error failure ∧ fresh.watch path = .error failure) ∨
      ∃ used' fresh', used.watch path = .ok used' ∧ fresh.watch path = .ok fresh' ∧
        left.Lingers used' fresh' := by
  unfold Workspace.watch
  rw [lingers.watches, lingers.system]
  split
  · exact .inr ⟨used, fresh, rfl, rfl, lingers⟩
  · cases fresh.system.watch path with
    | error error => exact .inl ⟨_, rfl, rfl⟩
    | ok opened =>
      obtain ⟨number, watched, system⟩ := opened
      exact .inr ⟨_, _, rfl, rfl, { lingers with system := rfl, watches := rfl }⟩

theorem watchRoot (lingers : left.Lingers used fresh) (path : Path) :
    left.Lingers (used.watchRoot path) (fresh.watchRoot path) := by
  unfold Workspace.watchRoot
  rcases lingers.watch path with ⟨failure, here, there⟩ | ⟨used', fresh', here, there, later⟩
  · rw [here, there]
    exact lingers.report _
  · rw [here, there]
    exact later

end Lingers

end Workspaces

section Steps

theorem twins_workspace : Twins left.LingersIn left.Lingers Step.workspace Step.workspace :=
  fun _ _ states => .ok states.workspace states

theorem twins_modifyWorkspace {f g : Workspace → Workspace}
    (kept : ∀ used fresh, left.Lingers used fresh → left.Lingers (f used) (g fresh)) :
    Twins left.LingersIn Eq (Step.modifyWorkspace f) (Step.modifyWorkspace g) :=
  .modify fun _ _ states => ⟨states.roots, kept _ _ states.workspace⟩

theorem twins_report (diagnostic : Diagnostic) :
    Twins left.LingersIn Eq (Step.report diagnostic) (Step.report diagnostic) :=
  twins_modifyWorkspace fun _ _ lingers => lingers.report diagnostic

theorem twins_write (path : Path) (text : String) :
    Twins left.LingersIn Eq (Step.write path text) (Step.write path text) := by
  refine twins_workspace.bind fun used fresh lingers => ?_
  rw [lingers.system]
  generalize fresh.system.write path text = written
  obtain ⟨system, error⟩ := written
  refine (twins_modifyWorkspace fun _ _ lingers => lingers.withSystem system).bind_same fun _ => ?_
  cases error with
  | none => exact .pure rfl
  | some error => exact .throw _

theorem twins_journaled {α : Type} {x y : Journaled α} (twins : Twins left.Journals Eq x y) :
    Twins left.LingersIn Eq (Step.journaled x) (Step.journaled y) := by
  intro used fresh states
  have even := twins _ _ states.workspace.journal
  unfold Step.journaled
  dsimp only
  revert even
  generalize x used.workspace.journal = result, y fresh.workspace.journal = result'
  rintro (⟨answers, journals⟩ | ⟨failure, journals⟩)
  · exact .ok answers ⟨states.roots, { states.workspace with journal := journals }⟩
  · exact .error failure ⟨states.roots, { states.workspace with journal := journals }⟩

/-- Only an update records a text. -/
theorem Recorded.run {cache : Cache} (recorded : left.Recorded cache) {operation : Operation}
    (tells : ∀ key source text, operation = .update key source text →
      ∀ path, left.asked path → path.same key.path = true → left.Tells path text) :
    left.Recorded (operation.run cache) := by
  intro path asked target text known
  change (((operation.run cache).find? ⟨path, target⟩).getD {}).snapshot = some text at known
  rw [operation.find?_run] at known
  split at known
  · next concerned =>
    have before := recorded path asked target text
    change ((cache.find? ⟨path, target⟩).getD {}).snapshot = some text → _ at before
    cases operation with
    | update key source processed =>
      -- This is the only operation behind which there is a text that was not recorded before.
      change (CacheEntry.update _ source processed).snapshot = some text at known
      rw [CacheEntry.update_snapshot] at known
      cases known
      exact tells key source text rfl path asked (CacheKey.same_iff.mp concerned).1
    | ensure key => exact before known
    | markStale key =>
      cases found : cache.find? ⟨path, target⟩ <;> rw [found] at known <;> cases known
    | markFailed key | setOutputs key outputs =>
      cases found : cache.find? ⟨path, target⟩ <;> rw [found] at known before <;> exact before known
    | remove key => cases known
    | edit change => exact before known
  · exact recorded path asked target text known

theorem twins_operation (operation : Operation)
    (tells : ∀ key source text, operation = .update key source text →
      ∀ path, left.asked path → path.same key.path = true → left.Tells path text) :
    Twins left.LingersIn Eq (Step.modifyCache operation.run) (Step.modifyCache operation.run) :=
  twins_modifyWorkspace fun used fresh lingers => by
    rw [lingers.cache]
    exact lingers.withCache (lingers.recorded.run tells)

end Steps

end Leftover

end Recast.Build
