import Recast.Proofs.Build.Course
import Recast.Proofs.Build.Incremental
import Recast.Proofs.Build.Remaining

/-! # New options

What can be seen of a compiler are the answers of its actions, the files behind them, and what they
report (`observations`). A compiler that gets new options is seen to go on as one that is made
afresh on the same files, except that changes that were queued before are still handed over
(`configure_goesOnAs_iff`). Addons may do whatever does not depend on what is left in the workspace
(`Addon.Oblivious`), and the parsed trees that are left must suit the texts that are compiled later
(`Suits`).
-/

namespace Recast.Build

open Recast.Emit Recast.Files

/-- What an action answers. -/
inductive Answer where
  | done
  | pass (result : PassResult)
  | emission (emission : Emission)
  | closed (watchers : Nat)

/-- What can be seen of an action: its answer, the files behind it, and what it reported and
noted in the journal. -/
structure Observation where
  answer : Except Failure Answer
  system : System
  reports : List Report
  journal : Journal

namespace Action

def answer (action : Action) (compiler : Compiler) : Except Failure Answer :=
  match action with
  | edit _ | notify _ _ | configure _ => .ok .done
  | ensureContexts => (given (Compiler.ensureContexts compiler)).map fun _ => .done
  | compile => (given (Compiler.compile compiler)).map .pass
  | compileFile target path force =>
    (given (Compiler.compileFile target path force compiler)).map .emission
  | watch => (given (Compiler.watch compiler)).map .pass
  | fileChanged path => (given (Compiler.fileChanged path compiler)).map .pass
  | drainChanges => (given (Compiler.drainChanges compiler)).map .pass
  | runWatch stopped => (given (Compiler.runWatch stopped compiler)).map fun _ => .done
  | closeWatches => (given (Compiler.closeWatches compiler)).map .closed

def observed (action : Action) (compiler : Compiler) : Observation :=
  let after := (action.run compiler).workspace
  { answer := action.answer compiler
    system := after.system
    reports := after.reports.drop compiler.workspace.reports.length
    journal := after.journal.drop compiler.workspace.journal.length }

end Action

/-- What can be seen of actions, one after the other. -/
def observations : List Action → Compiler → List Observation
  | [], _ => []
  | action :: actions, compiler =>
    action.observed compiler :: observations actions (action.run compiler)

namespace Leftover

variable {left : Leftover} {used fresh : Compiler}

theorem recorded_empty : left.Recorded {} := fun _ _ _ _ recorded => by
  simp [Cache.get, Cache.get?_eq_find?] at recorded

theorem Remains.configure (remains : left.Remains used fresh) {setup : Setup}
    (all : setup.registry.All Addon.Oblivious) :
    left.Remains (used.configure setup) (fresh.configure setup) where
  workspace := remains.workspace.closeWatches.withCache recorded_empty
  setup := rfl
  phase := rfl
  limit := remains.limit
  contexts := .nil
  registry other same := by
    cases same
    exact all

/-- An operation that does the same answers the same, and what is left remains. -/
private theorem given_and_remains {α : Type} {events : Compiler → List Event}
    {operation : Compiling α}
    (twins : TwinsWhile left.admits left.Remains Eq events operation operation)
    (remains : left.Remains used fresh) (admitted : ∀ event ∈ events fresh, left.admits event) :
    given (operation used) = given (operation fresh) ∧
      left.Remains (endState (operation used)) (endState (operation fresh)) :=
  ⟨(twins used fresh remains admitted).given_eq, (twins used fresh remains admitted).states⟩

/-- An action answers the same on top of what is left, and leaves it there. -/
theorem Remains.run (remains : left.Remains used fresh) {action : Action}
    (brings : action.Brings Addon.Oblivious)
    (admitted : ∀ event ∈ action.events fresh, left.admits event) :
    action.answer used = action.answer fresh ∧
      left.Remains (action.run used) (action.run fresh) := by
  cases action with
  | edit change =>
    refine ⟨rfl, remains.withWorkspace ?_⟩
    rw [remains.workspace.system]
    exact remains.workspace.withSystem _
  | notify path numbers =>
    exact ⟨rfl, remains.withWorkspace (remains.workspace.notify path numbers)⟩
  | configure setup => exact ⟨rfl, remains.configure brings⟩
  | ensureContexts =>
    obtain ⟨same, later⟩ :=
      given_and_remains (twins_ensureContexts.while fun _ => []) remains admitted
    exact ⟨congrArg (Except.map fun _ => Answer.done) same, later⟩
  | compile =>
    obtain ⟨same, later⟩ := given_and_remains twins_compile remains admitted
    exact ⟨congrArg (Except.map Answer.pass) same, later⟩
  | compileFile target path force =>
    obtain ⟨same, later⟩ := given_and_remains
      (twins_inContext target fun _ _ twin => twin.compileFile path force) remains admitted
    exact ⟨congrArg (Except.map Answer.emission) same, later⟩
  | watch =>
    obtain ⟨same, later⟩ := given_and_remains twins_watch remains admitted
    exact ⟨congrArg (Except.map Answer.pass) same, later⟩
  | fileChanged path =>
    obtain ⟨same, later⟩ := given_and_remains (twins_fileChanged path) remains admitted
    exact ⟨congrArg (Except.map Answer.pass) same, later⟩
  | drainChanges =>
    obtain ⟨same, later⟩ := given_and_remains twins_drainChanges remains admitted
    exact ⟨congrArg (Except.map Answer.pass) same, later⟩
  | runWatch stopped =>
    obtain ⟨same, later⟩ := given_and_remains (twins_runWatch stopped) remains admitted
    exact ⟨congrArg (Except.map fun _ => Answer.done) same, later⟩
  | closeWatches =>
    obtain ⟨same, later⟩ :=
      given_and_remains (twins_closeWatches.while fun _ => []) remains admitted
    exact ⟨congrArg (Except.map Answer.closed) same, later⟩

/-- The same can be seen of an action on top of what is left. -/
theorem Remains.observed (remains : left.Remains used fresh) {action : Action}
    (brings : action.Brings Addon.Oblivious)
    (admitted : ∀ event ∈ action.events fresh, left.admits event) :
    action.observed used = action.observed fresh := by
  obtain ⟨answer, later⟩ := remains.run brings admitted
  unfold Action.observed
  dsimp only
  rw [answer, later.workspace.system, later.workspace.reports, later.workspace.journal,
    remains.workspace.reports, remains.workspace.journal, List.length_append, List.length_append,
    List.drop_length_add_append, List.drop_length_add_append]

/-- So of all actions together. -/
theorem Remains.observations (remains : left.Remains used fresh) {actions : List Action}
    (brings : ∀ action ∈ actions, action.Brings Addon.Oblivious)
    (admitted : ∀ event ∈ history actions fresh, left.admits event) :
    observations actions used = observations actions fresh := by
  induction actions generalizing used fresh with
  | nil => rfl
  | cons action actions ih =>
    have first := brings action (List.mem_cons_self ..)
    have now := fun event member => admitted event (List.mem_append_left _ member)
    have rest := ih (remains.run first now).2
      (fun other member => brings other (List.mem_cons_of_mem _ member))
      fun event member => admitted event (List.mem_append_right _ member)
    unfold Build.observations
    rw [remains.observed first now, rest]

end Leftover

namespace Compiler

/-- A compiler that is made afresh on the files of another one, and gets options. -/
def afresh (old : Compiler) (setup : Setup) : Compiler :=
  { ofSystem old.workspace.closeWatches.system with rootLimit := old.rootLimit }.configure setup

/-- What a compiler leaves behind, when some files are compiled later. -/
def leftover (old : Compiler) (asked : Path → Prop) : Leftover where
  reports := old.workspace.reports
  journal := old.workspace.journal
  imports := old.workspace.imports
  service := old.workspace.service
  asked := asked

/-- New options leave nothing else behind, but for the queue. -/
theorem remains_afresh (old : Compiler) {setup : Setup}
    (all : setup.registry.All Addon.Oblivious) (asked : Path → Prop) :
    (old.leftover asked).Remains (old.configure setup)
      ((old.afresh setup).withQueue old.workspace.queue) where
  workspace :=
    { system := rfl
      cache := rfl
      watches := rfl
      queue := rfl
      reports := (List.append_nil _).symm
      journal := (List.append_nil _).symm
      imports := (List.append_nil _).symm
      parsed := fun _ => rfl
      recorded := Leftover.recorded_empty }
  setup := rfl
  phase := rfl
  limit := rfl
  contexts := .nil
  registry other same := by
    cases same
    exact all

/-- Without contexts a change cannot be handled. -/
theorem fileChanged_of_no_contexts {compiler : Compiler} {setup : Setup}
    (configured : compiler.setup? = some setup) (bare : compiler.contexts = []) (path : Path) :
    ∃ failure next, fileChanged path compiler = .error failure next := by
  obtain ⟨target, targets, active⟩ := List.exists_cons_of_ne_nil setup.activeTargets_ne_nil
  unfold fileChanged
  rw [run_bind_ok (run_get compiler)]
  obtain ⟨reports, told⟩ := run_status ("File change detected: " ++
    (compiler.workspace.system.resolve path).toString ++ ". Starting incremental compilation...")
    compiler
  rw [run_bind_ok told]
  generalize later : Compiler.mk _ _ _ _ _ = told'
  have missing : context target told' = .error (.missingContext target) told' := by
    rw [run_context, context?, ← later, bare]
    rfl
  have listed : writingTargets told' = .error (.missingContext target) told' := by
    have known : told'.setup? = some setup := by rw [← later, configured]
    unfold writingTargets
    rw [run_bind_ok (run_setup_of_eq known), active]
    exact run_bind_error (run_bind_error (run_bind_error missing))
  exact ⟨_, _, run_bind_error listed⟩

/-- So neither can changes that are queued. -/
theorem drainChanges_of_no_contexts {compiler : Compiler} {setup : Setup}
    (configured : compiler.setup? = some setup) (bare : compiler.contexts = [])
    (queued : compiler.workspace.queue ≠ []) :
    ∃ failure next, drainChanges compiler = .error failure next := by
  obtain ⟨path, rest, queue⟩ := List.exists_cons_of_ne_nil queued
  have member : path ∈ compiler.workspace.queue := queue ▸ List.mem_cons_self ..
  obtain ⟨key, listed, _⟩ := Path.exists_key_of_mem member
  obtain ⟨first, later, changes⟩ :=
    List.exists_cons_of_ne_nil (List.ne_nil_of_mem (show key ∈ compiler.changes from listed))
  have unable := @fileChanged_of_no_contexts (compiler.withQueue []) setup configured bare first
  obtain ⟨failure, next, failed⟩ := unable
  exact ⟨failure, next, by rw [run_drainChanges, changes, handlePaths_cons, failed]⟩

theorem drainChanges_of_no_changes {compiler : Compiler} (none : compiler.workspace.queue = []) :
    drainChanges compiler = .ok {} (compiler.withQueue []) ∧ compiler.drainEvents = [] := by
  have changes : compiler.changes = [] := by
    rw [Compiler.changes, none]
    rfl
  constructor
  · rw [run_drainChanges, changes]
    rfl
  · unfold drainEvents
    rw [run_takeQueue, changes]
    rfl

end Compiler

/-- Parsed trees that suit what happens: of each text that is compiled, the service has the right
tree, or none with the digest of the text, under all spellings with which its path is compiled. -/
def Suits (service : Service) (events : List Event) : Prop :=
  ∀ compilation ∈ events.filterMap Event.compilation?, ∀ text ∈ compilation.made?,
    ∀ other ∈ events.filterMap Event.compilation?, other.path.same compilation.path = true →
      (service.parse other.path text).1 = Script.Tree.parse other.path text

deriving instance DecidableEq for Diagnostic, Script.Tree

instance (service : Service) (events : List Event) : Decidable (Suits service events) :=
  inferInstanceAs (Decidable (∀ _ ∈ _, _))

/-- Trees of earlier texts suit, when the digests tell these apart from later ones and each path has
one spelling. -/
theorem suits_of_faithful {texts : Path → String → Prop} {service : Service} {events : List Event}
    (faithful : service.Faithful texts)
    (apart : ∀ compilation ∈ events.filterMap Event.compilation?, ∀ text ∈ compilation.made?,
      ∀ other ∈ events.filterMap Event.compilation?, other.path.same compilation.path = true →
        texts other.path text ∧ Service.TellsApart texts other.path text) :
    Suits service events := fun compilation member text made other known alike =>
  let ⟨listed, apart⟩ := apart compilation member text made other known alike
  Service.parse_eq faithful listed apart

/-- Nothing can be seen to differ in a compiler and another one, whatever both live through, as long
as the trees that a service has suit it. -/
def Compiler.GoesOnAs (used fresh : Compiler) (service : Service) : Prop :=
  ∀ actions, (∀ action ∈ actions, action.Brings Addon.Oblivious) →
    Suits service (history actions fresh) → observations actions used = observations actions fresh

/-- A compiler that gets new options goes on as one that is made afresh and has the changes that
were queued before. It goes on as one without them only if there are none. -/
theorem configure_goesOnAs_iff (old : Compiler) {setup : Setup}
    (all : setup.registry.All Addon.Oblivious) :
    (old.configure setup).GoesOnAs ((old.afresh setup).withQueue old.workspace.queue)
        old.workspace.service ∧
      ((old.configure setup).GoesOnAs (old.afresh setup) old.workspace.service ↔
        old.workspace.queue = []) := by
  have goesOn : (old.configure setup).GoesOnAs
      ((old.afresh setup).withQueue old.workspace.queue) old.workspace.service := by
    intro actions brings suits
    -- The service is asked for files that are compiled in this very life.
    let events := history actions ((old.afresh setup).withQueue old.workspace.queue)
    have remains := old.remains_afresh all fun path =>
      ∃ compilation, .compiled compilation ∈ events ∧ compilation.path = path
    refine remains.observations brings fun event member => ?_
    cases event with
    | compiled compilation =>
      refine ⟨⟨compilation, member, rfl⟩, fun text made path asked alike => ?_⟩
      obtain ⟨other, known, rfl⟩ := asked
      exact suits compilation (List.mem_filterMap.mpr ⟨_, member, rfl⟩) text made other
        (List.mem_filterMap.mpr ⟨_, known, rfl⟩) alike
    | evicted | cleared => trivial
  refine ⟨goesOn, fun afresh => ?_, fun none => ?_⟩
  · -- A drain tells them apart: there is no context in which a queued change could be handled.
    by_contra queued
    obtain ⟨drained, events⟩ :=
      @Compiler.drainChanges_of_no_changes (old.afresh setup) rfl
    obtain ⟨failure, next, failed⟩ :=
      @Compiler.drainChanges_of_no_contexts (old.configure setup) setup rfl rfl queued
    have silent : history [.drainChanges] (old.afresh setup) = [] := by
      unfold history history Action.events
      rw [events, List.append_nil]
    have seen := afresh [.drainChanges] (by simp [Action.Brings]) fun compilation member => by
      rw [silent] at member
      cases member
    have answers : Action.answer .drainChanges (old.configure setup) =
        Action.answer .drainChanges (old.afresh setup) :=
      congrArg Observation.answer (List.cons.inj seen).1
    unfold Action.answer at answers
    rw [failed, drained] at answers
    cases answers
  · rw [none] at goesOn
    exact goesOn

section Leaving

theorem oblivious_closingAddon : closingAddon.Oblivious := fun _ =>
  Leftover.twins_registerProcessor fun _ _ _ => .pure rfl

/-- A project of which the root file is watched. -/
def leavingSetup : Setup :=
  { closingSetup with watch := true, transpileOnly := false }

theorem all_oblivious_leaving : leavingSetup.registry.All Addon.Oblivious := by
  refine ⟨fun name addon member => ?_, fun _ _ _ _ loaded => by
    simp [leavingSetup, closingSetup] at loaded⟩
  have only : addon = closingAddon := by
    have known : name = "closing" ∧ addon = closingAddon := by
      simpa [leavingSetup, closingSetup] using member
    exact known.2
  rw [only]
  exact oblivious_closingAddon

def leavingTree : MemoryTree :=
  (MemoryTree.new ⟨true, []⟩ true).write closingPath "let a = 1"

/-- A compiler that was told of a change of its root file, and did not handle it. -/
def leavingCompiler : Compiler :=
  (Compiler.ofSystem (.memory leavingTree)).runAll
    [.configure leavingSetup, .watch, .notify closingPath [0]]

def leavingActions : List Action :=
  [.compile, .edit (writing closingPath "let b = 2"), .drainChanges]

/-- The next pass takes the tree that is left, and a drain behind it handles the change under the
new options. Before the pass the change makes the drain fail. -/
theorem configure_goesOnAs_leaving :
    leavingSetup.registry.All Addon.Oblivious ∧
      leavingCompiler.workspace.queue = [closingPath] ∧
      observations leavingActions (leavingCompiler.configure leavingSetup) =
        observations leavingActions
          ((leavingCompiler.afresh leavingSetup).withQueue [closingPath]) ∧
      ¬ (leavingCompiler.configure leavingSetup).GoesOnAs (leavingCompiler.afresh leavingSetup)
        leavingCompiler.workspace.service := by
  have queue : leavingCompiler.workspace.queue = [closingPath] := by decide +kernel
  obtain ⟨goesOn, iff⟩ := configure_goesOnAs_iff leavingCompiler all_oblivious_leaving
  rw [queue] at goesOn iff
  have brings : ∀ action ∈ leavingActions, action.Brings Addon.Oblivious := by
    simp [leavingActions, Action.Brings]
  refine ⟨all_oblivious_leaving, queue, goesOn leavingActions brings (by decide +kernel), ?_⟩
  exact fun afresh => List.cons_ne_nil _ _ (iff.mp afresh)

/-- The names of the files that a pass gave. -/
def Observation.written (observation : Observation) : List Path :=
  match observation.answer with
  | .ok (.pass result) => result.files.map (·.name)
  | _ => []

/-- A compiler that parsed its root file under another spelling of the path. -/
def respellingCompiler : Compiler :=
  (Compiler.ofSystem (.memory leavingTree)).runAll
    [.configure leavingSetup, .ensureContexts, .compileFile "*" respelledPath true]

-- A tree that does not suit: it has the digest of the text, and names the output after another
-- spelling of the path.
example :
    (observations [.compile] (respellingCompiler.configure leavingSetup)).map (·.written) =
        [[⟨true, [".", "a.js"]⟩]] ∧
      (observations [.compile] (respellingCompiler.afresh leavingSetup)).map (·.written) =
        [[⟨true, ["a.js"]⟩]] := by
  decide +kernel

end Leaving

end Recast.Build
