import Recast.Proofs.Build.Draining
import Recast.Proofs.Build.Regime
import Recast.Proofs.Build.Widening

/-! # Which root files watch mode covers

A change that is handled without failure compiles and watches every root file that was added while
it was handled. A failure leaves before that. So a root file of a target has a watcher unless a
change that failed added it (`covered_unless_handling_failed`).
-/

namespace Recast.Build

open Recast.Emit

namespace Compiler

section Adopting

private theorem getElem?_of_grown {xs ys : List Path} (before : xs <+: ys) {place : Nat}
    {root : Path} (found : xs[place]? = some root) : ys[place]? = some root := by
  obtain ⟨inside, rfl⟩ := List.getElem?_eq_some_iff.mp found
  exact List.prefix_iff_getElem?.mp before place inside

private theorem getElem?_ne_some_of_short {xs : List Path} {index place : Nat} {root : Path}
    (short : xs[index]? = none) (behind : index ≤ place) : xs[place]? ≠ some root := by
  rw [List.getElem?_eq_none_iff] at short
  rw [List.getElem?_eq_none_iff.mpr (Nat.le_trans short behind)]
  simp

variable {context : Context} {session later : Session}

/-- Adopting a root file compiles and watches it. -/
theorem isWatched_of_adopt (widening : context.Widening) {path : Path} {emission : Emission}
    (supports : session.workspace.system.supportsWatch = true)
    (ran : adopt context path session = .ok emission later) :
    session.Widens later ∧ later.workspace.isWatched path = true := by
  obtain ⟨emission', middle, compiled, ended⟩ := exists_of_bind_eq_ok ran
  have widens := Context.widening_compileFile widening path true session
  rw [compiled, endState_ok] at widens
  have still := widens.workspace.supportsWatch.trans supports
  obtain ⟨_, last, opened, answered⟩ := exists_of_bind_eq_ok ended
  unfold Step.modifyWorkspace at opened
  cases opened
  cases answered
  dsimp only
  rw [if_pos still]
  exact ⟨widens.trans ⟨Workspace.widens_watchRoot _ path, List.prefix_refl _⟩,
    Workspace.isWatched_watchRoot still path⟩

/-- A pass over root files adopts those from its index on, those that are added meanwhile too. -/
theorem adopts_compileRootsFrom (widening : context.Widening) {fuel index : Nat}
    {progress result : Context.Progress}
    (supports : session.workspace.system.supportsWatch = true)
    (ran : context.compileRootsFrom (adopt context) fuel index progress session =
      .ok result later) :
    session.Widens later ∧ ∀ place root, index ≤ place → later.roots[place]? = some root →
      later.workspace.isWatched root = true ∧ ∃ middle,
        .compiled ⟨context, root, true, middle⟩ ∈
          context.rootEvents (adopt context) true fuel index session := by
  induction fuel, index, progress, session, ran using Context.compileRootsFrom_induction with
  | ended short =>
    exact ⟨.refl _, fun place root behind known =>
      absurd known (getElem?_ne_some_of_short short behind)⟩
  | @compiled _ index _ session path _ _ found adopted _ ih =>
    obtain ⟨first, watched⟩ := isWatched_of_adopt widening supports adopted
    obtain ⟨second, others⟩ := ih (first.workspace.supportsWatch.trans supports)
    refine ⟨first.trans second, fun place root behind known => ?_⟩
    rw [Context.rootEvents_of_compiled found adopted]
    rcases Nat.eq_or_lt_of_le behind with rfl | further
    · rw [getElem?_of_grown (first.roots.trans second.roots) found] at known
      cases known
      exact ⟨second.workspace.isWatched watched, session, List.mem_cons_self ..⟩
    · obtain ⟨isWatched, middle, member⟩ := others place root further known
      exact ⟨isWatched, middle, List.mem_cons_of_mem _ member⟩

theorem widening_refresh (widening : context.Widening) (progress : Context.Progress)
    (path : Path) : Widening (refresh context progress path) := by
  refine Follows.bind overlooks_widens.disregards.workspace fun workspace => ?_
  split
  · exact (Context.widening_compileFile widening path true).bind fun _ => .pure _
  · exact Follows.bind (overlooks_widens.modifyCache _) fun _ => .pure _

/-- Refreshing files without failure compiles and watches all root files that are added
meanwhile. -/
theorem adopts_refreshAll (widening : context.Widening) {limit : Nat} {files : List Path}
    {result : PassResult} (supports : session.workspace.system.supportsWatch = true)
    (ran : refreshAll context limit files session = .ok result later) :
    session.Widens later ∧ ∀ root ∈ later.roots, root ∈ session.roots ∨
      later.workspace.isWatched root = true ∧ ∃ middle,
        .compiled ⟨context, root, true, middle⟩ ∈ refreshAllEvents context limit files session := by
  obtain ⟨progress, middle, refreshed, rest⟩ : ∃ progress middle,
      files.foldlM (refresh context) {} session = .ok progress middle ∧
      (context.compileRootsFrom (adopt context) (middle.roots.length - session.roots.length + limit)
        session.roots.length progress >>= context.finish) middle = .ok result later :=
    exists_of_bind_eq_ok ran
  obtain ⟨whole, last, adopted, finished⟩ := exists_of_bind_eq_ok rest
  have first : session.Widens middle := by
    have refreshes : Widening (files.foldlM (refresh context) {}) :=
      .foldlM (fun progress path _ => widening_refresh widening progress path) {}
    have widens := refreshes session
    rwa [refreshed] at widens
  have still := first.workspace.supportsWatch.trans supports
  obtain ⟨second, covers⟩ := adopts_compileRootsFrom widening still adopted
  have third : last.Widens later := by
    have widens := Context.widening_finish widening whole last
    rwa [finished] at widens
  have same : later.roots = last.roots := by
    have left := Context.leaves_roots_finish widening whole last
    rwa [finished] at left
  refine ⟨(first.trans second).trans third, fun root member => ?_⟩
  rw [same] at member
  obtain ⟨place, found⟩ := List.getElem?_of_mem member
  by_cases old : place < session.roots.length
  · left
    have kept := List.prefix_iff_getElem?.mp (first.trans second).roots place old
    rw [found] at kept
    cases kept
    exact List.getElem_mem old
  · right
    obtain ⟨watched, at_, compiled⟩ := covers place root (Nat.le_of_not_lt old) found
    refine ⟨third.workspace.isWatched watched, at_, List.mem_append_right _ ?_⟩
    rw [refreshed]
    exact compiled

end Adopting

/-- The root files of a target. -/
def rootsOf (compiler : Compiler) (target : String) : List Path :=
  ((compiler.context? target).map (·.roots)).getD []

/-- A compiler that can watch, whose callbacks only widen sessions. -/
structure Attentive (compiler : Compiler) : Prop where
  supports : compiler.workspace.system.supportsWatch = true
  widening : ∀ target context, compiler.context? target = some context → context.Widening

/-- What is kept from some moment on: workspaces widen, and contexts change in their root files
only, which are added at the end. -/
def onward (start : Compiler) : Regime where
  workspace := start.workspace.Widens
  context target context := ∃ first, start.context? target = some first ∧ first.Widening ∧
    ∃ roots, first.roots <+: roots ∧ context = { first with roots := roots }

section Onward

variable {start compiler next : Compiler} {target : String} {context : Context}

/-- A step that widens sessions keeps what is kept onward. -/
theorem preserves_within_onward {α : Type} {step : Step α}
    (widening : context.Widening → Widening step) :
    Preserves (start.onward.Within target context) step := by
  intro session within
  obtain ⟨first, known, good, roots, grown, same⟩ := within.context
  have rest : context = { first with roots := context.roots } :=
    congrArg (fun other : Context => { other with roots := context.roots }) same
  have current : session.roots = roots := congrArg Context.roots same
  have widens := widening (rest ▸ good.withRoots context.roots) session
  refine ⟨within.workspace.trans widens.workspace, first, known, good, _,
    grown.trans (current ▸ widens.roots), ?_⟩
  exact congrArg (fun other : Context =>
    { other with roots := (endState (step session)).roots }) same

theorem lawful_onward (start : Compiler) : start.onward.Lawful where
  compiled _ _ path force _ session within _ :=
    ⟨preserves_within_onward (fun widening => Context.widening_compileFile widening path force)
      session within, fun _ _ => trivial, fun _ _ _ => trivial⟩
  finished _ _ progress _ :=
    preserves_within_onward fun widening => Context.widening_finish widening progress
  roots _ _ _ _ _ := trivial
  resolved _ _ := trivial
  evicted _ _ widened := ⟨widened.trans (.of_eq rfl rfl), trivial⟩
  watched workspace path _ widened := widened.trans (workspace.widens_watchRoot path)
  told _ _ _ widened := widened.trans (.of_eq rfl rfl)

/-- At first there is nothing to keep yet. -/
theorem Attentive.onward (attentive : compiler.Attentive) : compiler.onward.Holds compiler where
  workspace := .refl _
  contexts target context known :=
    ⟨context, known, attentive.widening target context known, context.roots,
      List.prefix_refl _, rfl⟩
  registry _ _ := ⟨fun _ _ _ => trivial, fun _ _ _ _ _ => trivial⟩

/-- What lives along with all events keeps what is kept onward, whether it fails or not. -/
theorem Attentive.holds (attentive : compiler.Attentive) {α : Type} {step : Compiling α}
    {events : Compiler → List Event} {A : α → Prop}
    (lives : compiler.onward.Lives compiler.onward.Holds events A step) :
    compiler.onward.Holds (endState (step compiler)) :=
  (lives compiler attentive.onward fun _ _ => trivial).1

theorem Attentive.of_onward (attentive : start.Attentive) (holds : start.onward.Holds compiler) :
    compiler.Attentive where
  supports := holds.workspace.supportsWatch.trans attentive.supports
  widening target context known := by
    obtain ⟨first, _, good, roots, _, rfl⟩ := holds.contexts target context known
    exact good.withRoots roots

end Onward

/-- Behind some events, every root file that is new is watched, and a forced compilation of it is
among the events. -/
def Adopts (events : List Event) (before after : Compiler) : Prop :=
  ∀ target, ∀ root ∈ after.rootsOf target, root ∈ before.rootsOf target ∨
    after.workspace.isWatched root = true ∧ ∃ context compilation,
      before.context? target = some context ∧ .compiled compilation ∈ events ∧
      compilation.path = root ∧ compilation.force = true ∧
      compilation.context.toScope = context.toScope

namespace Adopts

variable {past events : List Event} {a b c : Compiler}

theorem refl (compiler : Compiler) : Adopts [] compiler compiler :=
  fun _ _ member => .inl member

theorem trans (first : Adopts past a b) (second : Adopts events b c)
    (holds : b.onward.Holds c) (before : a.onward.Holds b) : Adopts (past ++ events) a c := by
  intro target root member
  rcases second target root member with old | ⟨watched, context, compilation, known, compiled, rest⟩
  · refine (first target root old).imp id fun ⟨watched, context, compilation, known, compiled,
      rest⟩ => ?_
    exact ⟨holds.workspace.isWatched watched, context, compilation, known,
      List.mem_append_left _ compiled, rest⟩
  · obtain ⟨original, found, _, roots, _, same⟩ := before.contexts target context known
    refine .inr ⟨watched, original, compilation, found, List.mem_append_right _ compiled,
      rest.1, rest.2.1, ?_⟩
    rw [rest.2.2, same]

end Adopts

section Handling

variable {compiler next : Compiler} {path : Path} {target : String} {targets : List String}
  {result result' : PassResult}

theorem rootsOf_absorb {context : Context} (known : compiler.context? target = some context)
    (session : Session) (other : String) :
    (compiler.absorb target session).rootsOf other =
      if other = target then session.roots else compiler.rootsOf other := by
  rw [rootsOf, Compiler.context?_absorb]
  split
  · next same =>
    rw [same, known]
    rfl
  · rfl

/-- Handling a change for a target adopts what it adds. -/
theorem adopts_targetChanged (attentive : compiler.Attentive)
    (ran : targetChanged path result target compiler = .ok result' next) :
    Adopts (compiler.targetChangedEvents path target) compiler next := by
  obtain ⟨context, known, ⟨idle, -, rfl⟩ | ⟨busy, pass, session, passed, -, rfl⟩⟩ :=
    exists_of_targetChanged_eq_ok ran
  · rw [targetChangedEvents_eq known, if_pos idle]
    exact .refl _
  · rw [targetChangedEvents_eq known, busy, if_neg Bool.false_ne_true]
    obtain ⟨_, adopted⟩ := adopts_refreshAll (attentive.widening target context known)
      attentive.supports passed
    intro other root member
    rw [rootsOf_absorb known] at member
    split at member
    · next same =>
      subst same
      refine (adopted root member).imp (fun old => ?_) fun ⟨watched, middle, compiled⟩ => ?_
      · rw [rootsOf, known]
        exact old
      · exact ⟨watched, context, _, known, compiled, rfl, rfl, rfl⟩
    · exact .inl member

theorem adopts_targetsChanged (attentive : compiler.Attentive)
    (ran : targets.foldlM (targetChanged path) result compiler = .ok result' next) :
    Adopts (compiler.targetsChangedEvents path targets) compiler next := by
  induction targets generalizing result compiler with
  | nil =>
    cases ran
    exact .refl _
  | cons target targets ih =>
    rw [List.foldlM_cons] at ran
    obtain ⟨between, middle, first, rest⟩ := exists_of_bind_eq_ok ran
    have kept := attentive.holds (Regime.lives_targetChanged (lawful_onward compiler)
      (show compiler.onward.path path from trivial) result target)
    rw [first, endState_ok] at kept
    have attentive' := attentive.of_onward kept
    have kept' := attentive'.holds (Regime.lives_targetsChanged (lawful_onward middle)
      (show middle.onward.path path from trivial) targets between)
    rw [rest, endState_ok] at kept'
    have events : compiler.targetsChangedEvents path (target :: targets) =
        compiler.targetChangedEvents path target ++ middle.targetsChangedEvents path targets := by
      have unaffected := eventsBehind_targetChanged path result target compiler
        (targetsChangedEvents path targets)
      rw [first] at unaffected
      exact congrArg (_ ++ ·) unaffected.symm
    rw [events]
    exact (adopts_targetChanged attentive first).trans (ih attentive' rest) kept' kept

theorem eq_of_writingTargets (ran : writingTargets compiler = .ok targets next) :
    next = compiler := by
  have same := preserves_writingTargets (P := (· = compiler)) compiler rfl
  rwa [ran] at same

/-- A change that is handled adopts what it adds. -/
theorem adopts_fileChanged (attentive : compiler.Attentive)
    (ran : fileChanged path compiler = .ok result next) :
    Adopts (compiler.fileChangedEvents path) compiler next := by
  let resolved := compiler.workspace.system.resolve path
  obtain ⟨reports, told⟩ := run_status ("File change detected: " ++ resolved.toString ++
    ". Starting incremental compilation...") compiler
  let started : Compiler :=
    { compiler with workspace := { compiler.workspace with reports := reports } }
  have still : started.Attentive := ⟨attentive.supports, attentive.widening⟩
  have rest : (writingTargets >>= fun targets => targets.foldlM (targetChanged resolved) {} >>=
      fun found => status (foundErrors found) >>= fun _ => pure found) started = .ok result next :=
    (run_bind_ok told).symm.trans ran
  obtain ⟨targets, same, listed, rest⟩ := exists_of_bind_eq_ok rest
  obtain rfl := eq_of_writingTargets listed
  obtain ⟨found, handled, changed, rest⟩ := exists_of_bind_eq_ok rest
  obtain ⟨reports', told'⟩ := run_status (foundErrors found) handled
  rw [run_bind_ok told'] at rest
  cases rest
  have adopts := adopts_targetsChanged still changed
  have events : compiler.fileChangedEvents path =
      targetsChangedEvents resolved targets started := by
    unfold fileChangedEvents
    dsimp only
    rw [told]
    dsimp only [eventsBehind]
    rw [listed]
  rw [events]
  intro target root member
  exact adopts target root member

end Handling

namespace Handling

/-- The compiler behind a change, whether it was handled or failed. -/
def after (handling : Handling) : Compiler :=
  endState (fileChanged handling.path handling.compiler)

def failed (handling : Handling) : Bool :=
  match fileChanged handling.path handling.compiler with
  | .ok _ _ => false
  | .error _ _ => true

/-- Whether a root file was added to a target while a change was handled. -/
def Adds (handling : Handling) (target : String) (root : Path) : Prop :=
  root ∈ handling.after.rootsOf target ∧ root ∉ handling.compiler.rootsOf target

theorem holds_after (handling : Handling) (attentive : handling.compiler.Attentive) :
    handling.compiler.onward.Holds handling.after :=
  attentive.holds (Regime.lives_fileChanged (lawful_onward handling.compiler) handling.path)

theorem adopts_after (handling : Handling) (attentive : handling.compiler.Attentive)
    (succeeds : handling.failed = false) :
    Adopts (handling.compiler.fileChangedEvents handling.path) handling.compiler
      handling.after := by
  unfold failed at succeeds
  unfold after
  cases ran : fileChanged handling.path handling.compiler with
  | ok result next => exact adopts_fileChanged attentive ran
  | error failure next =>
    rw [ran] at succeeds
    cases succeeds

end Handling

/-- The root files of some targets are watched, unless one of some changes failed and added them. -/
def Covered (targets : List String) (past : List Handling) (compiler : Compiler) : Prop :=
  ∀ target ∈ targets, ∀ root ∈ compiler.rootsOf target,
    compiler.workspace.isWatched root = true ∨
      ∃ handling ∈ past, handling.failed = true ∧ handling.Adds target root

namespace Covered

variable {targets : List String} {past : List Handling} {compiler next : Compiler}

/-- Where the contexts stay as they are, root files stay covered. -/
theorem of_eq (covered : Covered targets past compiler)
    (contexts : next.contexts = compiler.contexts)
    (widens : compiler.workspace.Widens next.workspace) : Covered targets past next := by
  intro target active root member
  rw [rootsOf, context?, contexts] at member
  exact (covered target active root member).imp widens.isWatched id

/-- A change that is handled covers what it adds, and one that fails answers for it. -/
theorem after (handling : Handling) (attentive : handling.compiler.Attentive)
    (covered : Covered targets past handling.compiler) :
    Covered targets (past ++ [handling]) handling.after := by
  intro target active root member
  have widens := (handling.holds_after attentive).workspace
  by_cases old : root ∈ handling.compiler.rootsOf target
  · refine (covered target active root old).imp widens.isWatched fun ⟨earlier, known, rest⟩ => ?_
    exact ⟨earlier, List.mem_append_left _ known, rest⟩
  · cases outcome : handling.failed with
    | false =>
      rcases handling.adopts_after attentive outcome target root member with known | ⟨watched, _⟩
      · exact absurd known old
      · exact .inl watched
    | true => exact .inr ⟨handling, by simp, outcome, member, old⟩

/-- Changes are handled one after the other, up to the first failure. -/
theorem handlePaths {paths : List Path} (result : PassResult) (attentive : compiler.Attentive)
    (covered : Covered targets past compiler) :
    let last := endState (Compiler.handlePaths paths result compiler)
    Covered targets (past ++ handed paths compiler) last ∧ last.Attentive ∧
      ∀ handling ∈ handed paths compiler, handling.compiler.Attentive := by
  induction paths generalizing result compiler past with
  | nil =>
    rw [handed, List.append_nil]
    exact ⟨covered, attentive, by simp⟩
  | cons path paths ih =>
    have first := after ⟨path, compiler⟩ attentive covered
    have attentive' := attentive.of_onward (Handling.holds_after ⟨path, compiler⟩ attentive)
    unfold Handling.after at first attentive'
    dsimp only at first attentive' ⊢
    rw [handlePaths_cons, handed]
    cases ran : fileChanged path compiler with
    | ok found next =>
      rw [ran, endState_ok] at first attentive'
      obtain ⟨last, kept, others⟩ := ih (result.merge found) attentive' first
      refine ⟨by simpa using last, kept, fun handling member => ?_⟩
      rcases List.mem_cons.mp member with rfl | later
      · exact attentive
      · exact others handling later
    | error failure next =>
      rw [ran] at first attentive'
      refine ⟨first, attentive', fun handling member => ?_⟩
      rw [List.mem_singleton.mp member]
      exact attentive

end Covered

end Compiler

/-- The changes that an action hands over. -/
def Action.handlings (action : Action) (compiler : Compiler) : List Compiler.Handling :=
  match action with
  | .fileChanged path => [⟨path, compiler⟩]
  | .drainChanges => compiler.drained
  | _ => []

/-- What happens to a compiler in watch mode: files change, watchers tell of it, and changes are
handled one at a time or drained. -/
def Action.IsWatching : Action → Prop
  | .edit change => ∀ system : Files.System, (change system).current = system.current ∧
      (change system).supportsWatch = system.supportsWatch
  | .notify _ _ | .fileChanged _ | .drainChanges => True
  | _ => False

namespace Compiler

/-- The changes that some actions hand over. -/
def handlings : List Action → Compiler → List Handling
  | [], _ => []
  | action :: actions, compiler =>
    action.handlings compiler ++ handlings actions (action.run compiler)

namespace Covered

variable {targets : List String} {past : List Handling} {compiler : Compiler}

theorem action {action : Action} (watching : action.IsWatching) (attentive : compiler.Attentive)
    (covered : Covered targets past compiler) :
    Covered targets (past ++ action.handlings compiler) (action.run compiler) ∧
      (action.run compiler).Attentive ∧
      ∀ handling ∈ action.handlings compiler, handling.compiler.Attentive := by
  cases action with
  | edit change =>
    obtain ⟨current, supports⟩ := watching compiler.workspace.system
    have same : past ++ (Action.edit change).handlings compiler = past := List.append_nil past
    rw [same]
    exact ⟨covered.of_eq rfl ⟨current, supports, List.Subset.refl _⟩,
      ⟨supports.trans attentive.supports, attentive.widening⟩, fun _ none => nomatch none⟩
  | notify path numbers =>
    have same : past ++ (Action.notify path numbers).handlings compiler = past :=
      List.append_nil past
    rw [same]
    exact ⟨covered.of_eq rfl (.of_eq rfl rfl), ⟨attentive.supports, attentive.widening⟩,
      fun _ none => nomatch none⟩
  | fileChanged path =>
    refine ⟨covered.after ⟨path, compiler⟩ attentive,
      attentive.of_onward (Handling.holds_after ⟨path, compiler⟩ attentive), ?_⟩
    intro handling member
    rw [List.mem_singleton.mp member]
    exact attentive
  | drainChanges =>
    have attentive' : (compiler.withQueue []).Attentive :=
      ⟨attentive.supports, attentive.widening⟩
    have waiting : Covered targets past (compiler.withQueue []) :=
      covered.of_eq rfl (.of_eq rfl rfl)
    unfold Action.run
    rw [run_drainChanges]
    exact waiting.handlePaths {} attentive'
  | configure | ensureContexts | compile | compileFile | watch | runWatch | closeWatches =>
    exact watching.elim

theorem runAll {actions : List Action} (watching : ∀ action ∈ actions, action.IsWatching)
    (attentive : compiler.Attentive) (covered : Covered targets past compiler) :
    Covered targets (past ++ handlings actions compiler) (compiler.runAll actions) ∧
      ∀ handling ∈ handlings actions compiler, handling.compiler.Attentive := by
  induction actions generalizing compiler past with
  | nil => exact ⟨by rw [handlings, List.append_nil]; exact covered, by simp [handlings]⟩
  | cons first actions ih =>
    obtain ⟨next, kept, known⟩ :=
      covered.action (watching first (List.mem_cons_self ..)) attentive
    obtain ⟨last, others⟩ :=
      ih (fun other member => watching other (List.mem_cons_of_mem _ member)) kept next
    rw [List.append_assoc] at last
    refine ⟨last, fun handling member => ?_⟩
    rcases List.mem_append.mp member with now | later
    · exact known handling now
    · exact others handling later

end Covered

/-- What is kept where all addons only widen sessions. -/
def widenings : Regime where
  workspace _ := True
  context _ context := context.Widening
  addon := Addon.Widens

theorem founded_widenings : widenings.Founded where
  compiled _ _ _ _ _ _ within _ :=
    ⟨⟨trivial, within.context.withRoots _⟩, fun _ _ => trivial, fun _ _ _ => trivial⟩
  finished _ _ _ _ _ within := ⟨trivial, within.context.withRoots _⟩
  roots _ _ _ _ _ := trivial
  resolved _ _ := trivial
  evicted _ _ _ := ⟨trivial, trivial⟩
  watched _ _ _ _ := trivial
  told _ _ _ _ := trivial
  bare _ _ _ _ _ := ⟨by simp, by simp, by simp, by simp⟩
  activated _ widens _ activation kept := ⟨trivial, widens activation kept.2⟩
  closed _ _ := trivial
  cleared _ _ := trivial
  shown := trivial

/-- Where all addons only widen sessions, so do the callbacks of all contexts. -/
theorem widening_of_watch {before : List Action}
    (brings : ∀ action ∈ before, action.Brings Addon.Widens) {system : Files.System}
    {result : PassResult} {began : Compiler}
    (ran : watch ((Compiler.ofSystem system).runAll before) = .ok result began) :
    ∀ target context, began.context? target = some context → context.Widening := by
  have allowed (action : Action) (member : action ∈ before) : widenings.Allows action := by
    have brought := brings action member
    cases action with
    | edit => exact fun _ _ => trivial
    | configure setup => exact brought
    | _ => trivial
  have start : widenings.Holds (Compiler.ofSystem system) :=
    ⟨trivial, by simp [Compiler.ofSystem, context?], by simp [Compiler.ofSystem]⟩
  have lived := (Regime.lives_history founded_widenings.lasting allowed start fun _ _ => trivial).1
  have made := Regime.preserves_ensureContexts founded_widenings.lasting _ lived
  have kept := (Regime.watch_of_made founded_widenings.toLawful made fun _ _ => trivial).1
  rw [ran] at kept
  exact kept.contexts

section Beginning

variable {compiler began : Compiler} {result : PassResult}

private theorem foldl_watchRoot (paths : List Path) (workspace : Workspace)
    (supports : workspace.system.supportsWatch = true) :
    workspace.Widens (paths.foldl Workspace.watchRoot workspace) ∧
      ∀ path ∈ paths, (paths.foldl Workspace.watchRoot workspace).isWatched path = true := by
  induction paths generalizing workspace with
  | nil => exact ⟨.refl _, by simp⟩
  | cons first paths ih =>
    have widens := workspace.widens_watchRoot first
    obtain ⟨rest, watched⟩ := ih _ (widens.supportsWatch.trans supports)
    refine ⟨widens.trans rest, fun path member => ?_⟩
    rcases List.mem_cons.mp member with rfl | later
    · exact rest.isWatched (Workspace.isWatched_watchRoot supports path)
    · exact watched path later

private theorem run_forM_watchRoot (paths : List Path) (compiler : Compiler) :
    (paths.forM fun path => modifyWorkspace (·.watchRoot path)) compiler =
      .ok () { compiler with workspace := paths.foldl Workspace.watchRoot compiler.workspace } := by
  induction paths generalizing compiler with
  | nil => rfl
  | cons path paths ih => exact ih _

/-- What `watch` does once the targets are compiled. -/
private theorem watched_of_forM {targets : List String}
    (supports : compiler.workspace.system.supportsWatch = true)
    (ran : (targets.forM fun target => do
      (← context target).roots.forM fun path => modifyWorkspace (·.watchRoot path)) compiler =
        .ok () began) :
    compiler.workspace.Widens began.workspace ∧ began.contexts = compiler.contexts ∧
      began.setup? = compiler.setup? ∧
      ∀ target ∈ targets, ∀ root ∈ compiler.rootsOf target,
        began.workspace.isWatched root = true := by
  induction targets generalizing compiler with
  | nil =>
    cases ran
    exact ⟨.refl _, rfl, rfl, by simp⟩
  | cons first targets ih =>
    obtain ⟨_, middle, stepped, rest⟩ := exists_of_bind_eq_ok ran
    obtain ⟨context, same, found, here⟩ := exists_of_bind_eq_ok stepped
    obtain ⟨known, rfl⟩ := context_eq_ok_iff.mp found
    rw [run_forM_watchRoot] at here
    cases here
    obtain ⟨widens, watched⟩ := foldl_watchRoot context.roots same.workspace supports
    obtain ⟨widens', contexts, setup, others⟩ := ih (widens.supportsWatch.trans supports) rest
    refine ⟨widens.trans widens', contexts, setup, fun target active root member => ?_⟩
    rcases List.mem_cons.mp active with rfl | later
    · rw [rootsOf, known] at member
      exact widens'.isWatched (watched root member)
    · exact others target later root member

/-- Where watching is supported, all root files of all targets are watched when it begins. -/
theorem isWatched_of_watch (ran : watch compiler = .ok result began)
    (supports : began.workspace.system.supportsWatch = true) {setup : Setup}
    (configured : began.setup? = some setup) :
    ∀ target ∈ setup.activeTargets, ∀ root ∈ began.rootsOf target,
      began.workspace.isWatched root = true := by
  obtain ⟨_, ready, _, ran⟩ := exists_of_bind_eq_ok ran
  obtain ⟨targets, listed, _, ran⟩ := exists_of_bind_eq_ok ran
  obtain ⟨pass, compiled, _, ran⟩ := exists_of_bind_eq_ok ran
  rw [run_bind_ok (run_get compiled)] at ran
  split at ran
  · next supported =>
    obtain ⟨options, same, found, ran⟩ := exists_of_bind_eq_ok ran
    obtain ⟨_, watching, looped, ran⟩ := exists_of_bind_eq_ok ran
    obtain ⟨reports, told⟩ := run_status (foundErrors pass) watching
    rw [run_bind_ok told] at ran
    cases ran
    obtain ⟨known, rfl⟩ := setup_eq_ok_iff.mp found
    obtain ⟨_, contexts, options', watched⟩ := watched_of_forM supported looped
    intro target active root member
    have chosen := options'.symm.trans configured
    rw [known] at chosen
    cases chosen
    rw [rootsOf, context?, contexts] at member
    exact watched target active root member
  · next unsupported =>
    cases ran
    exact absurd supports unsupported

end Beginning

/-- Once watching has begun, and whatever fails later, a root file of a target is watched unless a
change that failed added it. A change that is handled compiles and watches what it adds. -/
theorem covered_unless_handling_failed {before : List Action}
    (brings : ∀ action ∈ before, action.Brings Addon.Widens) {system : Files.System}
    {result : PassResult} {began : Compiler}
    (ran : watch ((Compiler.ofSystem system).runAll before) = .ok result began)
    (supports : began.workspace.system.supportsWatch = true)
    {setup : Setup} (configured : began.setup? = some setup)
    {actions : List Action} (watching : ∀ action ∈ actions, action.IsWatching) :
    (∀ target ∈ setup.activeTargets, ∀ root ∈ (began.runAll actions).rootsOf target,
      (began.runAll actions).workspace.isWatched root = true ∨
        ∃ handling ∈ began.handlings actions, handling.failed = true ∧
          handling.Adds target root) ∧
    ∀ handling ∈ began.handlings actions, handling.failed = false →
      Adopts (handling.compiler.fileChangedEvents handling.path) handling.compiler
        handling.after := by
  have attentive : began.Attentive := ⟨supports, widening_of_watch brings ran⟩
  have covered : Covered setup.activeTargets [] began := fun target active root member =>
    .inl (isWatched_of_watch ran supports configured target active root member)
  obtain ⟨last, known⟩ := covered.runAll watching attentive
  exact ⟨last, fun handling member => handling.adopts_after (known handling member)⟩

section Growing

def growingPath : Path := ⟨true, ["a.ts"]⟩

def grownPath : Path := ⟨true, ["g.ts"]⟩

/-- An addon that adds a root file for one text, and then refuses this text. -/
def growingAddon : Addon where
  name := "growing"
  activate := do
    Activation.registerGenerator fun scope _ source =>
      if source = "bad" then discard (scope.addInput grownPath) else return
    Activation.registerProcessor fun _ _ source =>
      if source = "bad" then throw (.addon "growing" "no") else return source

def growingSetup : Setup where
  projectRoot := ⟨true, []⟩
  project := { files := [growingPath] }
  transpileOnly := true
  registry :=
    { explicit := [], project? := none, resolve := fun _ _ _ => .error .notConfigured,
      entries := [("growing", .loaded growingAddon)] }

def growingSystem : Files.System :=
  .memory (((Files.MemoryTree.new ⟨true, []⟩ true).write growingPath "let a = 1;").write grownPath
    "let g = 1;")

/-- The file gets the text that adds a root file, and is refused. -/
def growingActions : List Action :=
  [.edit (fun
    | .memory tree => .memory (tree.write growingPath "bad")
    | system => system),
    .fileChanged growingPath]

private theorem widens_growingAddon : growingAddon.Widens := by
  intro activation widening
  refine ⟨fun generator member path source => ?_, fun processor member path source => ?_,
    widening.resultProcessors, widening.postTransformers⟩
  · rcases List.mem_append.mp member with known | last
    · exact widening.generators generator known path source
    · rw [List.mem_singleton.mp last]
      dsimp only
      split
      · exact .discard (Scope.widening_addInput _ grownPath)
      · exact .pure _
  · rcases List.mem_append.mp member with known | last
    · exact widening.processors processor known path source
    · rw [List.mem_singleton.mp last]
      dsimp only
      split
      · exact fun _ => .refl _
      · exact .pure _

private theorem brings_growing : (Action.configure growingSetup).Brings Addon.Widens :=
  Registry.All.of_only widens_growingAddon rfl fun _ _ _ _ => nofun

/-- What is seen of a compiler that watched, and then lived through the actions. -/
private def grown? : Option (List String × Bool × Bool × Bool) :=
  match watch ((Compiler.ofSystem growingSystem).runAll [.configure growingSetup]) with
  | .ok _ began =>
    let last := began.runAll growingActions
    some ((began.setup?.map (·.activeTargets)).getD [], began.workspace.system.supportsWatch,
      (last.rootsOf "*").contains grownPath, last.workspace.isWatched grownPath)
  | .error _ _ => none

/-- A root file that was added while a change failed has no watcher. -/
theorem grown_stranded_behind_refusal : ∃ result began,
    watch ((Compiler.ofSystem growingSystem).runAll [.configure growingSetup]) =
      .ok result began ∧
    (began.runAll growingActions).workspace.isWatched grownPath = false ∧
    ∃ handling ∈ began.handlings growingActions, handling.failed = true ∧
      handling.Adds "*" grownPath := by
  have seen : grown? = some (["*"], true, true, false) := by decide +kernel
  unfold grown? at seen
  split at seen
  · next result began ran =>
    simp only [Option.some.injEq, Prod.mk.injEq] at seen
    obtain ⟨targets, supports, member, unwatched⟩ := seen
    have brings : ∀ action ∈ [Action.configure growingSetup], action.Brings Addon.Widens := by
      simpa using brings_growing
    have watching : ∀ action ∈ growingActions, action.IsWatching := by
      simp only [growingActions, List.mem_cons, List.not_mem_nil, or_false, forall_eq_or_imp,
        forall_eq]
      exact ⟨fun system => by cases system <;> exact ⟨rfl, rfl⟩, trivial⟩
    cases configured : began.setup? with
    | none => simp [configured] at targets
    | some setup =>
      have active : "*" ∈ setup.activeTargets := by
        rw [configured] at targets
        simp at targets
        simp [targets]
      have covered := (covered_unless_handling_failed brings ran supports configured
        watching).1 "*" active grownPath (by simpa using member)
      refine ⟨result, began, ran, unwatched, covered.resolve_left ?_⟩
      rw [unwatched]
      exact Bool.false_ne_true
  · cases seen

end Growing

end Compiler

end Recast.Build
