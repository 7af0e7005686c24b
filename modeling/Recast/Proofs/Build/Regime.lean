import Recast.Proofs.Build.Evolution

/-! # What holds along the life of a compiler

A regime says what is kept of the workspace and of the context of each target. It is enough to know
that a single compilation keeps it, and the few other things that a pass does (`Regime.Lawful`);
then every operation keeps it, whether it fails or not, and so does a whole life
(`Regime.lives_history`).

A compilation may have to rely on the events of this life, and may in turn show something about
them. So a regime also has the events that it admits and what it shows of each.
-/

namespace Recast.Build

open Recast.Emit

/-- What is kept of the workspace, of the context of a target and of addons; the paths that are
compiled, and those of root files; and the events that are admitted, with what is shown of them. -/
structure Regime where
  workspace : Workspace → Prop
  context : String → Context → Prop
  addon : Addon → Prop := fun _ => True
  path : Path → Prop := fun _ => True
  root : Path → Prop := fun _ => True
  admits : Event → Prop := fun _ => True
  shows : Event → Prop := fun _ => True

/-- The options of a compiler are these, apart from addons that were loaded. -/
def Compiler.Under (setup : Setup) (compiler : Compiler) : Prop :=
  ∃ registry, compiler.setup? = some { setup with registry := registry }

namespace Regime

/-- The regime inside the context of a target. -/
structure Within (regime : Regime) (target : String) (context : Context) (session : Session) :
    Prop where
  workspace : regime.workspace session.workspace
  context : regime.context target { context with roots := session.roots }

/-- The regime outside of contexts. -/
structure Holds (regime : Regime) (compiler : Compiler) : Prop where
  workspace : regime.workspace compiler.workspace
  contexts : ∀ target context, compiler.context? target = some context →
    regime.context target context
  registry : ∀ setup, compiler.setup? = some setup → setup.registry.All regime.addon

/-- A step with admitted events keeps the regime, and shows something of its events and of its
answer. -/
def Lives {ε σ α : Type} (regime : Regime) (P : σ → Prop) (events : σ → List Event) (A : α → Prop)
    (x : EStateM ε σ α) : Prop :=
  ∀ s, P s → (∀ event ∈ events s, regime.admits event) →
    P (endState (x s)) ∧ (∀ event ∈ events s, regime.shows event) ∧ ∀ a t, x s = .ok a t → A a

namespace Lives

variable {ε σ α β γ : Type} {regime : Regime} {P : σ → Prop} {events : σ → List Event}
  {A : α → Prop} {B : β → Prop}

theorem of_preserves {x : EStateM ε σ α} (kept : Preserves P x) :
    regime.Lives P (fun _ => []) (fun _ => True) x :=
  fun s holds _ => ⟨kept s holds, by simp, fun _ _ _ => trivial⟩

theorem pure {a : α} (answer : A a) :
    regime.Lives P (fun _ => []) A (Pure.pure a : EStateM ε σ α) := by
  refine fun s holds _ => ⟨holds, by simp, fun b t ran => ?_⟩
  cases ran
  exact answer

/-- Nothing has to be shown of an answer. -/
theorem ended (a : α) :
    regime.Lives P (fun _ => []) (fun _ => True) (Pure.pure a : EStateM ε σ α) :=
  of_preserves (Preserves.pure a)

/-- The events of a step come before those of the steps behind it. -/
theorem bind {x : EStateM ε σ α} {f : α → EStateM ε σ β} {later : α → σ → List Event}
    (first : regime.Lives P events A x) (next : ∀ a, A a → regime.Lives P (later a) B (f a)) :
    regime.Lives P (fun s => events s ++ eventsBehind (x s) later) B (x >>= f) := by
  intro s holds admitted
  obtain ⟨middle, shown, answer⟩ := first s holds fun event member =>
    admitted event (List.mem_append_left _ member)
  rw [run_bind]
  cases ran : x s with
  | ok a t =>
    rw [ran] at middle
    obtain ⟨last, shown', answer'⟩ := next a (answer a t ran) t middle fun event member =>
      admitted event (List.mem_append_right _ (by rw [ran]; exact member))
    refine ⟨last, fun event member => ?_, answer'⟩
    rcases List.mem_append.mp member with before | behind
    · exact shown event before
    · rw [ran] at behind
      exact shown' event behind
  | error e t =>
    rw [ran] at middle
    refine ⟨middle, fun event member => ?_, by simp⟩
    rcases List.mem_append.mp member with before | behind
    · exact shown event before
    · rw [ran] at behind
      cases behind

/-- A step without events in front. -/
theorem behind {x : EStateM ε σ α} {f : α → EStateM ε σ β} {later : α → σ → List Event}
    (first : regime.Lives P (fun _ => []) A x)
    (next : ∀ a, A a → regime.Lives P (later a) B (f a)) :
    regime.Lives P (fun s => eventsBehind (x s) later) B (x >>= f) :=
  first.bind next

/-- A step without events behind. -/
theorem andThen {x : EStateM ε σ α} {f : α → EStateM ε σ β} (first : regime.Lives P events A x)
    (next : ∀ a, A a → regime.Lives P (fun _ => []) B (f a)) :
    regime.Lives P events B (x >>= f) := by
  intro s holds admitted
  have whole := first.bind next s holds
  cases ran : x s <;> simpa [ran, eventsBehind] using whole (by simpa [ran, eventsBehind])

/-- The events of a loop are those of its first round, and then those of the others. -/
theorem foldlM {xs : List γ} {f : α → γ → EStateM ε σ α} {round : γ → σ → List Event}
    {all : List γ → σ → List Event} (none : ∀ s, all [] s = [])
    (rounds : ∀ x xs a s,
      round x s ++ eventsBehind (f a x s) (fun _ => all xs) = all (x :: xs) s)
    (each : ∀ x ∈ xs, ∀ a, A a → regime.Lives P (round x) A (f a x)) {a : α} (answer : A a) :
    regime.Lives P (all xs) A (xs.foldlM f a) := by
  induction xs generalizing a with
  | nil =>
    rw [funext none]
    exact .pure answer
  | cons x xs ih =>
    have rest := fun y member => each y (List.mem_cons_of_mem _ member)
    have whole := (each x (List.mem_cons_self ..) a answer).bind fun b answer => @ih rest b answer
    rwa [List.foldlM_cons, ← funext (rounds x xs a)]

/-- What lives behind a step is kept as soon as that step ends in the invariant, however it got
there. -/
theorem ofMiddle {x : EStateM ε σ α} {f : α → EStateM ε σ β} {later : α → σ → List Event} {s : σ}
    (next : ∀ a, regime.Lives P (later a) B (f a)) (middle : P (endState (x s)))
    (admitted : ∀ event ∈ eventsBehind (x s) later, regime.admits event) :
    P (endState ((x >>= f) s)) ∧ ∀ event ∈ eventsBehind (x s) later, regime.shows event := by
  rw [run_bind]
  cases ran : x s with
  | ok a t =>
    rw [ran] at middle admitted
    obtain ⟨last, shown, _⟩ := next a t middle admitted
    exact ⟨last, shown⟩
  | error e t =>
    rw [ran] at middle
    exact ⟨middle, fun event member => absurd member List.not_mem_nil⟩

end Lives

/-- What a regime has to keep to be kept by every operation of a compiler that has its contexts. -/
structure Lawful (regime : Regime) : Prop where
  compiled : ∀ target context path force, regime.path path →
    regime.Lives (regime.Within target context)
      (fun session => [.compiled ⟨context, path, force, session⟩]) (fun _ => True)
      (context.compileFile path force)
  finished : ∀ target context progress, (∀ path ∈ progress.compiled, regime.path path) →
    Preserves (regime.Within target context) (context.finish progress)
  roots : ∀ target context, regime.context target context → ∀ root ∈ context.roots,
    regime.path root
  rooted : ∀ target context, regime.context target context → ∀ root ∈ context.roots,
    regime.root root := by intros; trivial
  resolved : ∀ (system : Files.System) path, regime.path (system.resolve path)
  evicted : ∀ workspace key, regime.workspace workspace →
    regime.workspace { workspace with cache := workspace.cache.remove key.path key.target } ∧
      regime.shows (.evicted key)
  watched : ∀ workspace path, regime.root path → regime.workspace workspace →
    regime.workspace (workspace.watchRoot path)
  told : ∀ workspace reports queue, regime.workspace workspace →
    regime.workspace { workspace with reports := reports, queue := queue }

variable {regime : Regime} {target : String} {context : Context}

namespace Within

theorem path_of_getElem? {session : Session} (within : regime.Within target context session)
    (lawful : regime.Lawful) {index : Nat} {path : Path}
    (found : session.roots[index]? = some path) : regime.path path :=
  lawful.roots target _ within.context path (List.mem_of_getElem? found)

theorem root_of_getElem? {session : Session} (within : regime.Within target context session)
    (lawful : regime.Lawful) {index : Nat} {path : Path}
    (found : session.roots[index]? = some path) : regime.root path :=
  lawful.rooted target _ within.context path (List.mem_of_getElem? found)

end Within

section Passes

variable (lawful : regime.Lawful)
include lawful

theorem lives_compileRootsFrom {compileRoot : Path → Step Emission} {force : Bool}
    (each : ∀ path, regime.path path → regime.root path →
      regime.Lives (regime.Within target context)
        (fun session => [.compiled ⟨context, path, force, session⟩]) (fun _ => True)
        (compileRoot path))
    (fuel index : Nat) {progress : Context.Progress}
    (good : ∀ path ∈ progress.compiled, regime.path path) :
    regime.Lives (regime.Within target context) (context.rootEvents compileRoot force fuel index)
      (fun progress => ∀ path ∈ progress.compiled, regime.path path)
      (context.compileRootsFrom compileRoot fuel index progress) := by
  have ended : regime.Lives (regime.Within target context) (fun _ => [])
      (fun progress : Context.Progress => ∀ path ∈ progress.compiled, regime.path path)
      (pure progress : Step Context.Progress) := .pure good
  induction fuel generalizing index progress with
  | zero =>
    intro session within _
    rw [Context.rootEvents_zero]
    cases found : session.roots[index]? with
    | none =>
      rw [Context.run_compileRootsFrom_of_end found]
      exact ended session within (by simp)
    | some path =>
      rw [Context.run_compileRootsFrom_zero found]
      exact ⟨within, by simp, by simp⟩
  | succ fuel ih =>
    intro session within admitted
    cases found : session.roots[index]? with
    | none =>
      rw [Context.rootEvents_of_end found, Context.run_compileRootsFrom_of_end found]
      exact ended session within (by simp)
    | some path =>
      rw [Context.rootEvents_succ found] at admitted ⊢
      rw [Context.run_compileRootsFrom_succ found]
      have allowed := within.path_of_getElem? lawful found
      have isRoot := within.root_of_getElem? lawful found
      have next (emission : Emission) :
          ∀ other ∈ (progress.add path emission).compiled, regime.path other := by
        intro other member
        rcases List.mem_append.mp member with known | last
        · exact good other known
        · exact List.mem_singleton.mp last ▸ allowed
      exact (each path allowed isRoot).bind (fun emission _ =>
        ih (index + 1) (next emission) (.pure (next emission))) session within admitted

theorem lives_compileAll (limit : Nat) (force : Bool) :
    regime.Lives (regime.Within target context)
      (fun session => context.rootEvents (context.compileFile · force) force
        (session.roots.length + limit) 0 session) (fun _ => True)
      (context.compileAll limit force) := by
  intro session within admitted
  have fresh : ∀ path ∈ ({} : Context.Progress).compiled, regime.path path := by simp
  have roots := lives_compileRootsFrom lawful
    (fun path allowed _ => lawful.compiled target context path force allowed)
    (session.roots.length + limit) 0 fresh
  exact roots.andThen (fun progress good =>
    .of_preserves (lawful.finished target context progress good)) session within admitted

theorem lives_adopt {path : Path} (allowed : regime.path path) (isRoot : regime.root path) :
    regime.Lives (regime.Within target context)
      (fun session => [.compiled ⟨context, path, true, session⟩]) (fun _ => True)
      (Compiler.adopt context path) := by
  refine (lawful.compiled target context path true allowed).andThen fun emission _ => ?_
  refine .of_preserves (Preserves.bind (Preserves.modify fun session within => ?_) fun _ =>
    Preserves.pure _)
  refine ⟨?_, within.context⟩
  dsimp only
  split
  · exact lawful.watched _ path isRoot within.workspace
  · exact within.workspace

theorem lives_refresh {progress : Context.Progress}
    (good : ∀ path ∈ progress.compiled, regime.path path) {path : Path}
    (allowed : regime.path path) :
    regime.Lives (regime.Within target context)
      (fun session => if session.workspace.system.fileExists path then
        [.compiled ⟨context, path, true, session⟩]
        else [.evicted ⟨path, context.target⟩])
      (fun progress => ∀ path ∈ progress.compiled, regime.path path)
      (Compiler.refresh context progress path) := by
  intro session within admitted
  rw [Compiler.run_refresh]
  dsimp only at admitted ⊢
  cases stands : session.workspace.system.fileExists path with
  | true =>
    rw [stands] at admitted
    refine ((lawful.compiled target context path true allowed).andThen fun emission _ =>
      .pure fun other member => ?_) session within admitted
    rcases List.mem_append.mp member with known | last
    · exact good other known
    · exact List.mem_singleton.mp last ▸ allowed
  | false =>
    obtain ⟨kept, shown⟩ := lawful.evicted _ ⟨path, context.target⟩ within.workspace
    refine ⟨⟨kept, within.context⟩, fun event member => ?_, fun later _ ran => ?_⟩
    · rw [List.mem_singleton.mp member]
      exact shown
    · cases ran
      exact good

theorem lives_foldlM_refresh {files : List Path} (allowed : ∀ file ∈ files, regime.path file)
    {progress : Context.Progress} (good : ∀ path ∈ progress.compiled, regime.path path) :
    regime.Lives (regime.Within target context) (Compiler.refreshEvents context files)
      (fun progress => ∀ path ∈ progress.compiled, regime.path path)
      (files.foldlM (Compiler.refresh context) progress) :=
  .foldlM (fun _ => rfl) (fun _ _ _ _ => congrArg (_ ++ ·) (Compiler.eventsBehind_refresh ..))
    (fun file member _ good => lives_refresh lawful good (allowed file member)) good

theorem lives_refreshAll (limit : Nat) {files : List Path}
    (allowed : ∀ file ∈ files, regime.path file) :
    regime.Lives (regime.Within target context) (Compiler.refreshAllEvents context limit files)
      (fun _ => True) (Compiler.refreshAll context limit files) := by
  intro session within admitted
  have fresh : ∀ path ∈ ({} : Context.Progress).compiled, regime.path path := by simp
  have refreshed : regime.Lives (regime.Within target context)
      (Compiler.refreshEvents context files)
      (fun progress => ∀ path ∈ progress.compiled, regime.path path)
      (files.foldlM (Compiler.refresh context) {}) :=
    lives_foldlM_refresh lawful allowed fresh
  have whole := refreshed.bind
    (fun (progress : Context.Progress) good (later : Session) within admitted =>
      ((lives_compileRootsFrom lawful (fun path => lives_adopt lawful)
        (later.roots.length - session.roots.length + limit) session.roots.length good).andThen
        fun progress good => .of_preserves (lawful.finished target context progress good))
          later within admitted) session within
  exact whole admitted

end Passes

namespace Holds

variable {compiler : Compiler}

theorem within (holds : regime.Holds compiler) (known : compiler.context? target = some context) :
    regime.Within target context ⟨compiler.workspace, context.roots⟩ :=
  ⟨holds.workspace, holds.contexts target context known⟩

theorem absorb (holds : regime.Holds compiler) (known : compiler.context? target = some context)
    {session : Session} (within : regime.Within target context session) :
    regime.Holds (compiler.absorb target session) := by
  refine ⟨within.workspace, fun other found changed => ?_, holds.registry⟩
  rw [Compiler.context?_absorb] at changed
  split at changed
  · next same =>
    subst same
    rw [known] at changed
    cases changed
    exact within.context
  · exact holds.contexts other found changed

theorem withWorkspace (holds : regime.Holds compiler) {workspace : Workspace}
    (kept : regime.workspace workspace) :
    regime.Holds { compiler with workspace := workspace } :=
  ⟨kept, holds.contexts, holds.registry⟩

end Holds

section Operations

open Compiler

theorem preserves_modifyWorkspace {f : Workspace → Workspace}
    (kept : ∀ workspace, regime.workspace workspace → regime.workspace (f workspace)) :
    Preserves regime.Holds (modifyWorkspace f) :=
  Preserves.modify fun compiler holds =>
    holds.withWorkspace (kept compiler.workspace holds.workspace)

/-- What is kept inside a context is kept outside. -/
theorem lives_inContext {α : Type} {step : Context → Step α}
    {events : Context → Session → List Event}
    (each : ∀ context, regime.Lives (regime.Within target context) (events context)
      (fun _ => True) (step context)) :
    regime.Lives regime.Holds (eventsInContext target events) (fun _ => True)
      (inContext target step) := by
  intro compiler holds admitted
  rw [run_inContext]
  unfold eventsInContext at admitted ⊢
  cases known : compiler.context? target with
  | none => exact ⟨holds, by simp, by simp⟩
  | some context =>
    rw [known] at admitted
    obtain ⟨kept, shown, _⟩ := each context _ (holds.within known) admitted
    dsimp only
    cases ran : step context ⟨compiler.workspace, context.roots⟩ with
    | ok a session =>
      rw [ran] at kept
      exact ⟨holds.absorb known kept, shown, fun _ _ _ => trivial⟩
    | error failure session =>
      rw [ran] at kept
      exact ⟨holds.absorb known kept, shown, fun _ _ _ => trivial⟩

variable (lawful : regime.Lawful)
include lawful

theorem preserves_status (message : String) :
    Preserves regime.Holds (status message) := by
  refine Preserves.get.bind fun compiler => ?_
  split
  · exact preserves_modifyWorkspace fun workspace => lawful.told workspace _ _
  · exact Preserves.pure _

theorem lives_compileTarget (target : String) (force : Bool) :
    regime.Lives regime.Holds (targetEvents target force) (fun _ => True)
      (compileTarget target force) := fun compiler =>
  lives_inContext (fun _ => lives_compileAll lawful compiler.rootLimit force) compiler

theorem lives_passes (force : Bool) (targets : List String) (result : PassResult) :
    regime.Lives regime.Holds (passEvents force targets) (fun _ => True)
      (targets.foldlM (fun result target => return result.merge (← compileTarget target force))
        result : Compiling PassResult) :=
  .foldlM (fun _ => rfl) (fun _ _ _ _ => congrArg (_ ++ ·) (eventsBehind_map ..))
    (fun target _ result _ => (lives_compileTarget lawful target force).andThen fun pass _ =>
      .ended (result.merge pass)) trivial

/-- The paths that a change affects are resolved. -/
theorem path_of_mem_affected {path file : Path} (allowed : regime.path path)
    {workspace : Workspace} (member : file ∈ affected context workspace path) :
    regime.path file := by
  unfold affected at member
  split at member
  · split at member
    · exact List.mem_singleton.mp member ▸ allowed
    · cases member
  · obtain ⟨dependent, _, rfl⟩ := List.mem_map.mp member
    exact lawful.resolved _ _

theorem lives_targetChanged {path : Path} (allowed : regime.path path) (result : PassResult)
    (target : String) :
    regime.Lives regime.Holds (targetChangedEvents path target) (fun _ => True)
      (targetChanged path result target) := by
  intro compiler holds admitted
  rw [run_targetChanged]
  unfold targetChangedEvents eventsInContext at admitted ⊢
  cases known : compiler.context? target with
  | none => exact ⟨holds, by simp, by simp⟩
  | some context =>
    rw [known] at admitted
    dsimp only at admitted ⊢
    split
    · exact ⟨holds, by simp, fun _ _ _ => trivial⟩
    · next busy =>
      rw [if_neg busy] at admitted
      have refreshed (other : Context) : regime.Lives (regime.Within target other)
          (refreshAllEvents other compiler.rootLimit (affected context compiler.workspace path))
          (fun _ => True)
          (refreshAll other compiler.rootLimit (affected context compiler.workspace path)) :=
        lives_refreshAll lawful compiler.rootLimit fun file member =>
          path_of_mem_affected lawful allowed member
      have whole := ((lives_inContext refreshed).andThen fun pass _ =>
        .ended (result.merge pass)) compiler holds
      unfold eventsInContext at whole
      rw [known] at whole
      exact whole admitted

theorem lives_targetsChanged {path : Path} (allowed : regime.path path) (targets : List String)
    (result : PassResult) :
    regime.Lives regime.Holds (targetsChangedEvents path targets) (fun _ => True)
      (targets.foldlM (targetChanged path) result) :=
  .foldlM (fun _ => rfl) (fun _ _ _ _ => congrArg (_ ++ ·) (eventsBehind_targetChanged ..))
    (fun target _ result _ => lives_targetChanged lawful allowed result target) trivial

theorem lives_fileChanged (path : Path) :
    regime.Lives regime.Holds (fileChangedEvents path) (fun _ => True) (fileChanged path) := by
  intro compiler holds admitted
  let resolved := compiler.workspace.system.resolve path
  have allowed := lawful.resolved compiler.workspace.system path
  have changed (targets : List String) :=
    (lives_targetsChanged lawful allowed targets {}).andThen fun result _ =>
      .of_preserves ((preserves_status lawful (foundErrors result)).bind fun _ =>
        Preserves.pure result)
  have told (message : String) := (Lives.of_preserves (preserves_status lawful message)).behind
    fun _ _ => (Lives.of_preserves preserves_writingTargets).behind fun targets _ => changed targets
  exact told _ compiler holds admitted

theorem preserves_takeQueue : Preserves regime.Holds takeQueue :=
  Preserves.get.bind fun _ => (preserves_modifyWorkspace fun workspace kept =>
    lawful.told workspace workspace.reports [] kept).bind fun _ => Preserves.pure _

theorem lives_filesChanged (paths : List Path) (result : PassResult) :
    regime.Lives regime.Holds (filesChangedEvents paths) (fun _ => True)
      (paths.foldlM (fun result path => return result.merge (← fileChanged path)) result
        : Compiling PassResult) :=
  .foldlM (fun _ => rfl) (fun _ _ _ _ => congrArg (_ ++ ·) (eventsBehind_map ..))
    (fun path _ result _ => (lives_fileChanged lawful path).andThen fun pass _ =>
      .ended (result.merge pass)) trivial

theorem lives_drainChanges :
    regime.Lives regime.Holds drainEvents (fun _ => True) drainChanges :=
  (Lives.of_preserves (preserves_takeQueue lawful)).behind fun paths _ =>
    lives_filesChanged lawful paths {}

theorem lives_fileChangedOrReport (path : Path) :
    regime.Lives regime.Holds (fileChangedEvents path) (fun _ => True)
      (fileChangedOrReport path) := by
  intro compiler holds admitted
  obtain ⟨kept, shown, _⟩ := lives_fileChanged lawful path compiler holds admitted
  unfold fileChangedOrReport
  rw [run_tryCatch, run_discard]
  cases ran : fileChanged path compiler with
  | ok result next =>
    rw [ran] at kept
    exact ⟨kept, shown, fun _ _ _ => trivial⟩
  | error failure next =>
    rw [ran] at kept
    exact ⟨kept.withWorkspace (lawful.told _ _ _ kept.workspace), shown, fun _ _ _ => trivial⟩

theorem lives_reported (paths : List Path) :
    regime.Lives regime.Holds (reportedEvents paths) (fun _ => True)
      (paths.forM fileChangedOrReport) := by
  induction paths with
  | nil => exact .ended _
  | cons path paths ih =>
    intro compiler holds admitted
    have whole := (lives_fileChangedOrReport lawful path).bind (fun _ _ => ih) compiler holds
    have behind : eventsBehind (fileChangedOrReport path compiler)
        (fun _ => reportedEvents paths) =
          reportedEvents paths (endState (fileChangedOrReport path compiler)) := by
      obtain ⟨next, ran⟩ := fileChangedOrReport_eq_ok path compiler
      rw [ran]
      rfl
    dsimp only at whole
    rw [behind] at whole
    exact whole admitted

end Operations

section Made

open Compiler

variable {compiler : Compiler} (lawful : regime.Lawful)
include lawful

/-- A compiler compiles in the regime once its contexts are made. -/
theorem compile_of_made (made : regime.Holds (endState compiler.ensureContexts))
    (admitted : ∀ event ∈ compiler.compileEvents, regime.admits event) :
    regime.Holds (endState (compile compiler)) ∧
      ∀ event ∈ compiler.compileEvents, regime.shows event := by
  have passes (setup : Setup) := (lives_passes lawful false setup.activeTargets {}).andThen
    fun result _ => .ended { result with skipped := result.skipped || setup.activeTargets.isEmpty }
  have behind := (Lives.of_preserves preserves_setup).behind fun setup _ => passes setup
  exact Lives.ofMiddle (fun _ => behind) made admitted

/-- So it watches. -/
theorem watch_of_made (made : regime.Holds (endState compiler.ensureContexts))
    (admitted : ∀ event ∈ compiler.watchEvents, regime.admits event) :
    regime.Holds (endState (watch compiler)) ∧
      ∀ event ∈ compiler.watchEvents, regime.shows event := by
  have watched (targets : List String) : Preserves regime.Holds (targets.forM fun target => do
      (← Compiler.context target).roots.forM fun path => modifyWorkspace (·.watchRoot path)) :=
    Preserves.forM fun target _ compiler holds => by
      rw [run_bind, run_context]
      cases known : compiler.context? target with
      | none => exact holds
      | some context =>
        exact Preserves.forM (fun path member => preserves_modifyWorkspace fun workspace =>
          lawful.watched workspace path (lawful.rooted target context
            (holds.contexts target context known) path member)) compiler holds
  have rest (result : PassResult) : Preserves regime.Holds (do
      if (← get).workspace.system.supportsWatch then
        (← setup).activeTargets.forM fun target => do
          (← Compiler.context target).roots.forM fun path => modifyWorkspace (·.watchRoot path)
        status (foundErrors result)
        return result
      else
        modifyWorkspace (·.report watchUnsupported)
        return { result with diagnostics := result.diagnostics ++ [watchUnsupported] }
          : Compiling PassResult) := by
    refine Preserves.get.bind fun compiler => ?_
    split
    · exact preserves_setup.bind fun setup => (watched setup.activeTargets).bind fun _ =>
        (preserves_status lawful _).bind fun _ => Preserves.pure _
    · exact (preserves_modifyWorkspace fun workspace => lawful.told workspace _ _).bind fun _ =>
        Preserves.pure _
  have passes (targets : List String) := (lives_passes lawful true targets {}).andThen
    fun result _ => .of_preserves (rest result)
  have behind := (Lives.of_preserves preserves_writingTargets).behind fun targets _ =>
    passes targets
  exact Lives.ofMiddle (fun _ => behind) made admitted

variable (closed : ∀ workspace, regime.workspace workspace → regime.workspace workspace.closeWatches)
include closed

omit lawful in
theorem preserves_closeWatches : Preserves regime.Holds closeWatches :=
  Preserves.get.bind fun _ => (preserves_modifyWorkspace closed).bind fun _ =>
    Preserves.pure _

theorem lives_runWatch (stopped : Bool) :
    regime.Lives regime.Holds (runWatchEvents stopped) (fun _ => True) (runWatch stopped) := by
  have closed : regime.Lives regime.Holds (fun _ => []) (fun _ => True)
      (do let _ ← closeWatches : Compiling Unit) :=
    .of_preserves ((preserves_closeWatches closed).bind fun _ => Preserves.pure _)
  have handled (paths : List Path) := (lives_reported lawful paths).andThen fun _ _ => closed
  have taken := (Lives.of_preserves (preserves_takeQueue lawful)).behind
    fun paths _ => handled paths
  refine (Lives.of_preserves preserves_setup).behind fun setup _ => ?_
  cases stopped with
  | true => exact closed
  | false => exact taken

end Made

/-- The actions that keep a regime: edits must keep what it says of the workspace, new options bring
addons that it knows, and single files are compiled under its paths. -/
def Allows (regime : Regime) : Action → Prop
  | .edit change => ∀ workspace, regime.workspace workspace →
      regime.workspace { workspace with system := change workspace.system }
  | .configure setup => setup.registry.All regime.addon
  | .compileFile _ path _ => regime.path path
  | _ => True

/-- An action that sets no options keeps the regime, if the making of contexts does. -/
theorem run_of_made (lawful : regime.Lawful)
    (closed : ∀ workspace, regime.workspace workspace → regime.workspace workspace.closeWatches)
    {action : Action} (same : ∀ setup, action ≠ .configure setup) (allowed : regime.Allows action)
    {compiler : Compiler}
    (made : regime.Holds (if action.ensures then endState compiler.ensureContexts else compiler))
    (admitted : ∀ event ∈ action.events compiler, regime.admits event) :
    regime.Holds (action.run compiler) ∧ ∀ event ∈ action.events compiler, regime.shows event := by
  have parts {α : Type} {x : Compiling α} {events : Compiler → List Event}
      (lives : regime.Lives regime.Holds events (fun _ => True) x) (holds : regime.Holds compiler)
      (admitted : ∀ event ∈ events compiler, regime.admits event) :
      regime.Holds (endState (x compiler)) ∧ ∀ event ∈ events compiler, regime.shows event :=
    let ⟨kept, shown, _⟩ := lives compiler holds admitted
    ⟨kept, shown⟩
  cases action with
  | edit change => exact ⟨made.withWorkspace (allowed _ made.workspace), by simp [Action.events]⟩
  | notify path numbers =>
    exact ⟨made.withWorkspace (lawful.told _ _ _ made.workspace), by simp [Action.events]⟩
  | configure setup => exact absurd rfl (same setup)
  | ensureContexts => exact ⟨made, by simp [Action.events]⟩
  | compile => exact compile_of_made lawful made admitted
  | compileFile target path force =>
    exact parts (lives_inContext fun context =>
      lawful.compiled target context path force allowed) made admitted
  | watch => exact watch_of_made lawful made admitted
  | fileChanged path => exact parts (lives_fileChanged lawful path) made admitted
  | drainChanges => exact parts (lives_drainChanges lawful) made admitted
  | runWatch stopped => exact parts (lives_runWatch lawful closed stopped) made admitted
  | closeWatches => exact ⟨preserves_closeWatches closed compiler made, by simp [Action.events]⟩

/-- The regime over a compiler with some options. -/
def Over (regime : Regime) (setup : Setup) (compiler : Compiler) : Prop :=
  regime.Holds compiler ∧ compiler.Under setup

/-- What a regime has to keep where contexts are made under some options. -/
structure Grounds (regime : Regime) (setup : Setup) : Prop extends regime.Lawful where
  bare : ∀ workspace target roots, regime.workspace workspace →
    setup.project.rootFiles workspace.system setup.projectRoot = .ok roots →
      regime.context target { toScope := setup.scope workspace.system target, roots := roots }
  activated : ∀ addon, regime.addon addon → ∀ target,
    Preserves (fun activation : Activation =>
      regime.workspace activation.workspace ∧ regime.context target activation.context)
      addon.activate

section Making

open Compiler

variable {setup : Setup} (grounds : regime.Grounds setup)
include grounds

/-- The addons of a target are loaded, and what is wrong with them is reported. -/
theorem lives_addonsFor (target : String) :
    regime.Lives (regime.Over setup) (fun _ => []) (fun addons => ∀ addon ∈ addons,
      regime.addon addon) (addonsFor target) := by
  rintro compiler ⟨holds, registry, known⟩ _
  obtain ⟨good, kept⟩ := (holds.registry _ known).addonsFor compiler.workspace.system target
  rw [run_addonsFor known]
  refine ⟨⟨⟨grounds.told _ _ _ holds.workspace, holds.contexts, fun other same => ?_⟩, _, rfl⟩,
    by simp, fun addons next same => ?_⟩
  · cases same
    exact kept
  · cases same
    exact good

theorem lives_activate {context : Context} (bare : regime.context target context)
    {addons : List Addon} (good : ∀ addon ∈ addons, regime.addon addon) :
    regime.Lives (regime.Over setup) (fun _ => []) (regime.context target)
      (activate context addons) := by
  rintro compiler ⟨holds, under⟩ _
  have kept := Preserves.forM (fun addon member =>
    grounds.activated addon (good addon member) target) ⟨context, compiler.workspace⟩
    ⟨holds.workspace, bare⟩
  unfold activate
  revert kept
  cases (addons.forM (·.activate) : EStateM Failure Activation Unit)
    ⟨context, compiler.workspace⟩ with
  | ok _ activation =>
    refine fun kept => ⟨⟨holds.withWorkspace kept.1, under⟩, by simp, fun made next same => ?_⟩
    cases same
    exact kept.2
  | error failure activation =>
    exact fun kept => ⟨⟨holds.withWorkspace kept.1, under⟩, by simp, by simp⟩

theorem lives_makeContext (target : String) :
    regime.Lives (regime.Over setup) (fun _ => []) (regime.context target)
      (makeContext target) := by
  intro compiler lasts _
  obtain ⟨holds, registry, known⟩ := lasts
  unfold makeContext
  rw [run_bind, run_setup, known]
  simp only [run_bind, run_get]
  cases found : setup.project.rootFiles compiler.workspace.system setup.projectRoot with
  | error failure => exact ⟨⟨holds, registry, known⟩, by simp, by simp⟩
  | ok roots =>
    have bare := grounds.bare compiler.workspace target roots holds.workspace found
    exact (lives_addonsFor grounds target).andThen (fun addons good =>
      lives_activate grounds bare good) compiler ⟨holds, registry, known⟩ (by simp)

theorem preserves_over_ensureContext (target : String) :
    Preserves (regime.Over setup) (ensureContext target) := by
  intro compiler lasts
  unfold ensureContext
  simp only [run_bind, run_get]
  split
  · obtain ⟨kept, _, good⟩ := lives_makeContext grounds target compiler lasts (by simp)
    rw [run_bind]
    cases made : makeContext target compiler with
    | error failure next =>
      rw [made] at kept
      exact kept
    | ok context next =>
      rw [made] at kept
      obtain ⟨kept, under⟩ := kept
      refine ⟨⟨kept.workspace, fun other found known => ?_, kept.registry⟩, under⟩
      change (next.contexts ++ [(target, context)]).lookup other = some found at known
      rw [List.lookup_append] at known
      rcases Option.or_eq_some_iff.mp known with old | ⟨_, fresh⟩
      · exact kept.contexts other found old
      · by_cases same : other = target
        · subst same
          simp at fresh
          exact fresh ▸ good context next made
        · have apart : (other == target) = false := by simpa using same
          simp [List.lookup_cons, apart] at fresh
  · exact lasts

theorem preserves_over_ensureContexts : Preserves (regime.Over setup) ensureContexts :=
  preserves_setup.bind fun _ =>
    (Preserves.forM fun target _ => preserves_over_ensureContext grounds target).bind fun _ =>
      Preserves.modify fun _ ⟨holds, under⟩ =>
        ⟨⟨holds.workspace, holds.contexts, holds.registry⟩, under⟩

end Making

/-- What a regime has to keep to be kept by a whole life: contexts are made in workspaces of the
regime, watchers are closed, and the cache is cleared. -/
structure Lasting (regime : Regime) : Prop extends regime.Lawful where
  bare : ∀ (setup : Setup) workspace target roots, regime.workspace workspace →
    setup.project.rootFiles workspace.system setup.projectRoot = .ok roots →
      regime.context target { toScope := setup.scope workspace.system target, roots := roots }
  activated : ∀ addon, regime.addon addon → ∀ target,
    Preserves (fun activation : Activation =>
      regime.workspace activation.workspace ∧ regime.context target activation.context)
      addon.activate
  closed : ∀ workspace, regime.workspace workspace → regime.workspace workspace.closeWatches
  cleared : ∀ workspace, regime.workspace workspace →
    regime.workspace { workspace with cache := {} }
  shown : regime.shows .cleared

theorem Lasting.grounds (lasting : regime.Lasting) (setup : Setup) : regime.Grounds setup where
  toLawful := lasting.toLawful
  bare := lasting.bare setup
  activated := lasting.activated

/-- What a regime has to keep where it asks nothing of the workspaces in which contexts are made. -/
structure Founded (regime : Regime) : Prop extends regime.Lawful where
  bare : ∀ (setup : Setup) (system : Files.System) target roots,
    setup.project.rootFiles system setup.projectRoot = .ok roots →
      regime.context target { toScope := setup.scope system target, roots := roots }
  activated : ∀ addon, regime.addon addon → ∀ target,
    Preserves (fun activation : Activation =>
      regime.workspace activation.workspace ∧ regime.context target activation.context)
      addon.activate
  closed : ∀ workspace, regime.workspace workspace → regime.workspace workspace.closeWatches
  cleared : ∀ workspace, regime.workspace workspace →
    regime.workspace { workspace with cache := {} }
  shown : regime.shows .cleared

theorem Founded.lasting (founded : regime.Founded) : regime.Lasting where
  toLawful := founded.toLawful
  bare setup workspace target roots _ found := founded.bare setup workspace.system target roots found
  activated := founded.activated
  closed := founded.closed
  cleared := founded.cleared
  shown := founded.shown

theorem preserves_ensureContexts (lasting : regime.Lasting) :
    Preserves regime.Holds Compiler.ensureContexts := by
  intro compiler holds
  cases known : compiler.setup? with
  | none =>
    unfold Compiler.ensureContexts
    rw [run_bind, Compiler.run_setup, known]
    exact holds
  | some setup =>
    exact (preserves_over_ensureContexts (lasting.grounds setup) compiler
      ⟨holds, setup.registry, known⟩).1

/-- An action with admitted events keeps the regime, and its events are shown. -/
theorem lives_action (lasting : regime.Lasting) {action : Action} (allowed : regime.Allows action)
    {compiler : Compiler} (holds : regime.Holds compiler)
    (admitted : ∀ event ∈ action.events compiler, regime.admits event) :
    regime.Holds (action.run compiler) ∧ ∀ event ∈ action.events compiler, regime.shows event := by
  by_cases sets : ∃ setup, action = .configure setup
  · obtain ⟨setup, rfl⟩ := sets
    refine ⟨⟨lasting.cleared _ (lasting.closed _ holds.workspace), by simp [Action.run,
      Compiler.configure, Compiler.context?], fun other same => ?_⟩, fun event member => ?_⟩
    · cases same
      exact allowed
    · rw [List.mem_singleton.mp member]
      exact lasting.shown
  · refine run_of_made lasting.toLawful lasting.closed (fun setup same => sets ⟨setup, same⟩)
      allowed ?_ admitted
    split
    · exact preserves_ensureContexts lasting compiler holds
    · exact holds

/-- A life with admitted events keeps the regime, and all its events are shown. -/
theorem lives_history (lasting : regime.Lasting) {actions : List Action}
    (allowed : ∀ action ∈ actions, regime.Allows action) {compiler : Compiler}
    (holds : regime.Holds compiler)
    (admitted : ∀ event ∈ history actions compiler, regime.admits event) :
    regime.Holds (compiler.runAll actions) ∧
      ∀ event ∈ history actions compiler, regime.shows event := by
  induction actions generalizing compiler with
  | nil => exact ⟨holds, by simp [history]⟩
  | cons action actions ih =>
    obtain ⟨kept, shown⟩ := lives_action lasting (allowed action (List.mem_cons_self ..)) holds
      fun event member => admitted event (List.mem_append_left _ member)
    obtain ⟨last, rest⟩ := ih (fun other member => allowed other (List.mem_cons_of_mem _ member))
      kept fun event member => admitted event (List.mem_append_right _ member)
    refine ⟨last, fun event member => ?_⟩
    rcases List.mem_append.mp member with before | behind
    · exact shown event before
    · exact rest event behind

end Regime

end Recast.Build
