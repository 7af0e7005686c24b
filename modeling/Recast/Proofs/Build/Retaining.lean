import Recast.Proofs.Build.Placing
import Recast.Proofs.Build.Turns

/-! # The outputs that the cache retains

The outputs of an entry are those of the last compilation of its file that had some, as long as the
cache did not forget the file since (`Evolves.outputs`). In a pass each root file is compiled once,
so what its compilation gave is still there when the last root file is compiled (`find?_of_sweep`),
and what the compiler lived through before the pass is known as well (`evolves_course`).
-/

namespace Recast.Build

open Recast.Emit

namespace Compilation

variable {compilation : Compilation}

/-- A compilation that came to an end was skipped, or it gave the outputs that it produced or those
that the cache knew. -/
theorem answer_of_ok {emission : Emission} {later : Session}
    (ran : compilation.result = .ok emission later) :
    (emission.skipped = true ∧ compilation.outcome ≠ .emitted) ∨
      (emission.skipped = false ∧ emission.files =
        if compilation.outcome = .emitted then compilation.produced
        else compilation.known.outputs) := by
  have came := compilation.came
  cases outcome : compilation.outcome <;> rw [outcome] at came
  case served =>
    cases came with
    | served _ answer =>
      rw [answer] at ran
      cases ran
      exact .inr ⟨rfl, rfl⟩
  case unreadable =>
    cases came with
    | unreadable _ _ answer =>
      rw [answer] at ran
      cases ran
      exact .inl ⟨rfl, nofun⟩
  case skipped =>
    cases came with
    | skipped _ _ _ _ answer =>
      rw [answer] at ran
      cases ran
      exact .inl ⟨rfl, nofun⟩
  case refused =>
    cases came with
    | refused _ _ _ answer =>
      rw [answer] at ran
      cases ran
  case broken =>
    cases came with
    | broken _ _ _ _ answer =>
      rw [answer] at ran
      cases ran
  case emitted =>
    obtain ⟨made, last, emitted, counts⟩ := outcome_eq_emitted_iff.mp outcome
    rw [result_of_emission? emitted counts] at ran
    obtain ⟨_, _, _, ended⟩ := exists_of_bind_eq_ok ran
    cases ended
    exact .inr ⟨rfl, (produced_of_emission? emitted counts).symm⟩

variable (keeps : compilation.context.KeepsCache)
include keeps

private theorem outputs_after_of_skipped (skipped : compilation.outcome = .skipped) :
    ((compilation.after.cache.find? compilation.key).getD {}).outputs =
      compilation.known.outputs := by
  have came := compilation.came
  rw [skipped] at came
  cases came with
  | @skipped source text emission session last _ _ prepared emitted answer =>
    have recorded := find?_recorded keeps prepared
    rw [emitted] at recorded
    have marked : compilation.after.cache.find? compilation.key =
        (last.cache.find? compilation.key).map (·.withoutOutput) := by
      rw [after, answer]
      exact (Cache.find?_modify ..).trans (if_pos (CacheKey.same_self _))
    rw [marked, show last.cache.find? _ = _ from recorded, ← compilation.entry_started.2]
    exact CacheEntry.update_outputs _ source text

private theorem outputs_after_of_emitted (outcome : compilation.outcome = .emitted) :
    ((compilation.after.cache.find? compilation.key).getD {}).outputs = compilation.produced := by
  obtain ⟨emission, last, emitted, counts⟩ := outcome_eq_emitted_iff.mp outcome
  obtain ⟨source, text, session, _, _, prepared, ran⟩ := exists_of_emission? emitted
  have recorded := find?_recorded keeps prepared
  rw [ran] at recorded
  have writes : Leaves Session.cache ((compilation.written.forM fun file =>
      Step.write file.name file.diskText) >>= fun _ => pure { emission with skipped := false }) :=
    (Leaves.forM fun file _ => Step.leaves_cache_write file.name file.diskText).bind fun _ =>
      Leaves.pure _
  have settled : compilation.after.cache.find? compilation.key =
      (last.cache.find? compilation.key).map (·.withOutputs compilation.produced) := by
    rw [after, result_of_emission? emitted counts, writes]
    exact (Cache.find?_modify ..).trans (if_pos (CacheKey.same_self _))
  rw [settled, show last.cache.find? _ = _ from recorded]
  rfl

/-- Only a compilation that comes to an emission with output changes the outputs of its entry. -/
theorem outputs_after :
    ((compilation.after.cache.find? compilation.key).getD {}).outputs =
      if compilation.outcome = .emitted then compilation.produced
      else compilation.known.outputs := by
  have unrecorded (left : compilation.outcome = .unreadable ∨ compilation.outcome = .refused) :
      ((compilation.after.cache.find? compilation.key).getD {}).outputs =
        compilation.known.outputs := by
    rw [find?_after_of_unrecorded keeps left, compilation.entry_started.2]
  cases outcome : compilation.outcome with
  | served =>
    have came := compilation.came
    rw [outcome] at came
    cases came with
    | served _ answer =>
      rw [after, answer]
      rfl
  | unreadable => exact unrecorded (.inl outcome)
  | refused => exact unrecorded (.inr outcome)
  | broken => exact outputs_after_of_broken keeps outcome
  | skipped => exact outputs_after_of_skipped keeps outcome
  | emitted => exact outputs_after_of_emitted keeps outcome

/-- The outputs that a compilation gives are those of its entry, unless it was skipped. -/
theorem outputs_of_ok {emission : Emission} {later : Session}
    (ran : compilation.result = .ok emission later) (counts : emission.skipped = false) :
    ((compilation.after.cache.find? compilation.key).getD {}).outputs = emission.files := by
  rcases answer_of_ok ran with ⟨skipped, _⟩ | ⟨_, files⟩
  · rw [counts] at skipped
    cases skipped
  · rw [outputs_after keeps, files]

end Compilation

/-- The compilation that an event stands for, if it is of the key and had output. -/
def Event.emitted? (key : CacheKey) : Event → Option Compilation
  | compiled compilation =>
    if key.same compilation.key = true ∧ compilation.outcome = .emitted then some compilation
    else none
  | evicted _ | cleared => none

/-- The last compilation of the key that had output, of those since the cache forgot the key. -/
def latestEmitted? (key : CacheKey) (events : List Event) : Option Compilation :=
  (events.reverse.takeWhile fun event => !event.forgets key).findSome? (·.emitted? key)

theorem latestEmitted?_concat (key : CacheKey) (events : List Event) (event : Event) :
    latestEmitted? key (events ++ [event]) =
      if event.forgets key then none else (event.emitted? key).or (latestEmitted? key events) := by
  unfold latestEmitted?
  rw [List.reverse_append, List.reverse_singleton, List.singleton_append]
  cases forgets : event.forgets key with
  | true => simp [forgets]
  | false => simp [forgets, List.findSome?_cons]; cases event.emitted? key <;> rfl

/-- The outputs of an entry behind an event. -/
private theorem Evolution.outputs {first last : Cache} {event : Event}
    (step : Evolution first event last) (key : CacheKey) {before : Option Compilation}
    (known : ((first.find? key).getD {}).outputs = before.elim [] (·.produced)) :
    ((last.find? key).getD {}).outputs = (if event.forgets key then none
      else (event.emitted? key).or before).elim [] (·.produced) := by
  cases step with
  | compiled compilation keeps =>
    cases alike : key.same compilation.key with
    | false =>
      have left := Context.leaves_find?_compileFile alike keeps compilation.force
        compilation.session
      change compilation.after.cache.find? key = compilation.session.cache.find? key at left
      rw [left, known]
      simp [Event.forgets, Event.emitted?, alike]
    | true =>
      rw [Cache.find?_congr _ alike] at known
      change compilation.known.outputs = _ at known
      rw [Cache.find?_congr _ alike, Compilation.outputs_after keeps, known]
      by_cases outcome : compilation.outcome = .emitted <;>
        simp [Event.forgets, Event.emitted?, alike, outcome]
  | evicted _ gone =>
    rw [Cache.find?_remove]
    cases alike : key.same gone with
    | true => simp [Event.forgets, alike]
    | false => simpa [Event.forgets, Event.emitted?, alike] using known
  | cleared => rfl

/-- The outputs of an entry are those of the last compilation that had some. -/
theorem Evolves.outputs {events : List Event} {last : Cache} (evolves : Evolves {} events last)
    (key : CacheKey) :
    ((last.find? key).getD {}).outputs = (latestEmitted? key events).elim [] (·.produced) := by
  induction events using List.reverseRecOn generalizing last with
  | nil =>
    cases evolves
    rfl
  | append_singleton events event ih =>
    obtain ⟨middle, before, behind⟩ := append_iff.mp evolves
    cases behind with
    | cons step rest =>
      cases rest
      rw [latestEmitted?_concat]
      exact step.outputs key (ih before)

/-- What there is of a file at the end of a life in which its last compilation came to an end: the
outputs that this gave or, if it was skipped, those of the last compilation that had some. -/
def Compilation.standing (compilation : Compilation) (life : List Event) : List OutputFile :=
  match compilation.result with
  | .ok emission _ =>
    if emission.skipped then (latestEmitted? compilation.key life).elim [] (·.produced)
    else emission.files
  | .error _ _ => []

/-- Root files are compiled in one context, and all of them alike. -/
theorem Context.of_mem_rootEvents {context : Context} {compileRoot : Path → Step Emission}
    {force : Bool} {fuel index : Nat} {session : Session} {compilation : Compilation}
    (lived : .compiled compilation ∈ context.rootEvents compileRoot force fuel index session) :
    compilation.context = context ∧ compilation.force = force := by
  induction fuel generalizing index session with
  | zero =>
    rw [rootEvents_zero] at lived
    cases lived
  | succ fuel ih =>
    cases found : session.roots[index]? with
    | none =>
      rw [rootEvents_of_end found] at lived
      cases lived
    | some path =>
      rw [rootEvents_succ found] at lived
      rcases List.mem_cons.mp lived with same | later
      · cases same
        exact ⟨rfl, rfl⟩
      · cases ran : compileRoot path session with
        | error failure next => simp [ran, eventsBehind] at later
        | ok emission next =>
          rw [ran] at later
          exact ih later

namespace Pass

/-- The run of a pass through its root files. -/
def sweep (pass : Pass) : EStateM.Result Failure Session Context.Progress :=
  pass.context.compileRootsFrom (pass.context.compileFile · false)
    (pass.session.roots.length + pass.limit) 0 {} pass.session

variable {pass : Pass} {progress : Context.Progress} {later : Session}

/-- Once the root files are compiled the pass is ended. -/
theorem result_of_sweep (swept : pass.sweep = .ok progress later) :
    pass.result = pass.context.finish progress later := by
  unfold result Context.compileAll
  rw [run_bind_ok (run_get pass.session)]
  exact run_bind_ok swept

theorem files_of_sweep (swept : pass.sweep = .ok progress later) :
    progress.files = pass.compilations.flatMap (·.files) :=
  pass.context.gathers_compileRootsFrom (pass.context.gathers_compileFile · false) _ 0 {} _ _ _
    swept

/-- The end of a pass adds no output. -/
theorem files_of_result (swept : pass.sweep = .ok progress later) {answer : PassResult}
    {last : Session} (ran : pass.result = .ok answer last) : answer.files = progress.files := by
  rw [result_of_sweep swept] at ran
  exact (pass.context.gathers_finish progress later answer last ran).trans (List.append_nil _)

theorem evolves_of_sweep (keeps : pass.context.KeepsCache)
    (swept : pass.sweep = .ok progress later) :
    Evolves pass.session.cache pass.events later.cache := by
  have evolves := Context.accounts_compileRootsFrom
    (Context.accounts_compileFile keeps.tells · false)
    (pass.session.roots.length + pass.limit) 0 {} pass.session trivial
  rwa [show pass.context.compileRootsFrom _ _ 0 {} pass.session = _ from swept] at evolves

/-- Nothing happens to the cache behind the root files. -/
theorem cache_of_sweep (keeps : pass.context.KeepsCache)
    (swept : pass.sweep = .ok progress later) : (endState pass.result).cache = later.cache := by
  rw [result_of_sweep swept]
  exact Context.leaves_cache_finish keeps progress later

section Growing

variable (growing : pass.context.Growing)
include growing

private theorem grows_compileFile (path : Path) :
    Follows (Session.Grows pass.context.projectRoot fun _ => True)
      (pass.context.compileFile path false) :=
  Context.follows_compileFile (overlooks_grows ..) growing.prepares path false

theorem grows_of_sweep (swept : pass.sweep = .ok progress later) :
    pass.session.Grows pass.context.projectRoot (fun _ => True) later := by
  have grows := pass.context.follows_compileRootsFrom (grows_compileFile growing)
    (pass.session.roots.length + pass.limit) 0 {} pass.session
  rwa [show pass.context.compileRootsFrom _ _ 0 {} pass.session = _ from swept] at grows

theorem compiles_of_sweep (swept : pass.sweep = .ok progress later) :
    pass.context.Compiles 0 {} pass.session pass.compilations progress later := by
  refine Context.compiles_of_run (fun compilation lived => ?_) swept
  obtain ⟨context, path, force, session⟩ := compilation
  obtain ⟨rfl, rfl⟩ := Context.of_mem_rootEvents lived
  exact (grows_compileFile growing path session).isPrefix

theorem apart_of_sweep (apart : Apart pass.session.roots)
    (swept : pass.sweep = .ok progress later) : Apart later.roots := by
  obtain ⟨inputs, _, grown⟩ := (grows_of_sweep growing swept).roots
  exact grown ▸ pairwise_foldl_pushNew _ apart

/-- Each root file is compiled once, so its entry stays as its compilation left it. -/
theorem find?_of_sweep (keeps : pass.context.KeepsCache) (apart : Apart pass.session.roots)
    (swept : pass.sweep = .ok progress later) {compilation : Compilation}
    (member : compilation ∈ pass.compilations) :
    later.cache.find? compilation.key = compilation.after.cache.find? compilation.key := by
  have compiled : later.roots = pass.compilations.map (·.path) :=
    (compiles_of_sweep growing swept).roots
  exact find?_eq_after (evolves_of_sweep keeps swept)
    (compiled ▸ apart_of_sweep growing apart swept) member

theorem outputs_of_sweep (keeps : pass.context.KeepsCache) (apart : Apart pass.session.roots)
    (swept : pass.sweep = .ok progress later) {life : List Event}
    (evolves : Evolves {} life later.cache) {compilation : Compilation}
    (member : compilation ∈ pass.compilations) :
    (later.cache.get compilation.path pass.context.target).outputs = compilation.standing life := by
  obtain ⟨context, _, emission, next, ran⟩ :=
    (compiles_of_sweep growing swept).each compilation member
  have kept := find?_of_sweep growing keeps apart swept member
  have known := evolves.outputs compilation.key
  rw [← context]
  change ((later.cache.find? compilation.key).getD {}).outputs = _
  unfold Compilation.standing
  rw [ran]
  dsimp only
  cases counts : emission.skipped with
  | true => exact known
  | false =>
    rw [kept]
    exact Compilation.outputs_of_ok (context ▸ keeps) ran counts

end Growing

end Pass

namespace Compiler

variable {A : Addon → Prop} {C : String → Context → Prop} {compiler : Compiler}
  {before behind : List Pass} {pass : Pass}

private theorem evolves_courseOver (keeping : Keeping Evolves A C) {targets : List String}
    (holds : compiler.Holds A C) (split : courseOver targets compiler = before ++ pass :: behind) :
    Evolves compiler.cache (before.flatMap (·.events)) pass.session.cache ∧
      ∃ target, C target pass.context := by
  induction targets generalizing before compiler with
  | nil => simp [courseOver] at split
  | cons target targets ih =>
    unfold courseOver at split
    have step := accounts_compileTarget keeping target false compiler holds
    have kept := keeping.sturdy.preserves_compileTarget target false compiler holds
    rw [targetEvents_eq] at step
    cases known : compiler.pass? target with
    | none =>
      rw [run_compileTarget, known] at split
      simp at split
    | some first =>
      rw [known] at split step
      rw [Option.toList_some, List.singleton_append] at split
      obtain ⟨context, found, rfl⟩ := Option.map_eq_some_iff.mp known
      cases before with
      | nil =>
        obtain ⟨rfl, -⟩ := List.cons.inj split
        exact ⟨.nil _, target, holds.context found⟩
      | cons other before =>
        obtain ⟨rfl, rest⟩ := List.cons.inj split
        cases ran : compileTarget target false compiler with
        | error failure next => simp [ran] at rest
        | ok result next =>
          rw [ran] at rest step kept
          obtain ⟨others, good⟩ := ih kept rest
          refine ⟨?_, good⟩
          rw [List.flatMap_cons]
          simpa using step.append others

/-- In a life with addons that only add root files, a pass begins with root files of which no two
are the same, and its callbacks do no more than the addons. -/
theorem growing_course {system : Files.System} (sorted : system.Sorted) (limit : Nat)
    {actions : List Action} (tends : ∀ action ∈ actions, action.Tends)
    (known : pass ∈ (({ ofSystem system with rootLimit := limit } : Compiler).runAll
      actions).course) : pass.context.Growing ∧ Apart pass.session.roots := by
  have began : (growing system.current fun _ _ => True).Holds
      { ofSystem system with rootLimit := limit } :=
    ⟨⟨sorted, rfl⟩, fun _ _ known => (by cases known), fun _ same => (by cases same)⟩
  have holds := (Regime.lives_history (lasting_growing system.current)
    (fun action member => (tends action member).allows _) began fun _ _ => trivial).1
  obtain ⟨target, _, good, spread, _⟩ := Regime.within_course_of_made
    (lasting_growing system.current).toLawful
    (Regime.preserves_ensureContexts (lasting_growing system.current) _ holds)
    (fun _ _ => trivial) pass known
  exact ⟨good.withRoots pass.context.roots, spread.apart⟩

/-- What happened to the cache before a pass began, and what holds of its context. -/
theorem evolves_course (keeping : Keeping Evolves A C) (holds : compiler.Holds A C)
    (split : compiler.course = before ++ pass :: behind) :
    Evolves compiler.cache (before.flatMap (·.events)) pass.session.cache ∧
      ∃ target, C target pass.context := by
  unfold course at split
  rw [run_bind] at split
  have ensured := accounts_ensureContexts keeping compiler holds
  have kept := Holds.preserves_ensureContexts keeping.toGoverns compiler holds
  cases made : ensureContexts compiler with
  | error failure next => simp [made] at split
  | ok _ ready =>
    rw [made] at split ensured kept
    dsimp only at split
    rw [run_setup] at split
    cases configured : ready.setup? with
    | none => simp [configured] at split
    | some setup =>
      rw [configured] at split
      obtain ⟨passes, good⟩ := evolves_courseOver keeping kept split
      exact ⟨ensured.append passes, good⟩

end Compiler

end Recast.Build
