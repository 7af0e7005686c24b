import Recast.Proofs.Build.Regime

/-! # The course of a compilation

To compile is to run one pass for each active target. A pass is given here together with the session
in which it began, so that what a regime says of sessions is known of every pass of a life
(`Regime.within_course`). The result of `compile` is that of its passes, and so are its events.
-/

namespace Recast.Build

open Recast.Emit

/-- The compilation that an event stands for. -/
def Event.compilation? : Event → Option Compilation
  | compiled compilation => some compilation
  | evicted _ | cleared => none

/-- A pass over the root files of a target: the session in which it began, and how many root files
callbacks may add. -/
structure Pass where
  context : Context
  session : Session
  limit : Nat

namespace Pass

def result (pass : Pass) : EStateM.Result Failure Session PassResult :=
  pass.context.compileAll pass.limit false pass.session

/-- The root files behind a pass. -/
def roots (pass : Pass) : List Path :=
  (endState pass.result).roots

/-- What a pass gives; one that failed gives nothing. -/
def answer (pass : Pass) : PassResult :=
  match pass.result with
  | .ok result _ => result
  | .error _ _ => {}

/-- The diagnostics of a pass; one that failed has none. -/
def diagnostics (pass : Pass) : List Diagnostic :=
  match pass.result with
  | .ok result _ => result.diagnostics
  | .error _ _ => []

def events (pass : Pass) : List Event :=
  pass.context.rootEvents (pass.context.compileFile · false) false
    (pass.session.roots.length + pass.limit) 0 pass.session

/-- The compilations of a pass, in order. -/
def compilations (pass : Pass) : List Compilation :=
  pass.events.filterMap Event.compilation?

end Pass

namespace Compilation

/-- The diagnostics that a compilation gives; one that failed has none. -/
def told (compilation : Compilation) : List Diagnostic :=
  match compilation.result with
  | .ok emission _ => emission.diagnostics
  | .error _ _ => []

end Compilation

namespace Context

variable (context : Context) {compileRoot : Path → Step Emission} {force : Bool}

/-- Nothing but compilations happens to the cache in a pass. -/
theorem rootEvents_eq_map (fuel index : Nat) (session : Session) :
    context.rootEvents compileRoot force fuel index session =
      ((context.rootEvents compileRoot force fuel index session).filterMap
        Event.compilation?).map .compiled := by
  induction fuel generalizing index session with
  | zero =>
    rw [rootEvents_zero]
    rfl
  | succ fuel ih =>
    cases found : session.roots[index]? with
    | none =>
      rw [rootEvents_of_end found]
      rfl
    | some path =>
      rw [rootEvents_succ found]
      refine congrArg (Event.compiled ⟨context, path, force, session⟩ :: ·) ?_
      cases compileRoot path session with
      | error failure next => rfl
      | ok emission next => exact ih (index + 1) next

/-- What is known of the compilations of root files, from an index on, that all came to an end. -/
structure Compiles (index : Nat) (before : Progress) (session : Session)
    (compilations : List Compilation) (after : Progress) (later : Session) : Prop where
  compiled : after.compiled = before.compiled ++ compilations.map (·.path)
  diagnostics : after.result.diagnostics =
    before.result.diagnostics ++ compilations.flatMap (·.told)
  roots : later.roots.drop index = compilations.map (·.path)
  grown : session.roots <+: later.roots
  each : ∀ compilation ∈ compilations, compilation.context = context ∧
    compilation.force = false ∧
      ∃ emission next, compilation.result = .ok emission next

variable {context}

private theorem compiles_nil {index : Nat} {session : Session}
    (found : session.roots[index]? = none) (progress : Progress) :
    context.Compiles index progress session [] progress session :=
  ⟨(List.append_nil _).symm, (List.append_nil _).symm,
    List.drop_eq_nil_of_le (List.getElem?_eq_none_iff.mp found), List.prefix_refl _, by simp⟩

/-- Root files that were compiled up to the end of their list, while callbacks only added to it. -/
theorem compiles_of_run {fuel index : Nat} {before after : Progress} {session later : Session}
    (grows : ∀ compilation, .compiled compilation ∈
      context.rootEvents (context.compileFile · false) false fuel index session →
        compilation.session.roots <+: compilation.after.roots)
    (ran : context.compileRootsFrom (context.compileFile · false) fuel index before session =
      .ok after later) :
    context.Compiles index before session
      ((context.rootEvents (context.compileFile · false) false fuel index session).filterMap
        Event.compilation?) after later := by
  induction fuel, index, before, session, ran using compileRootsFrom_induction with
  | ended short =>
    rw [rootEvents_of_end short]
    exact compiles_nil short _
  | @compiled fuel index before session path emission next found compiled _ ih =>
    rw [rootEvents_of_compiled found compiled] at grows ⊢
    let here : Compilation := ⟨context, path, false, session⟩
    have result : here.result = .ok emission next := compiled
    have wider : session.roots <+: next.roots := by
      have grown := grows here (List.mem_cons_self ..)
      unfold Compilation.after at grown
      rwa [result] at grown
    have passed := ih fun compilation member =>
      grows compilation (List.mem_cons_of_mem _ member)
    have told : here.told = emission.diagnostics := by
      unfold Compilation.told
      rw [result]
    have known : later.roots[index]? = some path := by
      obtain ⟨inside, _⟩ := List.getElem?_eq_some_iff.mp found
      obtain ⟨more, whole⟩ := wider.trans passed.grown
      rw [← whole, List.getElem?_append_left inside, found]
    obtain ⟨inside, same⟩ := List.getElem?_eq_some_iff.mp known
    refine ⟨?_, ?_, ?_, wider.trans passed.grown, fun compilation member => ?_⟩
    · rw [passed.compiled]
      simp [Progress.add, Event.compilation?]
    · rw [passed.diagnostics]
      simp [Progress.add, PassResult.add, Event.compilation?, ← told, here]
    · rw [List.drop_eq_getElem_cons inside, same, passed.roots]
      simp [Event.compilation?]
    · rcases List.mem_cons.mp member with rfl | later
      · exact ⟨rfl, rfl, emission, next, result⟩
      · exact passed.each compilation later

end Context

namespace Pass

theorem diagnostics_eq (pass : Pass) : pass.diagnostics = pass.answer.diagnostics := by
  unfold diagnostics answer
  cases pass.result <;> rfl

/-- The results of some passes, one behind the other. -/
def merged (passes : List Pass) : PassResult :=
  passes.foldl (fun result pass => result.merge pass.answer) {}

private theorem foldl_merge (passes : List Pass) (before : PassResult) :
    passes.foldl (fun result pass => result.merge pass.answer) before =
      before.merge (merged passes) := by
  induction passes generalizing before with
  | nil => simp [merged, PassResult.merge]
  | cons pass passes ih =>
    rw [merged, List.foldl_cons, List.foldl_cons, ih, ih (({} : PassResult).merge _),
      PassResult.empty_merge, PassResult.merge_assoc]

theorem merged_cons (pass : Pass) (passes : List Pass) :
    merged (pass :: passes) = pass.answer.merge (merged passes) := by
  rw [merged, List.foldl_cons, foldl_merge, PassResult.empty_merge]

theorem diagnostics_merged (passes : List Pass) :
    (merged passes).diagnostics = passes.flatMap (·.diagnostics) := by
  induction passes with
  | nil => rfl
  | cons pass passes ih =>
    rw [merged_cons, List.flatMap_cons, pass.diagnostics_eq, ← ih]
    rfl

theorem skipped_merged (passes : List Pass) :
    (merged passes).skipped = passes.any (·.answer.skipped) := by
  induction passes with
  | nil => rfl
  | cons pass passes ih =>
    rw [merged_cons, List.any_cons, ← ih]
    rfl

theorem events_eq (pass : Pass) : pass.events = pass.compilations.map .compiled :=
  pass.context.rootEvents_eq_map _ _ _

theorem mem_compilations {pass : Pass} {compilation : Compilation} :
    compilation ∈ pass.compilations ↔ .compiled compilation ∈ pass.events := by
  rw [events_eq]
  simp

/-- Where every root file is compiled once, its entry is left as its compilation left it. -/
theorem find?_eq_after {pass : Pass} {last : Cache}
    (evolves : Evolves pass.session.cache pass.events last)
    (once : (pass.compilations.map (·.path)).Pairwise fun a b => b.same a = false)
    {compilation : Compilation} (member : compilation ∈ pass.compilations) :
    last.find? compilation.key = compilation.after.cache.find? compilation.key := by
  obtain ⟨past, behind, split⟩ := List.append_of_mem member
  rw [split, List.map_append, List.map_cons] at once
  rw [events_eq, split, List.map_append, List.map_cons] at evolves
  have others : ∀ event ∈ behind.map Event.compiled, event.compiles compilation.key = false := by
    intro event known
    obtain ⟨other, listed, rfl⟩ := List.mem_map.mp known
    have differ := (List.pairwise_cons.mp (List.pairwise_append.mp once).2.1).1 other.path
      (List.mem_map_of_mem listed)
    rw [Event.compiles, Bool.eq_false_iff]
    intro alike
    have same : other.path.same compilation.path = true :=
      Path.same_symm (CacheKey.same_iff.mp alike).1
    rw [same] at differ
    cases differ
  have none : (behind.map Event.compiled).any (·.forgets compilation.key) = false := by
    simp [Event.forgets]
  have kept := evolves.compiled.2.2.find?_eq others
  rwa [none, if_neg Bool.false_ne_true] at kept

end Pass

namespace Compiler

/-- The pass over the root files of a target, if it has a context. -/
def pass? (compiler : Compiler) (target : String) : Option Pass :=
  (compiler.context? target).map fun context =>
    ⟨context, ⟨compiler.workspace, context.roots⟩, compiler.rootLimit⟩

/-- The passes of `compileTarget` for one target after the other, up to the first that fails. -/
def courseOver : List String → Compiler → List Pass
  | [], _ => []
  | target :: targets, compiler =>
    (compiler.pass? target).toList ++
      match compileTarget target false compiler with
      | .ok _ next => courseOver targets next
      | .error _ _ => []

/-- The passes of `compile`. -/
def course (compiler : Compiler) : List Pass :=
  match (do ensureContexts; setup : Compiling Setup) compiler with
  | .ok setup compiler => courseOver setup.activeTargets compiler
  | .error _ _ => []

variable {compiler : Compiler} {target : String}

theorem run_compileTarget (target : String) (compiler : Compiler) :
    compileTarget target false compiler =
      match compiler.pass? target with
      | none => .error (.missingContext target) compiler
      | some pass =>
        match pass.result with
        | .ok result session => .ok result (compiler.absorb target session)
        | .error failure session => .error failure (compiler.absorb target session) := by
  unfold compileTarget pass?
  rw [run_bind_ok (run_get compiler), run_inContext]
  cases compiler.context? target with
  | none => rfl
  | some context =>
    dsimp only [Option.map_some, Pass.result]
    cases context.compileAll compiler.rootLimit false ⟨compiler.workspace, context.roots⟩ <;> rfl

theorem targetEvents_eq (target : String) (compiler : Compiler) :
    compiler.targetEvents target false = (compiler.pass? target).toList.flatMap (·.events) := by
  unfold targetEvents eventsInContext pass?
  cases compiler.context? target with
  | none => rfl
  | some context => exact (List.append_nil _).symm

theorem passEvents_eq (targets : List String) (compiler : Compiler) :
    passEvents false targets compiler = (courseOver targets compiler).flatMap (·.events) := by
  induction targets generalizing compiler with
  | nil => rfl
  | cons target targets ih =>
    unfold passEvents courseOver
    rw [List.flatMap_append, targetEvents_eq]
    cases compileTarget target false compiler with
    | ok result next => exact congrArg _ (ih next)
    | error failure next => rfl

/-- What happens to the cache when a compiler compiles is what happens in its passes. -/
theorem compileEvents_eq (compiler : Compiler) :
    compiler.compileEvents = compiler.course.flatMap (·.events) := by
  unfold compileEvents course
  rw [run_bind]
  cases ensureContexts compiler with
  | error failure next => rfl
  | ok _ next =>
    dsimp only [eventsBehind]
    cases setup next with
    | error failure last => rfl
    | ok setup last => exact passEvents_eq setup.activeTargets last

/-- A compiler that goes from target to target puts the results of the passes together. -/
private theorem result_courseOver {targets : List String} {before result : PassResult}
    {next : Compiler} (ran : passes targets before compiler = .ok result next) :
    result = (courseOver targets compiler).foldl (fun result pass => result.merge pass.answer)
        before ∧
      ∀ pass ∈ courseOver targets compiler, ∃ session, pass.result = .ok pass.answer session := by
  induction targets generalizing before compiler with
  | nil =>
    cases ran
    exact ⟨rfl, by simp [courseOver]⟩
  | cons target targets ih =>
    obtain ⟨own, middle, compiled, rest⟩ := exists_of_passes_cons_eq_ok ran
    obtain ⟨made, came⟩ := ih rest
    unfold courseOver
    rw [compiled]
    rw [run_compileTarget] at compiled
    cases known : compiler.pass? target with
    | none =>
      rw [known] at compiled
      cases compiled
    | some pass =>
      rw [known] at compiled
      dsimp only at compiled
      cases passed : pass.result with
      | error failure session =>
        rw [passed] at compiled
        cases compiled
      | ok own' session =>
        rw [passed] at compiled
        cases compiled
        have here : pass.answer = own := by
          unfold Pass.answer
          rw [passed]
        refine ⟨?_, fun other member => ?_⟩
        · rw [made, Option.toList_some, List.singleton_append, List.foldl_cons, here]
        · rcases List.mem_cons.mp member with rfl | later
          · exact ⟨session, here ▸ passed⟩
          · exact came other later

/-- To compile is to make the contexts that are missing and to run the passes, one after the
other. -/
theorem exists_of_compile {result : PassResult} {next : Compiler}
    (ran : compile compiler = .ok result next) :
    ∃ options ready, ensureContexts compiler = .ok () ready ∧ ready.setup? = some options ∧
      compiler.course = courseOver options.activeTargets ready ∧
      passes options.activeTargets {} ready = .ok result next ∧
      result = Pass.merged compiler.course ∧
      ∀ pass ∈ compiler.course, ∃ session, pass.result = .ok pass.answer session := by
  obtain ⟨options, ready, ensured, configured, passed⟩ := exists_of_compile_eq_ok ran
  obtain ⟨whole, came⟩ := result_courseOver passed
  have course : compiler.course = courseOver options.activeTargets ready := by
    unfold course
    rw [run_bind_ok ensured, run_setup_of_eq configured]
  rw [course]
  exact ⟨options, ready, ensured, configured, rfl, passed, whole, came⟩

/-- The diagnostics of a compiler that compiles are those of its passes, one after the other. -/
theorem diagnostics_of_compile {result : PassResult} {next : Compiler}
    (ran : compile compiler = .ok result next) :
    result.diagnostics = compiler.course.flatMap (·.diagnostics) ∧
      ∀ pass ∈ compiler.course, ∃ own session, pass.result = .ok own session := by
  obtain ⟨_, _, _, _, _, _, whole, came⟩ := exists_of_compile ran
  refine ⟨?_, fun pass member => ⟨pass.answer, came pass member⟩⟩
  rw [whole]
  exact Pass.diagnostics_merged compiler.course

end Compiler

namespace Regime

open Compiler

variable {regime : Regime} {compiler : Compiler}

private theorem within_courseOver (lawful : regime.Lawful) (targets : List String)
    (holds : regime.Holds compiler)
    (admitted : ∀ event ∈ passEvents false targets compiler, regime.admits event) :
    ∀ pass ∈ courseOver targets compiler,
      ∃ target, regime.Within target pass.context pass.session := by
  induction targets generalizing compiler with
  | nil => simp [courseOver]
  | cons target targets ih =>
    unfold courseOver
    unfold passEvents at admitted
    have kept := (lives_compileTarget lawful target false compiler holds fun event member =>
      admitted event (List.mem_append_left _ member)).1
    intro pass member
    rcases List.mem_append.mp member with here | later
    · obtain ⟨context, known, rfl⟩ := Option.map_eq_some_iff.mp (Option.mem_toList.mp here)
      exact ⟨target, holds.within known⟩
    · cases ran : compileTarget target false compiler with
      | error failure next =>
        rw [ran] at later
        cases later
      | ok result next =>
        rw [ran] at kept later
        refine ih kept (fun event known => admitted event (List.mem_append_right _ ?_)) pass later
        rw [ran]
        exact known

/-- Every pass of a compiler begins in a regime that holds once the contexts are made. -/
theorem within_course_of_made (lawful : regime.Lawful)
    (made : regime.Holds (endState compiler.ensureContexts))
    (admitted : ∀ event ∈ compiler.compileEvents, regime.admits event) :
    ∀ pass ∈ compiler.course, ∃ target, regime.Within target pass.context pass.session := by
  unfold compileEvents at admitted
  unfold course
  rw [run_bind]
  cases ensured : ensureContexts compiler with
  | error failure next => simp
  | ok _ next =>
    rw [ensured] at admitted made
    dsimp only [eventsBehind, endState] at admitted made ⊢
    have kept := preserves_setup next made
    cases configured : setup next with
    | error failure last => simp
    | ok setup last =>
      rw [configured] at admitted kept
      exact within_courseOver lawful setup.activeTargets kept admitted

/-- Every pass of a compiler in a regime begins in the regime. -/
theorem within_course (founded : regime.Founded) (holds : regime.Holds compiler)
    (admitted : ∀ event ∈ compiler.compileEvents, regime.admits event) :
    ∀ pass ∈ compiler.course, ∃ target, regime.Within target pass.context pass.session :=
  within_course_of_made founded.toLawful (preserves_ensureContexts founded.lasting compiler holds)
    admitted

end Regime

/-- What happens in one life and then in another that goes on from it. -/
theorem history_append (actions more : List Action) (compiler : Compiler) :
    history (actions ++ more) compiler =
      history actions compiler ++ history more (compiler.runAll actions) := by
  induction actions generalizing compiler with
  | nil => rfl
  | cons action actions ih =>
    change action.events compiler ++ history (actions ++ more) (action.run compiler) = _
    rw [ih]
    exact (List.append_assoc ..).symm

theorem history_compile (actions : List Action) (compiler : Compiler) :
    history (actions ++ [.compile]) compiler =
      history actions compiler ++ (compiler.runAll actions).compileEvents := by
  rw [history_append]
  exact congrArg _ (List.append_nil _)

/-- The passes of a compiler that compiles at the end of its life belong to this life. -/
theorem mem_history_of_mem_course {actions : List Action} {compiler : Compiler} {pass : Pass}
    (member : pass ∈ (compiler.runAll actions).course) {compilation : Compilation}
    (known : compilation ∈ pass.compilations) :
    .compiled compilation ∈ history (actions ++ [.compile]) compiler := by
  rw [history_compile, Compiler.compileEvents_eq]
  exact List.mem_append_right _
    (List.mem_flatMap.mpr ⟨pass, member, Pass.mem_compilations.mp known⟩)

end Recast.Build
