import Recast.Proofs.Build.Epoch
import Recast.Proofs.Addons.Callbacks
import Recast.Proofs.Build.Failing
import Recast.Proofs.Build.Passes

/-! # When a build is skipped

A file lacks outputs only because of an error, or because nothing is to be emitted for its target
(`Excused`). In the second case the cache never answers for it, so that every pass skips it again.
Hence a build is skipped exactly if its result has an error, or if a target for which nothing is to
be emitted has a root file (`skipped_iff_anyError_or_noEmit`).
-/

namespace Recast.Build

open Recast.Emit

/-! ## Files -/

/-- Something has no output only because of an error, or because nothing is to be emitted. -/
def Excused (noEmit skipped : Bool) (diagnostics : List Diagnostic) : Prop :=
  skipped = true → noEmit = true ∨ Diagnostic.anyError diagnostics = true

theorem excused_transpileFile {path : Path} {text : String} {options : Options} {root : Path}
    {transformers : TransformerSet} {emission : Emission} {journal later : Journal}
    (ran : transpileFile path text options root transformers journal = .ok emission later) :
    Excused options.wantsNoEmit emission.skipped emission.diagnostics := by
  unfold transpileFile at ran
  intro skipped
  cases none : options.wantsNoEmit with
  | true => exact .inl rfl
  | false =>
    simp only [none, Bool.false_eq_true, ↓reduceIte] at ran
    split at ran
    · cases ran
      cases skipped
    · obtain ⟨output, middle, _, ended⟩ := exists_of_bind_eq_ok ran
      split at ended
      · next faulty =>
        cases ended
        exact .inr faulty
      · cases ended
        cases skipped

theorem excused_emit {service : Service} {host : Host} (asked : service.host? = some host)
    {path : Path} {emission : Emission} {journal later : Journal}
    (ran : (service.emit path).1 journal = .ok emission later) :
    Excused host.options.wantsNoEmit emission.skipped emission.diagnostics := by
  unfold Service.emit at ran
  rw [asked] at ran
  intro skipped
  cases none : host.options.wantsNoEmit with
  | true => exact .inl rfl
  | false =>
    dsimp only at ran
    cases known : host.text? path with
    | none =>
      rw [known] at ran
      cases ran
      exact .inr rfl
    | some text =>
      rw [known] at ran
      simp only [none, Bool.false_eq_true, ↓reduceIte] at ran
      split at ran
      · cases ran
        cases skipped
      · split at ran
        · next faulty =>
          cases ran
          exact .inr faulty
        · obtain ⟨tree, middle, _, ended⟩ := exists_of_bind_eq_ok ran
          cases ended
          cases skipped

namespace Context

variable {context : Context} {path : Path} {session later : Session} {emission : Emission}

theorem excused_emitFile {text : String}
    (ran : context.emitFile path text session = .ok emission later) :
    Excused context.options.wantsNoEmit emission.skipped emission.diagnostics := by
  unfold emitFile at ran
  split at ran
  · obtain ⟨_, made⟩ := Step.exists_of_journaled_eq_ok ran
    exact excused_transpileFile made
  · unfold emitChecked at ran
    rw [run_bind_ok (context.run_installHost session), run_bind_ok (Step.run_workspace _)] at ran
    obtain ⟨_, middle, _, emitted⟩ := exists_of_bind_eq_ok ran
    obtain ⟨_, made⟩ := Step.exists_of_journaled_eq_ok emitted
    let service := session.workspace.service.setHost (context.host session)
    exact excused_emit (show service.host? = some (context.host session) from rfl) made

theorem excused_settle {settled : Emission}
    (excused : Excused context.options.wantsNoEmit emission.skipped emission.diagnostics)
    (ran : context.settle path emission session = .ok settled later) :
    Excused context.options.wantsNoEmit settled.skipped settled.diagnostics := by
  cases lacks : lacksOutput emission with
  | true =>
    rw [run_settle_of_lacksOutput lacks] at ran
    cases ran
    intro _
    rcases (Bool.or_eq_true _ _).mp lacks with skipped | faulty
    · exact excused skipped
    · exact .inr faulty
  | false =>
    rw [run_settle_of_not_lacksOutput lacks] at ran
    obtain ⟨_, middle, _, ended⟩ := exists_of_bind_eq_ok ran
    cases ended
    exact nofun

theorem excused_recompile (ran : context.recompile path session = .ok emission later) :
    Excused context.options.wantsNoEmit emission.skipped emission.diagnostics := by
  rw [run_recompile] at ran
  cases read : session.workspace.system.read path with
  | error error =>
    rw [read] at ran
    cases ran
    exact fun _ => .inr rfl
  | ok source =>
    rw [read] at ran
    dsimp only at ran
    rw [compileSource_eq] at ran
    obtain ⟨text, prepared, _, ran⟩ := exists_of_bind_eq_ok ran
    obtain ⟨_, recorded, _, ran⟩ := exists_of_bind_eq_ok ran
    obtain ⟨emitted, middle, emits, settles⟩ := exists_of_bind_eq_ok ran
    exact excused_settle (excused_emitFile emits) settles

/-- A file has no output only because of an error, or because nothing is to be emitted. -/
theorem excused_compileFile {force : Bool}
    (ran : context.compileFile path force session = .ok emission later) :
    Excused context.options.wantsNoEmit emission.skipped emission.diagnostics := by
  cases force with
  | true =>
    rw [run_compileFile_force] at ran
    exact excused_recompile ran
  | false =>
    rw [run_compileFile] at ran
    split at ran
    · exact excused_recompile ran
    · cases ran
      exact nofun

end Context

/-- What the cache knows of a file under a target does not answer for it, whatever its text. -/
def Cache.Unanswered (cache : Cache) (key : CacheKey) : Prop :=
  ∀ entry, cache.find? key = some entry → entry.isSettled = false

section Silence

variable {context : Context} {path : Path} {session : Session}

/-- Where nothing is to be emitted, a text that was recorded is not looked at. -/
theorem run_emitFile_of_noEmit (silent : context.options.wantsNoEmit = true)
    (source text : String) :
    ∃ last, context.emitFile path text
      (session.mapCache (·.update path context.target source text)) =
        .ok { skipped := true } last := by
  generalize started : session.mapCache (·.update path context.target source text) = recorded
  unfold Context.emitFile
  cases context.transpileOnly with
  | true =>
    refine ⟨recorded, ?_⟩
    simp only [↓reduceIte, transpileFile, silent]
    rfl
  | false =>
    let service := recorded.workspace.service.setHost (context.host recorded)
    have asked : (context.host recorded).text? path = some text := by
      subst started
      change (((Cache.update _ _ _ _ _).find? ⟨path, context.target⟩).getD {}).snapshot = _
      rw [Cache.find?_update, CacheKey.same_self, if_pos rfl]
      exact CacheEntry.update_snapshot ..
    have emitted : service.emit path = (pure { skipped := true }, service) := by
      have installed : service.host? = some (context.host recorded) := rfl
      unfold Service.emit
      rw [installed]
      dsimp only
      rw [asked]
      exact if_pos silent
    refine ⟨recorded.withService service, ?_⟩
    simp only [Bool.false_eq_true, ↓reduceIte]
    unfold Context.emitChecked
    rw [run_bind_ok (context.run_installHost recorded), run_bind_ok (Step.run_workspace _)]
    dsimp only [Session.withService]
    rw [emitted]
    rfl

namespace Compilation

variable {compilation : Compilation} (silent : compilation.context.options.wantsNoEmit = true)
  (unanswered : compilation.session.cache.Unanswered compilation.key)
include silent unanswered

/-- Where nothing is to be emitted, a compilation that is not answered by the cache has no
output. -/
theorem outcome_of_noEmit :
    compilation.outcome = .unreadable ∨ compilation.outcome = .refused ∨
      compilation.outcome = .skipped := by
  have came := compilation.came
  cases outcome : compilation.outcome with
  | unreadable => exact .inl rfl
  | refused => exact .inr (.inl rfl)
  | skipped => exact .inr (.inr rfl)
  | served =>
    obtain ⟨_, entry, known, settled, _⟩ :=
      compilation.isServed_iff.mp (compilation.outcome_eq_served_iff.mp outcome)
    rw [unanswered entry known] at settled
    cases settled
  | broken =>
    rw [outcome] at came
    cases came with
    | broken _ _ _ emission _ =>
      obtain ⟨last, emitted⟩ := run_emitFile_of_noEmit silent _ _
      rw [emitted] at emission
      cases emission
  | emitted =>
    rw [outcome] at came
    cases came with
    | emitted _ _ _ emission counts _ =>
      obtain ⟨last, emitted⟩ := run_emitFile_of_noEmit silent _ _
      rw [emitted] at emission
      cases emission
      cases counts

theorem skipped_of_noEmit {emission : Emission} {later : Session}
    (ran : compilation.result = .ok emission later) : emission.skipped = true := by
  have came := compilation.came
  rcases outcome_of_noEmit silent unanswered with unreadable | refused | skipped
  · rw [unreadable] at came
    cases came with
    | unreadable _ _ answer =>
      rw [answer] at ran
      cases ran
      rfl
  · rw [refused] at came
    cases came with
    | refused _ _ _ answer =>
      rw [answer] at ran
      cases ran
  · rw [skipped] at came
    cases came with
    | skipped _ _ _ _ answer =>
      rw [answer] at ran
      cases ran
      rfl

/-- So what the cache knows of it still does not answer. -/
theorem unanswered_after (keeps : compilation.context.KeepsCache) :
    compilation.after.cache.Unanswered compilation.key := by
  have started : compilation.started.cache.Unanswered compilation.key := by
    intro entry known
    rw [find?_started] at known
    cases forced : compilation.force with
    | true =>
      rw [forced] at known
      obtain ⟨old, _, rfl⟩ := Option.map_eq_some_iff.mp known
      rfl
    | false =>
      rw [forced] at known
      exact unanswered entry known
  intro entry known
  rcases outcome_of_noEmit silent unanswered with unreadable | refused | skipped
  · rw [find?_after_of_unrecorded keeps (.inl unreadable)] at known
    exact started entry known
  · rw [find?_after_of_unrecorded keeps (.inr refused)] at known
    exact started entry known
  · obtain ⟨marked, found, failed⟩ := find?_after_of_skipped keeps skipped
    rw [known] at found
    cases found
    rw [CacheEntry.isSettled, failed, Bool.not_true, Bool.and_false]

end Compilation

end Silence

/-! ## Passes -/

namespace Excused

variable {noEmit : Bool} {result : PassResult} {emission : Emission}

theorem add (before : Excused noEmit result.skipped result.diagnostics)
    (here : Excused noEmit emission.skipped emission.diagnostics) :
    Excused noEmit (result.add emission).skipped (result.add emission).diagnostics := by
  intro skipped
  rw [PassResult.add, Scene.anyError_append]
  rcases (Bool.or_eq_true _ _).mp skipped with earlier | now
  · exact (before earlier).imp_right fun faulty => by rw [faulty, Bool.true_or]
  · exact (here now).imp_right fun faulty => by rw [faulty, Bool.or_true]

end Excused

namespace Context

variable {context : Context} {session later : Session}

/-- Files that are compiled one after the other lack outputs only because of errors, or because
nothing is to be emitted; and what was skipped stays skipped. -/
theorem excused_compileRootsFrom {force : Bool} {fuel index : Nat} {before after : Progress}
    (ran : context.compileRootsFrom (context.compileFile · force) fuel index before session =
      .ok after later) :
    (before.result.skipped = true → after.result.skipped = true) ∧
      (Excused context.options.wantsNoEmit before.result.skipped before.result.diagnostics →
        Excused context.options.wantsNoEmit after.result.skipped after.result.diagnostics) := by
  induction fuel, index, before, session, ran using compileRootsFrom_induction with
  | ended => exact ⟨id, id⟩
  | compiled _ compiled _ ih =>
    obtain ⟨kept, excused⟩ := ih
    refine ⟨fun skipped => kept ?_, fun before => excused (before.add
      (excused_compileFile compiled))⟩
    rw [Progress.add, PassResult.add, skipped, Bool.true_or]

/-- The end of a pass adds diagnostics, and a result with an error is skipped. -/
theorem exists_of_finish {progress : Progress} {result : PassResult}
    (ran : context.finish progress session = .ok result later) :
    (Diagnostic.anyError progress.result.diagnostics = true →
      Diagnostic.anyError result.diagnostics = true) ∧
      result.skipped = (progress.result.skipped || Diagnostic.anyError result.diagnostics) := by
  obtain ⟨diagnostics, rfl, same | ⟨middle, last, gathered⟩⟩ := exists_of_finish_eq_ok ran
  · exact ⟨fun faulty => same ▸ faulty, rfl⟩
  · refine ⟨fun faulty => ?_, rfl⟩
    unfold collectDiagnostics at gathered
    rw [run_bind_ok (context.run_installHost _), run_bind_ok (Step.run_workspace _)] at gathered
    obtain ⟨_, _, _, ended⟩ := exists_of_bind_eq_ok gathered
    cases ended
    rw [Scene.anyError_distinct, Scene.anyError_append, faulty, Bool.or_true]

end Context

namespace Pass

variable {pass : Pass} {last : Session}

/-- A pass is skipped exactly if it has an error, or if nothing is to be emitted for a target that
has a root file. -/
theorem skipped_iff (ran : pass.result = .ok pass.answer last)
    (unanswered : pass.context.options.wantsNoEmit = true →
      ∀ path, pass.session.cache.Unanswered ⟨path, pass.context.target⟩) :
    pass.answer.skipped = true ↔ Diagnostic.anyError pass.diagnostics = true ∨
      pass.context.options.wantsNoEmit = true ∧ pass.session.roots ≠ [] := by
  rw [diagnostics_eq]
  unfold result Context.compileAll at ran
  rw [run_bind_ok (run_get pass.session)] at ran
  obtain ⟨progress, middle, compiled, finished⟩ := exists_of_bind_eq_ok ran
  obtain ⟨faulty, skipped⟩ := Context.exists_of_finish finished
  obtain ⟨kept, excused⟩ := Context.excused_compileRootsFrom compiled
  constructor
  · intro whole
    rw [skipped] at whole
    rcases (Bool.or_eq_true _ _).mp whole with lacks | error
    · rcases excused nofun lacks with silent | error
      · refine .inr ⟨silent, fun none => ?_⟩
        have short : pass.session.roots[0]? = .none := by rw [none, List.getElem?_nil]
        cases (Context.run_compileRootsFrom_of_end short).symm.trans compiled
        cases lacks
      · exact .inl (faulty error)
    · exact .inl error
  · rintro (error | ⟨silent, some⟩)
    · rw [skipped, error, Bool.or_true]
    · obtain ⟨path, rest, roots⟩ := List.exists_cons_of_ne_nil some
      have first : pass.session.roots[0]? = .some path := by rw [roots]; rfl
      have fuel : pass.session.roots.length + pass.limit = rest.length + pass.limit + 1 := by
        rw [roots, List.length_cons]
        omega
      rw [fuel, Context.run_compileRootsFrom_succ first] at compiled
      obtain ⟨emission, next, here, others⟩ := exists_of_bind_eq_ok compiled
      let compilation : Compilation := ⟨pass.context, path, false, pass.session⟩
      have lacks : emission.skipped = true :=
        Compilation.skipped_of_noEmit silent (unanswered silent path)
          (show compilation.result = .ok emission next from here)
      rw [skipped, (Context.excused_compileRootsFrom others).1 (by
        rw [Context.Progress.add, PassResult.add, lacks, Bool.or_true]), Bool.true_or]

end Pass

/-! ## Lives -/

/-- Whether nothing is to be emitted for a target: it says so, or the project does and the target
says nothing about it. -/
def Setup.wantsNoEmit (setup : Setup) (target : String) : Bool :=
  (setup.options.overlaid (setup.settings target).options).wantsNoEmit

/-- An addon that leaves the scope of a target as it is, and whose callbacks leave the cache
alone. -/
structure Addon.Steady (addon : Addon) : Prop extends addon.KeepsCache where
  scope : Leaves (fun activation : Activation => activation.context.toScope) addon.activate

namespace Setup

/-- Under options, contexts are those of their targets, and the cache answers for no file of a
target for which nothing is to be emitted. -/
def silencing (setup : Setup) : Regime where
  workspace workspace := ∀ key, setup.wantsNoEmit key.target = true →
    workspace.cache.Unanswered key
  context target context := context.target = target ∧ context.KeepsCache ∧
    context.options.wantsNoEmit = setup.wantsNoEmit target
  addon := Addon.Steady

variable {setup : Setup} {target : String} {context : Context}

private theorem within_of_cache {session later : Session}
    (within : setup.silencing.Within target context session)
    (same : later.cache = session.cache) : setup.silencing.Within target context later := by
  refine ⟨fun key silent => ?_, within.context.1, within.context.2.1.withRoots _,
    within.context.2.2⟩
  rw [show later.workspace.cache = session.workspace.cache from same]
  exact within.workspace key silent

private theorem within_compileFile {session : Session}
    (within : setup.silencing.Within target context session) (path : Path) (force : Bool) :
    setup.silencing.Within target context
      (endState (context.compileFile path force session)) := by
  obtain ⟨named, keeps, options⟩ := within.context
  have keeps : context.KeepsCache := keeps.withRoots context.roots
  let compilation : Compilation := ⟨context, path, force, session⟩
  refine ⟨fun key silent => ?_, named, keeps.withRoots _, options⟩
  intro entry known
  cases about : key.same compilation.key with
  | false =>
    have left := Context.leaves_find?_compileFile about keeps force session
    exact within.workspace key silent entry (left.symm.trans known)
  | true =>
    have same : key.target = target := (CacheKey.same_iff.mp about).2.trans named
    have silent' : context.options.wantsNoEmit = true := by
      rw [same] at silent
      exact Eq.trans options silent
    have before : compilation.session.cache.Unanswered compilation.key := by
      intro entry known
      rw [← Cache.find?_congr _ about] at known
      exact within.workspace key silent entry known
    rw [Cache.find?_congr _ about] at known
    exact Compilation.unanswered_after silent' before keeps entry known

theorem grounds_silencing (setup : Setup) : setup.silencing.Grounds setup where
  compiled target context path force _ session within _ :=
    ⟨within_compileFile within path force, fun _ _ => trivial, fun _ _ _ => trivial⟩
  finished target context progress _ session within := by
    have keeps : context.KeepsCache := within.context.2.1.withRoots context.roots
    exact within_of_cache within (Context.leaves_cache_finish keeps progress session)
  roots _ _ _ _ _ := trivial
  resolved _ _ := trivial
  evicted workspace gone kept := by
    refine ⟨fun key silent entry known => ?_, trivial⟩
    rw [Cache.find?_remove] at known
    split at known
    · cases known
    · exact kept key silent entry known
  watched workspace path _ kept key silent := by
    rw [cache_watchRoot]
    exact kept key silent
  told _ _ _ kept := kept
  bare workspace target roots _ _ :=
    ⟨rfl, governs_keepsCache.bare setup workspace.system target roots, rfl⟩
  activated addon steady target activation within := by
    obtain ⟨kept, named, keeps, options⟩ := within
    have scope := steady.scope activation
    refine ⟨fun key silent => ?_, ?_, steady.context activation keeps, ?_⟩
    · intro entry known
      have left := congrArg (·.find? key) (steady.cache activation)
      exact kept key silent entry (left.symm.trans known)
    · exact (congrArg Scope.target scope).trans named
    · exact (congrArg (fun scope => scope.options.wantsNoEmit) scope).trans options

end Setup

namespace Compiler

variable {compiler : Compiler} {setup : Setup}

theorem over_configure (old : Compiler) (all : setup.registry.All Addon.Steady) :
    setup.silencing.Over setup (old.configure setup) := by
  refine ⟨⟨fun _ _ _ none => ?_, fun _ _ none => ?_, fun other same => ?_⟩,
    under_configure setup old⟩
  · cases none
  · cases none
  · cases same
    exact all

/-- The passes of a compiler are over the targets, in their order. -/
theorem targets_courseOver {regime : Regime} (lawful : regime.Lawful)
    (admits : ∀ event, regime.admits event)
    (named : ∀ target context, regime.context target context → context.target = target)
    {targets : List String} {before result : PassResult} {next : Compiler}
    (holds : regime.Holds compiler) (ran : passes targets before compiler = .ok result next) :
    (courseOver targets compiler).map (·.context.target) = targets := by
  induction targets generalizing before compiler with
  | nil => rfl
  | cons target targets ih =>
    obtain ⟨own, middle, compiled, rest⟩ := exists_of_passes_cons_eq_ok ran
    have kept := (Regime.lives_compileTarget lawful target false compiler holds
      fun event _ => admits event).1
    rw [compiled, endState_ok] at kept
    unfold courseOver
    rw [compiled]
    dsimp only
    rw [List.map_append, ih kept rest]
    rw [run_compileTarget] at compiled
    unfold pass? at compiled ⊢
    cases known : compiler.context? target with
    | none =>
      rw [known] at compiled
      cases compiled
    | some context => exact congrArg (· :: targets) (named _ _ (holds.contexts _ _ known))

end Compiler

/-! ## Results -/

/-- A result that is skipped if it has an error. -/
def Honest (result : PassResult) : Prop :=
  Diagnostic.anyError result.diagnostics = true → result.skipped = true

namespace Honest

theorem empty : Honest {} :=
  fun faulty => absurd faulty (by decide)

theorem merge {result other : PassResult} (first : Honest result)
    (second : Honest other) : Honest (result.merge other) := by
  intro faulty
  rw [PassResult.merge, Scene.anyError_append] at faulty
  rcases (Bool.or_eq_true _ _).mp faulty with here | there
  · exact (Bool.or_eq_true _ _).mpr (.inl (first here))
  · exact (Bool.or_eq_true _ _).mpr (.inr (second there))

end Honest

namespace Compiler

variable {compiler next : Compiler} {result before : PassResult} {path : Path}

theorem honest_refreshAll {context : Context} {limit : Nat} {files : List Path}
    {session later : Session} (ran : refreshAll context limit files session = .ok result later) :
    Honest result := by
  unfold refreshAll at ran
  rw [run_bind_ok (run_get session)] at ran
  obtain ⟨progress, middle, _, ran⟩ := exists_of_bind_eq_ok ran
  rw [run_bind_ok (run_get middle)] at ran
  obtain ⟨progress', compiled, _, finished⟩ := exists_of_bind_eq_ok ran
  intro faulty
  rw [(Context.exists_of_finish finished).2, faulty, Bool.or_true]

theorem honest_targetChanged {target : String} (honest : Honest before)
    (ran : targetChanged path before target compiler = .ok result next) : Honest result := by
  obtain ⟨context, _, ⟨-, rfl, -⟩ | ⟨-, pass, session, passed, rfl, -⟩⟩ :=
    exists_of_targetChanged_eq_ok ran
  · exact honest
  · exact honest.merge (honest_refreshAll passed)

/-- What a fold of steps that keep a property gives has it too. -/
theorem honest_foldlM {α : Type} {step : PassResult → α → Compiling PassResult}
    (each : ∀ before a compiler result next, Honest before →
      step before a compiler = .ok result next → Honest result)
    {items : List α} (honest : Honest before)
    (ran : items.foldlM step before compiler = .ok result next) : Honest result := by
  induction items generalizing before compiler with
  | nil =>
    cases ran
    exact honest
  | cons item items ih =>
    rw [List.foldlM_cons] at ran
    obtain ⟨middle, after, first, rest⟩ := exists_of_bind_eq_ok ran
    exact ih (each before item compiler middle after honest first) rest

/-- Whatever the compiler, a change that is handled is skipped when it has an error. -/
theorem honest_fileChanged (ran : fileChanged path compiler = .ok result next) :
    Honest result := by
  unfold fileChanged at ran
  rw [run_bind_ok (run_get compiler)] at ran
  obtain ⟨_, told, _, ran⟩ := exists_of_bind_eq_ok ran
  obtain ⟨targets, listed, _, ran⟩ := exists_of_bind_eq_ok ran
  obtain ⟨found, changed, handled, ran⟩ := exists_of_bind_eq_ok ran
  obtain ⟨_, _, _, ended⟩ := exists_of_bind_eq_ok ran
  cases ended
  exact honest_foldlM (fun _ _ _ _ _ => honest_targetChanged) .empty handled

theorem honest_drainChanges (ran : drainChanges compiler = .ok result next) :
    Honest result := by
  unfold drainChanges at ran
  obtain ⟨paths, taken, _, ran⟩ := exists_of_bind_eq_ok ran
  refine honest_foldlM (fun before path compiler result next honest ran => ?_) .empty ran
  obtain ⟨pass, after, handled, answered⟩ := exists_of_bind_eq_ok ran
  cases answered
  exact honest.merge (honest_fileChanged handled)

end Compiler

/-- What a compiler gives when it compiles, as far as errors and skipping go: one pass for each
target, in their order; an error, or a target for which nothing is to be emitted and that has a root
file, and nothing else, makes the result skipped. -/
structure Tallied (compiler : Compiler) (result : PassResult) (setup : Setup) : Prop where
  targets : compiler.course.map (·.context.target) = setup.activeTargets
  diagnostics : result.diagnostics = compiler.course.flatMap (·.diagnostics)
  skipped_iff : result.skipped = true ↔ Diagnostic.anyError result.diagnostics = true ∨
    ∃ pass ∈ compiler.course, setup.wantsNoEmit pass.context.target = true ∧
      pass.session.roots ≠ []
  each : ∀ pass ∈ compiler.course, pass.answer.skipped = true →
    setup.wantsNoEmit pass.context.target = false → Diagnostic.anyError pass.diagnostics = true

private theorem anyError_flatMap {α : Type} (items : List α) (told : α → List Diagnostic) :
    Diagnostic.anyError (items.flatMap told) = true ↔
      ∃ item ∈ items, Diagnostic.anyError (told item) = true := by
  induction items with
  | nil => simp [Diagnostic.anyError]
  | cons item items ih => rw [List.flatMap_cons, Scene.anyError_append, Bool.or_eq_true, ih]; simp

theorem tallied_of_over {compiler next : Compiler} {setup : Setup} {result : PassResult}
    (lasts : setup.silencing.Over setup compiler)
    (ran : Compiler.compile compiler = .ok result next) : Tallied compiler result setup := by
  have grounds := setup.grounds_silencing
  have made := Regime.preserves_over_ensureContexts grounds compiler lasts
  obtain ⟨options, ready, ensured, configured, course, passed, whole, came⟩ :=
    Compiler.exists_of_compile ran
  rw [ensured, endState_ok] at made
  obtain ⟨holds, registry, same⟩ := made
  rw [configured] at same
  cases same
  have targets := Compiler.targets_courseOver grounds.toLawful (fun _ => trivial)
    (fun _ _ good => good.1) holds passed
  have within := Regime.within_course_of_made grounds.toLawful (by rw [ensured]; exact holds)
    fun event _ => trivial
  have silent : ∀ pass ∈ compiler.course,
      pass.context.options.wantsNoEmit = setup.wantsNoEmit pass.context.target := by
    intro pass member
    obtain ⟨target, within⟩ := within pass member
    rw [show pass.context.target = target from within.context.1]
    exact within.context.2.2
  have skips : ∀ pass ∈ compiler.course, pass.answer.skipped = true ↔
      Diagnostic.anyError pass.diagnostics = true ∨
        setup.wantsNoEmit pass.context.target = true ∧ pass.session.roots ≠ [] := by
    intro pass member
    obtain ⟨session, ended⟩ := came pass member
    obtain ⟨target, within⟩ := within pass member
    rw [← silent pass member]
    refine pass.skipped_iff ended fun noEmit path => within.workspace ⟨path, _⟩ ?_
    rw [← silent pass member]
    exact noEmit
  have diagnostics : result.diagnostics = compiler.course.flatMap (·.diagnostics) := by
    rw [whole]
    exact Pass.diagnostics_merged compiler.course
  refine ⟨course ▸ targets, diagnostics, ?_, fun pass member skipped emits => ?_⟩
  · rw [whole, Pass.skipped_merged, List.any_eq_true, ← whole, diagnostics, anyError_flatMap,
      ← exists_or]
    refine exists_congr fun pass => ?_
    rw [← and_or_left]
    exact and_congr_right fun member => skips pass member
  · rcases (skips pass member).mp skipped with faulty | ⟨silent, _⟩
    · exact faulty
    · rw [emits] at silent
      cases silent

/-- Whatever a compiler has lived through, with addons that leave the cache and the scopes of
targets alone: when it compiles, the result is skipped exactly if it has an error, or if a target
for which nothing is to be emitted has a root file; and every other target that is skipped has an
error of its own. Where a change is handled, or the queued ones, a result with an error is skipped
too. -/
theorem skipped_iff_anyError_or_noEmit {actions : List Action}
    (brings : ∀ action ∈ actions, action.Brings Addon.Steady) (system : Files.System)
    (limit : Nat) :
    let compiler := ({ Compiler.ofSystem system with rootLimit := limit } : Compiler).runAll actions
    (∀ result next, Compiler.compile compiler = .ok result next →
      ∃ setup, compiler.setup? = some setup ∧ Tallied compiler result setup) ∧
    (∀ path result next, Compiler.fileChanged path compiler = .ok result next →
      Honest result) ∧
    ∀ result next, Compiler.drainChanges compiler = .ok result next → Honest result := by
  intro compiler
  refine ⟨fun result next ran => ?_, fun _ _ _ => Compiler.honest_fileChanged,
    fun _ _ => Compiler.honest_drainChanges⟩
  rcases exists_last_configure actions with stays | ⟨past, setup, since, rfl, stays⟩
  · have bare := (Compiler.bare_ofSystem system limit).runAll stays
    obtain ⟨failure, failed⟩ := Compiler.stops_ensureContexts.bind compiler bare
    rw [Compiler.compile, failed] at ran
    cases ran
  · let old := ({ Compiler.ofSystem system with rootLimit := limit } : Compiler).runAll past
    have all : setup.registry.All Addon.Steady := brings (.configure setup) (by simp)
    have allowed (action : Action) (member : action ∈ since) :
        setup.silencing.Allows action := by
      have brought := brings action (by simp [member])
      cases action with
      | edit change => exact fun _ kept => kept
      | configure other => exact brought
      | _ => trivial
    have lasts := setup.grounds_silencing.over_runAll (fun _ kept => kept) (fun _ => trivial)
      stays allowed (Compiler.over_configure old all)
    have lived : compiler = (old.configure setup).runAll since :=
      Compiler.runAll_append past (.configure setup :: since) _
    rw [← lived] at lasts
    obtain ⟨registry, known⟩ := lasts.2
    have tallied := tallied_of_over lasts ran
    exact ⟨_, known, tallied.targets, tallied.diagnostics, tallied.skipped_iff, tallied.each⟩

section Linted

/-- A target for which nothing is to be emitted beside one that has outputs, and an addon that
follows imports. -/
def lintedSetup : Setup where
  projectRoot := ⟨true, []⟩
  project :=
    { files := [⟨true, ["a.ts"]⟩]
      targets := some [("lint", { options := { noEmit := some true } }), ("web", {})] }
  targets := ["web,lint"]
  registry :=
    { explicit := [], project? := none, resolve := fun _ _ _ => .error .notConfigured
      entries := [("assets", .loaded (Addons.assetImports "assets"))] }

def lintedSystem : Files.System :=
  .memory ((Files.MemoryTree.new ⟨true, []⟩ false).write ⟨true, ["a.ts"]⟩ "import './a.css';")

private theorem steady_assetImports (name : String) : (Addons.assetImports name).Steady :=
  ⟨Addons.keepsCache_assetImports name, fun _ => rfl⟩

private theorem brings_linted :
    ∀ action ∈ [Action.configure lintedSetup, .compile], action.Brings Addon.Steady := by
  intro action member
  rcases List.mem_cons.mp member with rfl | member
  · exact Registry.All.of_only (steady_assetImports "assets") rfl fun _ _ _ _ => nofun
  · rw [List.mem_singleton.mp member]
    trivial

/-- What is seen of a result. -/
private def seenOf : EStateM.Result Failure Compiler PassResult → Option (List Path × Bool)
  | .ok result _ => some (result.paths, Diagnostic.anyError result.diagnostics)
  | .error _ _ => none

/-- A second build, which finds the outputs of one target in the cache, has no error, and is
skipped for the sake of the other target. -/
theorem skipped_without_error_linted :
    let last := ({ Compiler.ofSystem lintedSystem with rootLimit := 8 } : Compiler).runAll
      [.configure lintedSetup, .compile]
    ∃ result next, Compiler.compile last = .ok result next ∧ result.paths = [⟨true, ["a.js"]⟩] ∧
      Diagnostic.anyError result.diagnostics = false ∧ result.skipped = true := by
  intro last
  have seen : seenOf (Compiler.compile last) = some ([⟨true, ["a.js"]⟩], false) := by
    decide +kernel
  have targets : (last.course.map fun pass =>
      (pass.context.target, pass.session.roots.isEmpty)) = [("web", false), ("lint", false)] := by
    decide +kernel
  cases ran : Compiler.compile last with
  | error failure next =>
    rw [ran] at seen
    cases seen
  | ok result next =>
    rw [ran] at seen
    obtain ⟨paths, faultless⟩ := Prod.mk.inj (Option.some.inj seen)
    obtain ⟨setup, known, tallied⟩ :=
      (skipped_iff_anyError_or_noEmit brings_linted lintedSystem 8).1 result next ran
    refine ⟨result, next, rfl, paths, faultless, tallied.skipped_iff.mpr (.inr ?_)⟩
    have silent : setup.wantsNoEmit "lint" = true := by
      have options : (last.setup?.map fun setup => setup.wantsNoEmit "lint") = some true := by
        decide +kernel
      rw [known] at options
      exact Option.some.inj options
    obtain ⟨web, others, course, _, rest⟩ := List.map_eq_cons_iff.mp targets
    obtain ⟨lint, single, here⟩ := List.map_eq_singleton_iff.mp rest
    obtain ⟨named, some⟩ := Prod.mk.inj here
    have member : lint ∈ last.course := by
      rw [course, single]
      exact .tail _ (.head _)
    refine ⟨lint, member, ?_, fun none => ?_⟩
    · rw [named]
      exact silent
    · rw [none] at some
      cases some

end Linted
end Recast.Build
