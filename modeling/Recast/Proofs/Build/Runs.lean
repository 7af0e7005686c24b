import Recast.Proofs.Build.Steps

/-! # How a compilation runs

A compilation of a file in equations: what it asks the cache, what runs before its text is recorded,
and how the emission is settled. Later modules read a compilation through these and do not open its
definition again.
-/

namespace Recast.Build

open Recast.Emit

/-- The session with another cache. -/
def Session.mapCache (session : Session) (f : Cache → Cache) : Session :=
  { session with workspace := { session.workspace with cache := f session.workspace.cache } }

/-- The session with other files. -/
def Session.withSystem (session : Session) (system : Files.System) : Session :=
  { session with workspace := { session.workspace with system := system } }

/-- The session with another journal. -/
def Session.withJournal (session : Session) (journal : Journal) : Session :=
  { session with workspace := { session.workspace with journal := journal } }

/-- Whether an emission has no output that counts. -/
def lacksOutput (emission : Emission) : Bool :=
  emission.skipped || Diagnostic.anyError emission.diagnostics

namespace Step

theorem run_workspace (session : Session) : workspace session = .ok session.workspace session := rfl

theorem run_report (diagnostic : Diagnostic) (session : Session) :
    report diagnostic session =
      .ok () { session with workspace := session.workspace.report diagnostic } := rfl

theorem run_modifyCache (f : Cache → Cache) (session : Session) :
    modifyCache f session = .ok () (session.mapCache f) := rfl

/-- A step that leaves lines in the journal changes nothing else. -/
theorem run_journaled {α : Type} (step : Journaled α) (session : Session) :
    journaled step session =
      match step session.workspace.journal with
      | .ok answer journal => .ok answer (session.withJournal journal)
      | .error failure journal => .error failure (session.withJournal journal) := rfl

/-- A step that leaves lines in the journal gave its answer there. -/
theorem exists_of_journaled_eq_ok {α : Type} {step : Journaled α} {a : α} {session later : Session}
    (ran : journaled step session = .ok a later) :
    ∃ journal, step session.workspace.journal = .ok a journal := by
  rw [run_journaled] at ran
  split at ran
  · next journal done =>
    cases ran
    exact ⟨journal, done⟩
  · cases ran

end Step

namespace Context

/-- Everything that runs on a source before its text is recorded. -/
def prepare (context : Context) (path : Path) (source : String) : Step String := do
  context.generators.forM fun generator => generator context.toScope path source
  context.processors.foldlM (fun text processor => processor context.toScope path text) source

/-- A source is prepared, recorded, emitted and settled. -/
theorem compileSource_eq (context : Context) (path : Path) (source : String) :
    context.compileSource path source = (do
      let text ← context.prepare path source
      Step.modifyCache (·.update path context.target source text)
      let emission ← context.emitFile path text
      context.settle path emission) := by
  simp only [compileSource, prepare, bind_assoc]

theorem run_compileSource (context : Context) (path : Path) (source : String) (session : Session) :
    context.compileSource path source session =
      match context.prepare path source session with
      | .error failure session => .error failure session
      | .ok text session =>
        match context.emitFile path text
          (session.mapCache (·.update path context.target source text)) with
        | .error failure session => .error failure session
        | .ok emission session => context.settle path emission session := by
  rw [compileSource_eq, run_bind]
  cases context.prepare path source session with
  | error failure session => rfl
  | ok text session =>
    dsimp only
    rw [run_bind_ok (Step.run_modifyCache _ session), run_bind]
    cases context.emitFile path text (session.mapCache (·.update path context.target source text))
      <;> rfl

/-- The entry of a file behind its emission. -/
def settledEntry (emission : Emission) (entry : CacheEntry) : CacheEntry :=
  if lacksOutput emission then entry.withoutOutput else entry.withOutputs emission.files

theorem settledEntry_of_lacksOutput {emission : Emission} (lacks : lacksOutput emission = true) :
    settledEntry emission = (·.withoutOutput) :=
  funext fun _ => if_pos lacks

theorem settledEntry_of_not_lacksOutput {emission : Emission}
    (has : lacksOutput emission = false) :
    settledEntry emission = (·.withOutputs emission.files) :=
  funext fun _ => if_neg (Bool.not_eq_true _ ▸ has)

@[simp] theorem settledEntry_source (emission : Emission) (entry : CacheEntry) :
    (settledEntry emission entry).source = entry.source := by
  unfold settledEntry
  split <;> rfl

@[simp] theorem settledEntry_snapshot (emission : Emission) (entry : CacheEntry) :
    (settledEntry emission entry).snapshot = entry.snapshot := by
  unfold settledEntry
  split <;> rfl

@[simp] theorem settledEntry_failed (emission : Emission) (entry : CacheEntry) :
    (settledEntry emission entry).failed = lacksOutput emission := by
  unfold settledEntry
  cases lacksOutput emission <;> rfl

theorem settledEntry_outputs {emission : Emission} (has : lacksOutput emission = false)
    (entry : CacheEntry) : (settledEntry emission entry).outputs = emission.files := by
  rw [settledEntry_of_not_lacksOutput has]
  rfl

/-- The files that are written for an emission. -/
def placed (context : Context) (emission : Emission) : List OutputFile :=
  if context.writesFiles && !lacksOutput emission then emission.files else []

theorem mem_of_mem_placed {context : Context} {emission : Emission} {file : OutputFile}
    (member : file ∈ context.placed emission) :
    context.writesFiles = true ∧ file ∈ emission.files := by
  unfold placed at member
  split at member
  · next counts => exact ⟨(Bool.and_eq_true_iff.mp counts).1, member⟩
  · cases member

/-- An emission is settled in the entry of its file, and then in the files. -/
theorem settle_eq (context : Context) (path : Path) (emission : Emission) :
    context.settle path emission = (do
      Step.modifyCache (·.modify path context.target (settledEntry emission))
      (context.placed emission).forM fun file => Step.write file.name file.diskText
      return { emission with skipped := lacksOutput emission }) := by
  unfold settle placed settledEntry lacksOutput
  cases emission.skipped || Diagnostic.anyError emission.diagnostics <;>
    cases context.writesFiles <;> rfl

/-- An emission without output marks the entry. -/
theorem run_settle_of_lacksOutput {context : Context} {path : Path} {emission : Emission}
    (lacks : lacksOutput emission = true) (session : Session) :
    context.settle path emission session =
      .ok { emission with skipped := true }
        (session.mapCache (·.markFailed path context.target)) := by
  rw [settle_eq, settledEntry_of_lacksOutput lacks, placed, lacks]
  cases context.writesFiles <;> rfl

/-- Outputs that count are recorded and written, if the target writes. -/
theorem run_settle_of_not_lacksOutput {context : Context} {path : Path} {emission : Emission}
    (has : lacksOutput emission = false) (session : Session) :
    context.settle path emission session =
      ((if context.writesFiles then emission.files.forM fun file =>
        Step.write file.name file.diskText else pure ()) >>=
        fun _ => pure { emission with skipped := false })
        (session.mapCache (·.setOutputs path context.target emission.files)) := by
  rw [settle_eq, settledEntry_of_not_lacksOutput has, placed, has]
  cases context.writesFiles <;> rfl

theorem run_recompile (context : Context) (path : Path) (session : Session) :
    context.recompile path session =
      match session.workspace.system.read path with
      | .error error => .ok { diagnostics := [unreadable path error], skipped := true } session
      | .ok source => context.compileSource path source session := by
  unfold recompile
  rw [run_bind_ok (Step.run_workspace session)]
  cases session.workspace.system.read path <;> rfl

/-- With `force` the entry loses its snapshot, and the file is compiled. -/
theorem run_compileFile_force (context : Context) (path : Path) (session : Session) :
    context.compileFile path true session =
      context.recompile path (session.mapCache (·.markStale path context.target)) := by
  unfold compileFile
  exact run_bind_ok (Step.run_modifyCache _ session)

/-- Otherwise the cache is asked first. -/
theorem run_compileFile (context : Context) (path : Path) (session : Session) :
    context.compileFile path false session =
      if session.workspace.cache.hasChanged session.workspace.system path context.target then
        context.recompile path session
      else .ok { files := (session.workspace.cache.get path context.target).outputs } session := by
  have asked := run_bind_ok (f := fun workspace : Workspace =>
    if workspace.cache.hasChanged workspace.system path context.target then context.recompile path
    else return { files := (workspace.cache.get path context.target).outputs })
      (Step.run_workspace session)
  refine asked.trans ?_
  split <;> rfl

section Roots

variable {context : Context} {compileRoot : Path → Step Emission} {fuel index : Nat} {path : Path}
  {before after : Progress} {session later : Session}

/-- Behind the last root file, what was compiled so far is the answer. -/
theorem run_compileRootsFrom_of_end (short : session.roots[index]? = none) :
    context.compileRootsFrom compileRoot fuel index before session = .ok before session := by
  unfold compileRootsFrom
  rw [run_bind_ok (run_get session), short]
  rfl

/-- A root file for which nothing is left to spend is an error. -/
theorem run_compileRootsFrom_zero (found : session.roots[index]? = some path) :
    context.compileRootsFrom compileRoot 0 index before session =
      .error (.endlessRoots context.target) session := by
  unfold compileRootsFrom
  rw [run_bind_ok (run_get session), found]
  rfl

/-- Otherwise a root file is compiled, and then those behind it. -/
theorem run_compileRootsFrom_succ (found : session.roots[index]? = some path) :
    context.compileRootsFrom compileRoot (fuel + 1) index before session =
      (compileRoot path >>= fun emission =>
        context.compileRootsFrom compileRoot fuel (index + 1) (before.add path emission))
          session := by
  rw [compileRootsFrom, run_bind_ok (run_get session), found]

/-- Induction along root files that were compiled to the end of their list: what holds behind the
last one, and before a root file if it holds behind it, holds from any index on. -/
@[elab_as_elim]
theorem compileRootsFrom_induction
    {motive : ∀ fuel index before session,
      context.compileRootsFrom compileRoot fuel index before session = .ok after later → Prop}
    (ended : ∀ {fuel index} (short : later.roots[index]? = none),
      motive fuel index after later (run_compileRootsFrom_of_end short))
    (compiled : ∀ {fuel index before session path emission middle}
      (found : session.roots[index]? = some path)
      (compiled : compileRoot path session = .ok emission middle)
      (rest : context.compileRootsFrom compileRoot fuel (index + 1) (before.add path emission)
        middle = .ok after later),
      motive fuel (index + 1) (before.add path emission) middle rest →
      motive (fuel + 1) index before session
        ((run_compileRootsFrom_succ found).trans ((run_bind_ok compiled).trans rest)))
    (fuel index : Nat) (before : Progress) (session : Session)
    (ran : context.compileRootsFrom compileRoot fuel index before session = .ok after later) :
    motive fuel index before session ran := by
  have last fuel index before session (ran) (short : session.roots[index]? = none) :
      motive fuel index before session ran := by
    cases (run_compileRootsFrom_of_end short).symm.trans ran
    exact ended short
  induction fuel generalizing index before session with
  | zero =>
    cases found : session.roots[index]? with
    | none => exact last 0 index before session ran found
    | some path => cases (run_compileRootsFrom_zero found).symm.trans ran
  | succ fuel ih =>
    cases found : session.roots[index]? with
    | none => exact last (fuel + 1) index before session ran found
    | some path =>
      obtain ⟨emission, middle, here, rest⟩ :=
        exists_of_bind_eq_ok ((run_compileRootsFrom_succ found).symm.trans ran)
      exact compiled found here rest (ih (index + 1) (before.add path emission) middle rest)

end Roots

/-- The end of a pass leaves the outputs as they are. Diagnostics are collected, unless the target
is transpiled only, and a result with an error is skipped. -/
theorem exists_of_finish_eq_ok {context : Context} {progress : Progress} {session later : Session}
    {result : PassResult} (ran : context.finish progress session = .ok result later) :
    ∃ diagnostics, result = ⟨progress.result.files, diagnostics,
        progress.result.skipped || Diagnostic.anyError diagnostics⟩ ∧
      (diagnostics = progress.result.diagnostics ∨ ∃ middle last,
        context.collectDiagnostics progress.compiled progress.result.diagnostics middle =
          .ok diagnostics last) := by
  unfold finish at ran
  rw [run_bind_ok (run_get session)] at ran
  obtain ⟨_, _, _, ran⟩ := exists_of_bind_eq_ok ran
  obtain ⟨_, middle, _, ran⟩ := exists_of_bind_eq_ok ran
  dsimp only at ran
  split at ran
  · obtain ⟨diagnostics, collected, gathered, ran⟩ := exists_of_bind_eq_ok ran
    obtain ⟨_, _, _, ended⟩ := exists_of_bind_eq_ok ran
    cases ended
    exact ⟨diagnostics, rfl, .inr ⟨middle, collected, gathered⟩⟩
  · cases ran
    exact ⟨_, rfl, .inl rfl⟩

end Context

end Recast.Build
