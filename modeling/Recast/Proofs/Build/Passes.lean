import Mathlib.Data.List.Basic
import Recast.Proofs.Build.Evolution
import Recast.Proofs.Build.Scene

/-! # Passes over a sound workspace

A pass over the root files of a target finds, file by file, what a clean compilation would find.
What it gives is therefore a function of the context and of the texts of the root files
(`compileAll_spec`), whatever the cache and the language service knew before.
-/

namespace Recast.Build

open Recast.Emit Recast.Script Recast.Files

namespace Context

/-- The text that is recorded for a root file once it is compiled. -/
def wanted (context : Context) (system : System) (root : Path) : Option String :=
  (system.read root).toOption.map (context.processed root)

/-- The output files of a clean pass. -/
def cleanFiles (context : Context) (system : System) (roots : List Path) : List OutputFile :=
  roots.flatMap fun root => (context.clean system root).files

/-- Whether a clean pass is skipped: a root file is, or one has a fault that the target asks for. -/
def cleanSkipped (context : Context) (system : System) (roots : List Path) : Bool :=
  roots.any (fun root => (context.clean system root).skipped) ||
    !context.transpileOnly && Diagnostic.anyError
      (context.rootFaults roots ++ roots.flatMap fun root =>
        faultsOf root (context.wanted system root))

theorem clean_congr {a b : System} {path : Path} (same : a.read path = b.read path)
    (context : Context) :
    context.clean a path = context.clean b path := by
  unfold clean
  rw [same]

theorem cleanFiles_congr {a b : System} {roots : List Path}
    (same : ∀ root ∈ roots, a.read root = b.read root) (context : Context) :
    context.cleanFiles a roots = context.cleanFiles b roots :=
  List.flatMap_congr fun root member => by rw [clean_congr (same root member)]

theorem cleanSkipped_congr {a b : System} {roots : List Path}
    (same : ∀ root ∈ roots, a.read root = b.read root) (context : Context) :
    context.cleanSkipped a roots = context.cleanSkipped b roots := by
  have skipped : roots.any (fun root => (context.clean a root).skipped) =
      roots.any fun root => (context.clean b root).skipped := by
    rw [Bool.eq_iff_iff, List.any_eq_true, List.any_eq_true]
    refine exists_congr fun root => and_congr_right fun member => ?_
    rw [clean_congr (same root member)]
  have faults : (roots.flatMap fun root => faultsOf root (context.wanted a root)) =
      roots.flatMap fun root => faultsOf root (context.wanted b root) :=
    List.flatMap_congr fun root member => by unfold wanted; rw [same root member]
  unfold cleanSkipped
  rw [skipped, faults]

end Context

namespace Scene

variable {scene : Scene} {entry : String × Context} {session : Session}

/-- What is true of a pass of which some root files are compiled, `done` among them, compared with
the session in which it began. -/
structure Advances (scene : Scene) (context : Context) (session : Session) (done : List Path)
    (progress : Context.Progress) (later : Session) : Prop where
  follows : scene.Follows session later
  compiled : progress.compiled = done
  files : progress.result.files = context.cleanFiles session.workspace.system done
  skipped : progress.result.skipped = done.any fun root =>
    (context.clean session.workspace.system root).skipped
  faultless : progress.result.skipped = false →
    Diagnostic.anyError progress.result.diagnostics = false
  recorded : progress.result.skipped = false → ∀ root ∈ done,
    context.snapshot? later root = context.wanted session.workspace.system root

theorem anyError_append (ds es : List Diagnostic) :
    Diagnostic.anyError (ds ++ es) = (Diagnostic.anyError ds || Diagnostic.anyError es) := by
  simp [Diagnostic.anyError]

/-- One more root file. -/
theorem Advances.add (fair : scene.Fair) (member : entry ∈ scene.contexts) {done : List Path}
    {progress : Context.Progress} {later : Session}
    (advances : scene.Advances entry.2 session done progress later)
    (within : ∀ root ∈ done, root ∈ scene.roots) {root : Path} (isRoot : root ∈ scene.roots)
    (force : Bool) :
    ∃ emission last, entry.2.compileFile root force later = .ok emission last ∧
      scene.Advances entry.2 session (done ++ [root]) (progress.add root emission) last := by
  obtain ⟨emission, last, ran, follows, clean⟩ :=
    compileFile_spec fair member (fair.compiled root isRoot) advances.follows.sound force
  have same := clean isRoot
  have reads := advances.follows.reads root isRoot
  have congr := Context.clean_congr reads entry.2
  refine ⟨emission, last, ran, advances.follows.trans follows, ?_, ?_, ?_, fun counts => ?_,
    fun counts => ?_⟩
  · exact congrArg (· ++ [root]) advances.compiled
  · change progress.result.files ++ emission.files = _
    rw [advances.files, same.files, congr]
    simp [Context.cleanFiles]
  · change (progress.result.skipped || emission.skipped) = _
    rw [advances.skipped, same.skipped, congr]
    simp
  · obtain ⟨before, now⟩ :=
      Bool.or_eq_false_iff.mp (show (progress.result.skipped || emission.skipped) = false
        from counts)
    change Diagnostic.anyError (progress.result.diagnostics ++ emission.diagnostics) = false
    rw [anyError_append, advances.faultless before, same.faultless now]
    rfl
  · obtain ⟨before, now⟩ :=
      Bool.or_eq_false_iff.mp (show (progress.result.skipped || emission.skipped) = false
        from counts)
    intro other compiled
    by_cases here : root = other
    · subst here
      rw [same.recorded now, Context.wanted, reads]
    · have known : other ∈ done := by
        rcases List.mem_append.mp compiled with known | single
        · exact known
        · exact absurd (List.mem_singleton.mp single).symm here
      have left := snapshot?_compileFile fair member (fair.compiled root isRoot)
        (within other known) here force later
      rw [ran] at left
      exact left.trans (advances.recorded before other known)

theorem compileRootsFrom_spec (fair : scene.Fair) (member : entry ∈ scene.contexts) (force : Bool)
    (fuel : Nat) (done rest : List Path) (whole : scene.roots = done ++ rest)
    (enough : rest.length ≤ fuel) {progress : Context.Progress} {later : Session}
    (listed : session.roots = scene.roots)
    (advances : scene.Advances entry.2 session done progress later) :
    ∃ progress' last, entry.2.compileRootsFrom (entry.2.compileFile · force) fuel done.length
      progress later =
        .ok progress' last ∧ scene.Advances entry.2 session scene.roots progress' last := by
  have roots : later.roots = done ++ rest := by rw [advances.follows.roots, listed, whole]
  induction rest generalizing fuel done progress later with
  | nil =>
    rw [List.append_nil] at whole roots
    have short : later.roots[done.length]? = none := by
      rw [roots, List.getElem?_eq_none (Nat.le_refl _)]
    exact ⟨progress, later, Context.run_compileRootsFrom_of_end short, whole ▸ advances⟩
  | cons root rest ih =>
    obtain ⟨fuel, rfl⟩ := Nat.exists_eq_add_of_le' (Nat.one_le_of_lt enough)
    have found : later.roots[done.length]? = some root := by
      rw [roots, List.getElem?_append_right (Nat.le_refl _), Nat.sub_self,
        List.getElem?_cons_zero]
    have within : ∀ other ∈ done, other ∈ scene.roots := fun other known => by
      rw [whole]
      exact List.mem_append_left _ known
    have isRoot : root ∈ scene.roots := by
      rw [whole]
      exact List.mem_append_right _ (List.mem_cons_self ..)
    obtain ⟨emission, next, ran, advanced⟩ := advances.add fair member within isRoot force
    have split : scene.roots = done ++ [root] ++ rest := by rw [whole, List.append_assoc]; rfl
    obtain ⟨progress', last, rested, final⟩ := ih fuel (done ++ [root]) split
      (Nat.le_of_succ_le_succ enough) advanced (by rw [advanced.follows.roots, listed, split])
    refine ⟨progress', last, ?_, final⟩
    rw [Context.run_compileRootsFrom_succ found, run_bind_ok ran, ← rested, List.length_append,
      List.length_singleton]

private theorem anyError_pushNew (ds : List Diagnostic) (d : Diagnostic) :
    Diagnostic.anyError (pushNew Diagnostic.same ds d) = (Diagnostic.anyError ds || d.isError) := by
  unfold pushNew
  cases known : ds.any (d.same ·) with
  | false => exact anyError_append ds [d] |>.trans (by simp [Diagnostic.anyError])
  | true =>
    obtain ⟨other, member, same⟩ := List.any_eq_true.mp known
    have severity : d.isError = other.isError := by
      simp only [Diagnostic.same, Bool.and_eq_true, beq_iff_eq] at same
      simp only [Diagnostic.isError, same.1.1.1.1.1]
    cases error : d.isError with
    | false => simp
    | true =>
      rw [error] at severity
      simp only [↓reduceIte, Bool.or_true]
      exact List.any_eq_true.mpr ⟨other, member, severity.symm⟩

/-- Leaving out what was said already leaves out no kind of error. -/
theorem anyError_distinct (ds : List Diagnostic) :
    Diagnostic.anyError (distinct Diagnostic.same ds) = Diagnostic.anyError ds := by
  have folded : ∀ acc, Diagnostic.anyError (ds.foldl (pushNew Diagnostic.same) acc) =
      (Diagnostic.anyError acc || Diagnostic.anyError ds) := by
    induction ds with
    | nil => intro acc; simp [Diagnostic.anyError]
    | cons d ds ih =>
      intro acc
      rw [List.foldl_cons, ih, anyError_pushNew]
      simp [Diagnostic.anyError, Bool.or_assoc]
  exact folded []

end Scene

namespace Context

private theorem run_forM_report (diagnostics : List Diagnostic) (session : Session) :
    ∃ reports, diagnostics.forM Step.report session =
      .ok () { session with workspace := { session.workspace with reports := reports } } := by
  induction diagnostics generalizing session with
  | nil => exact ⟨session.workspace.reports, rfl⟩
  | cons diagnostic diagnostics ih =>
    obtain ⟨reports, ran⟩ := ih { session with workspace := session.workspace.report diagnostic }
    exact ⟨reports, (run_bind_ok (Step.run_report diagnostic session)).trans ran⟩

/-- What the end of a pass adds to its result, by a service that knows trees of these texts only. -/
structure Finishes (context : Context) (texts : Path → String → Prop) (session : Session)
    (progress : Progress) (result : PassResult) : Prop where
  files : result.files = progress.result.files
  skipped : result.skipped = (progress.result.skipped || Diagnostic.anyError result.diagnostics)
  alone : context.transpileOnly = true → result.diagnostics = progress.result.diagnostics
  checked : context.transpileOnly = false →
    (∀ path ∈ progress.compiled, ∀ text, context.snapshot? session path = some text →
      Service.TellsApart texts path text) →
    result.diagnostics = distinct Diagnostic.same (context.rootFaults session.roots ++
      (progress.compiled.flatMap fun path => faultsOf path (context.snapshot? session path)) ++
        progress.result.diagnostics)

/-- The end of a pass in a pure context touches the service and the reports only. -/
theorem run_finish {context : Context} {texts : Path → String → Prop} {session : Session}
    {progress : Progress} (pure : context.IsPure)
    (faithful : session.workspace.service.Faithful texts)
    (parsed : ∀ path ∈ progress.compiled, ∀ text, context.snapshot? session path = some text →
      texts path text) :
    ∃ result service reports, context.finish progress session =
        .ok result { session with workspace :=
          { session.workspace with service := service, reports := reports } } ∧
      service.Faithful texts ∧ context.Finishes texts session progress result := by
  have silent : context.finish progress session =
      (if !context.transpileOnly then do
        let diagnostics ← context.collectDiagnostics progress.compiled progress.result.diagnostics
        diagnostics.forM Step.report
        return { progress.result with
          diagnostics := diagnostics
          skipped := progress.result.skipped || Diagnostic.anyError diagnostics }
      else
        return { progress.result with
          skipped := progress.result.skipped || Diagnostic.anyError progress.result.diagnostics } :
            Step PassResult)
        session := by
    unfold finish
    rw [run_bind_ok (run_get session), pure.resultProcessors, pure.postTransformers]
    cases context.transpileOnly <;> rfl
  rw [silent]
  cases alone : context.transpileOnly with
  | true =>
    refine ⟨_, session.workspace.service, session.workspace.reports, rfl, faithful, rfl, rfl,
      fun _ => rfl, fun checked => ?_⟩
    rw [alone] at checked
    contradiction
  | false =>
    obtain ⟨found, service, kept, collected, exact⟩ :=
      run_collectDiagnostics progress.result.diagnostics faithful parsed
    obtain ⟨reports, reported⟩ := run_forM_report
      (distinct Diagnostic.same (found ++ progress.result.diagnostics))
        (session.withService service)
    refine ⟨{ progress.result with
        diagnostics := distinct Diagnostic.same (found ++ progress.result.diagnostics)
        skipped := progress.result.skipped ||
          Diagnostic.anyError (distinct Diagnostic.same (found ++ progress.result.diagnostics)) },
      service, reports, (run_bind_ok collected).trans (run_bind_ok reported), kept, rfl, rfl,
      fun other => ?_, fun _ apart => ?_⟩
    · rw [alone] at other
      contradiction
    · rw [exact apart]

end Context

namespace Scene

variable {scene : Scene} {entry : String × Context} {session : Session}

theorem finish_spec (fair : scene.Fair) (member : entry ∈ scene.contexts)
    (sound : scene.Sound session.workspace) {progress : Context.Progress}
    (listed : ∀ path ∈ progress.compiled, scene.paths path) :
    ∃ result last, entry.2.finish progress session = .ok result last ∧ scene.Follows session last ∧
      entry.2.Finishes scene.texts session progress result := by
  obtain ⟨result, service, reports, ran, faithful, finishes⟩ :=
    Context.run_finish (fair.pure entry member) sound.service fun path compiled text recorded =>
      sound.texts_snapshot? fair member (listed path compiled) recorded
  exact ⟨result, _, ran, ⟨⟨sound.memory, sound.sources, sound.entries, faithful⟩, rfl,
    fun _ _ => rfl⟩, finishes⟩

/-- A pass over the root files of a target gives what a clean pass gives. -/
theorem compileAll_spec (fair : scene.Fair) (member : entry ∈ scene.contexts)
    (sound : scene.Sound session.workspace) (listed : session.roots = scene.roots) (limit : Nat)
    (force : Bool) :
    ∃ result last, entry.2.compileAll limit force session = .ok result last ∧
      scene.Follows session last ∧
      result.files = entry.2.cleanFiles session.workspace.system scene.roots ∧
      result.skipped = entry.2.cleanSkipped session.workspace.system scene.roots := by
  have start : scene.Advances entry.2 session [] {} session :=
    ⟨.refl sound, rfl, rfl, rfl, fun _ => rfl, fun _ _ none => by simp at none⟩
  obtain ⟨progress, middle, compiled, advances⟩ := compileRootsFrom_spec fair member force
    (session.roots.length + limit) [] scene.roots rfl (by rw [listed]; exact Nat.le_add_right ..)
      listed start
  have roots : ∀ path ∈ progress.compiled, path ∈ scene.roots := by
    rw [advances.compiled]
    exact fun _ known => known
  have listed' : ∀ path ∈ progress.compiled, scene.paths path := fun path known =>
    fair.compiled path (roots path known)
  obtain ⟨result, last, finished, follows, finishes⟩ :=
    finish_spec fair member advances.follows.sound listed'
  refine ⟨result, last, ?_, advances.follows.trans follows, finishes.files.trans advances.files, ?_⟩
  · unfold Context.compileAll
    rw [List.length_nil] at compiled
    rw [run_bind_ok (run_get session), run_bind_ok compiled, finished]
  · rw [finishes.skipped]
    unfold Context.cleanSkipped
    rw [← advances.skipped]
    cases counts : progress.result.skipped with
    | true => rfl
    | false =>
      simp only [Bool.false_or]
      have faultless := advances.faultless counts
      cases alone : entry.2.transpileOnly with
      | true =>
        rw [finishes.alone alone, faultless]
        rfl
      | false =>
        have apart : ∀ path ∈ progress.compiled, ∀ text,
            entry.2.snapshot? middle path = some text →
              Service.TellsApart scene.texts path text := fun path known text recorded =>
          fair.tellsApart (roots path known) (advances.follows.sound.texts_snapshot? fair member
            (listed' path known) recorded)
        rw [finishes.checked alone apart, anyError_distinct, anyError_append, faultless,
          Bool.or_false, advances.compiled, advances.follows.roots, listed]
        simp only [Bool.not_false, Bool.true_and]
        rw [List.flatMap_congr fun root known => by rw [advances.recorded counts root known]]

/-- A file that is compiled again, or forgotten, leaves a sound workspace. -/
theorem refresh_spec (fair : scene.Fair) (member : entry ∈ scene.contexts)
    (sound : scene.Sound session.workspace) {path : Path} (listed : scene.paths path)
    (progress : Context.Progress) :
    ∃ progress' later, Compiler.refresh entry.2 progress path session = .ok progress' later ∧
      scene.Follows session later ∧ ∀ other ∈ progress'.compiled, other ∈ progress.compiled ∨
        other = path := by
  rw [Compiler.run_refresh]
  split
  · obtain ⟨emission, later, ran, follows, _⟩ := compileFile_spec fair member listed sound true
    refine ⟨_, later, run_bind_ok ran, follows, fun other known => ?_⟩
    simpa using List.mem_append.mp known
  · have forgotten : scene.Sound (session.mapCache (·.remove path entry.2.target)).workspace := by
      refine sound.withCache fun next member' root isRoot known found => ?_
      rw [Cache.find?_remove] at found
      split at found
      · simp at found
      · exact sound.entries next member' root isRoot known found
    exact ⟨progress, _, run_bind_ok (Step.run_modifyCache _ session),
      ⟨forgotten, rfl, fun _ _ => rfl⟩, fun other known => .inl known⟩

theorem refreshAll_spec (fair : scene.Fair) (member : entry ∈ scene.contexts)
    (sound : scene.Sound session.workspace) {files : List Path}
    (listed : ∀ path ∈ files, scene.paths path) (limit : Nat) :
    ∃ result later, Compiler.refreshAll entry.2 limit files session = .ok result later ∧
      scene.Follows session later := by
  have refreshed : ∀ (progress : Context.Progress) (session : Session),
      scene.Sound session.workspace →
      (∀ path ∈ progress.compiled, scene.paths path) →
      ∃ progress' later, files.foldlM (Compiler.refresh entry.2) progress session =
        .ok progress' later ∧ scene.Follows session later ∧ ∀ path ∈ progress'.compiled,
        scene.paths path := by
    induction files with
    | nil => exact fun progress session sound known => ⟨progress, session, rfl, .refl sound, known⟩
    | cons path files ih =>
      intro progress session sound known
      have here := listed path (List.mem_cons_self ..)
      obtain ⟨middle, next, ran, follows, within⟩ := refresh_spec fair member sound here progress
      obtain ⟨last, later, rested, follows', known'⟩ :=
        ih (fun other member => listed other (List.mem_cons_of_mem _ member)) middle next
          follows.sound
          fun other compiled => (within other compiled).elim (known other) fun same => same ▸ here
      exact ⟨last, later, by rw [List.foldlM_cons, run_bind_ok ran, rested],
        follows.trans follows', known'⟩
  obtain ⟨progress, middle, ran, follows, known⟩ := refreshed {} session sound (by simp)
  obtain ⟨result, later, finished, follows', _⟩ := finish_spec fair member follows.sound known
  refine ⟨result, later, ?_, follows.trans follows'⟩
  have short : middle.roots[session.roots.length]? = none := by
    rw [follows.roots, List.getElem?_eq_none (Nat.le_refl _)]
  unfold Compiler.refreshAll
  rw [run_bind_ok (run_get session), run_bind_ok ran, run_bind_ok (run_get middle),
    run_bind_ok (Context.run_compileRootsFrom_of_end short), finished]

end Scene

end Recast.Build
