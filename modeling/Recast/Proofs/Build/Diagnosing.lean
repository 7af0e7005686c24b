import Mathlib.Data.List.Nodup
import Recast.Proofs.Build.Course
import Recast.Proofs.Build.Recording
import Recast.Proofs.Build.Serving
import Recast.Proofs.Files.Places

/-! # Which text diagnostics are of

At the end of a pass the diagnostics of a root file are those of the text that is recorded for it.
For a file that was read in the pass this is its text after the processors. A file that could not be
read keeps the text of an earlier pass, and its faults are told again. So a pass tells of the files
as they are exactly if no file that cannot be read had faults (`diagnostics_current_iff`).
-/

namespace Recast

open Script

@[simp] theorem Diagnostic.same_self (diagnostic : Diagnostic) :
    diagnostic.same diagnostic = true := by
  cases file : diagnostic.file <;> simp [same, sameFile, file]

/-- What is wrong with a script is said of its file, and is not that it cannot be read. -/
theorem Build.Context.file_of_mem_faultsOf {path : Path} {text? : Option String}
    {fault : Diagnostic} (member : fault ∈ faultsOf path text?) :
    fault.file = some path ∧ fault.code ≠ some 6053 := by
  cases text? with
  | none => cases member
  | some text =>
    rcases List.mem_append.mp member with syntactic | semantic
    · rcases List.mem_append.mp syntactic with lexical | bracket
      · obtain ⟨⟨offset, kind⟩, _, rfl⟩ := List.mem_map.mp lexical
        exact ⟨rfl, by cases kind <;> simp [Tree.errorAt, Diagnostic.withPosition,
          Diagnostic.withFile, Diagnostic.withCode, LexicalFault.code]⟩
      · obtain ⟨⟨offset, kind⟩, _, rfl⟩ := List.mem_map.mp bracket
        exact ⟨rfl, by cases kind <;> simp [Tree.errorAt, Diagnostic.withPosition,
          Diagnostic.withFile, Diagnostic.withCode, BracketFault.code]⟩
    · obtain ⟨name, _, rfl⟩ := List.mem_map.mp semantic
      exact ⟨rfl, by simp [Diagnostic.withPosition, Diagnostic.withFile, Diagnostic.withCode]⟩

/-- What is said of the places of root files is said of no file. -/
theorem Build.Context.file_of_mem_rootFaults {context : Context} {roots : List Path}
    {fault : Diagnostic} (member : fault ∈ context.rootFaults roots) : fault.file = none := by
  unfold rootFaults Emit.Service.optionFaults at member
  dsimp only at member
  split at member
  · cases member
  · obtain ⟨root, _, rfl⟩ := List.mem_map.mp member
    rfl

namespace Build

open Emit

/-- What processors make of the source of a file under a target. -/
abbrev Processing := String → Path → String → String

namespace Compilation

/-- Whatever the processors make in a compilation is what they always make. -/
def Processes (process : Processing) (compilation : Compilation) : Prop :=
  ∀ source text later, compilation.content? = some source →
    compilation.context.prepare compilation.path source compilation.started = .ok text later →
      text = process compilation.context.target compilation.path source

/-- The text of the file as it was read, after the processors. -/
def text? (process : Processing) (compilation : Compilation) : Option String :=
  compilation.content?.map (process compilation.context.target compilation.path)

/-- What is said of a file that cannot be read. -/
def readErrors (compilation : Compilation) : List Diagnostic :=
  match compilation.session.workspace.system.read compilation.path with
  | .ok _ => []
  | .error error => [unreadable compilation.path error]

end Compilation

/-- The diagnostics of a pass if some text is taken for each file: those of the root files as a
whole, those of the texts, and the errors of reading; each once. -/
def Pass.tells (pass : Pass) (text? : Compilation → Option String) : List Diagnostic :=
  distinct Diagnostic.same (pass.context.rootFaults pass.roots ++
    (pass.compilations.flatMap fun compilation =>
      Context.faultsOf compilation.path (text? compilation)) ++
    pass.compilations.flatMap (·.readErrors))

variable {made : Makings} {process : Processing}

namespace Compilation

variable {compilation : Compilation} {emission : Emission} {after : Session}

/-- How a compilation went that came to an end, and where its diagnostics are from. -/
inductive Ended (compilation : Compilation) (emission : Emission) : Prop where
  | served (asked : compilation.isServed = true) (silent : emission.diagnostics = [])
  | unread {error : FileError} (missed : compilation.isServed = false)
      (read : compilation.session.workspace.system.read compilation.path = .error error)
      (told : emission.diagnostics = [unreadable compilation.path error])
  | emitted {source text : String} {made : Emission} {session last : Session}
      (missed : compilation.isServed = false)
      (read : compilation.session.workspace.system.read compilation.path = .ok source)
      (prepared : compilation.context.prepare compilation.path source compilation.started = .ok
        text session)
      (emitted : compilation.context.emitFile compilation.path text (session.mapCache
        (·.update compilation.path compilation.context.target source text)) = .ok made last)
      (told : emission.diagnostics = made.diagnostics)

theorem ended_of_ok (ran : compilation.result = .ok emission after) :
    compilation.Ended emission := by
  have came := compilation.came
  revert came
  cases compilation.outcome with
  | served =>
    rintro ⟨asked, answer⟩
    cases answer.symm.trans ran
    exact .served asked rfl
  | unreadable =>
    rintro ⟨⟩
    next missed read answer =>
      cases answer.symm.trans ran
      exact .unread missed read rfl
  | refused =>
    rintro ⟨⟩
    next answer => cases answer.symm.trans ran
  | broken =>
    rintro ⟨⟩
    next answer => cases answer.symm.trans ran
  | skipped =>
    rintro ⟨⟩
    next missed read prepared emitted answer =>
      cases answer.symm.trans ran
      exact .emitted missed read prepared emitted rfl
  | emitted =>
    rintro ⟨⟩
    next missed read prepared emitted counts answer =>
      rw [Context.run_settle_of_not_lacksOutput counts] at answer
      obtain ⟨_, _, _, settled⟩ := exists_of_bind_eq_ok (answer.symm.trans ran)
      cases settled
      exact .emitted missed read prepared emitted rfl

/-- Behind a compilation that came to an end, the text of its file is recorded, unless it could not
be read. -/
theorem snapshot?_of_ok
    (serves : compilation.Serves made fun _ context => context.Discreet)
    (exact : ∀ target path source text, made target path source text →
      text = process target path source)
    (processes : compilation.Processes process) (unforced : compilation.force = false)
    (ran : compilation.result = .ok emission after) :
    after.cache.snapshot? compilation.key =
      (compilation.text? process).or (compilation.session.cache.snapshot? compilation.key) := by
  obtain ⟨_, discreet⟩ := serves.context
  have left := snapshot?_after discreet.keepsCache
  unfold Compilation.after at left
  rw [ran, snapshot?_started, unforced, if_neg Bool.false_ne_true] at left
  refine left.trans ?_
  cases ended_of_ok ran with
  | served asked _ =>
    -- The entry answers for the source that was read, so its text was made of it.
    obtain ⟨_, entry, found, settled, source⟩ := compilation.isServed_iff.mp asked
    obtain ⟨text, recorded⟩ : ∃ text, entry.snapshot = some text :=
      Option.isSome_iff_exists.mp (Bool.and_eq_true_iff.mp settled).1
    have before : compilation.session.cache.snapshot? compilation.key = some text := by
      unfold Cache.snapshot?
      rw [found]
      exact recorded
    have same := exact _ _ _ _ (serves.session.workspace.recorded compilation.path
      compilation.context.target entry serves.path found text recorded)
    rw [before, text?, source, recorded?, if_pos asked, same]
    rfl
  | unread missed read _ => simp [text?, content?, recorded?, missed, read, Except.toOption]
  | @emitted source text _ session _ missed read prepared _ _ =>
    have known : compilation.content? = some source := by rw [content?, read]; rfl
    simp [text?, known, recorded?, missed, read, prepared,
      processes source text session known prepared]

/-- A file that is emitted with what is around it has no diagnostics, or the faults of its tree. -/
private theorem diagnostics_emitsTree {context : Context} {path : Path} {text : String}
    {tree : Script.Tree} {journal later : Journal}
    (ran : context.emitsTree path text tree journal = .ok emission later) :
    emission.diagnostics = [] ∨ emission.diagnostics = tree.faults := by
  unfold Context.emitsTree at ran
  split at ran
  · cases ran
    exact .inl rfl
  · split at ran
    · cases ran
      exact .inl rfl
    · split at ran
      · cases ran
        exact .inr rfl
      · obtain ⟨_, _, _, ended⟩ := exists_of_bind_eq_ok ran
        cases ended
        exact .inl rfl

/-- The emission of a text that was recorded tells nothing but faults of this text. -/
private theorem faults_of_emitFile {source text : String} {session last : Session}
    (serves : compilation.Serves made fun _ context => context.Discreet)
    (checked : compilation.context.transpileOnly = false) (admits : compilation.Admits made)
    (known : compilation.content? = some source)
    (apart : ∀ path text, made.texts path text → Service.TellsApart made.texts path text)
    (prepared : compilation.context.prepare compilation.path source compilation.started =
      .ok text session)
    (emitted : compilation.context.emitFile compilation.path text (session.mapCache
      (·.update compilation.path compilation.context.target source text)) = .ok emission last) :
    ∀ fault ∈ emission.diagnostics, fault ∈ Context.faultsOf compilation.path (some text) := by
  obtain ⟨_, discreet⟩ := serves.context
  have making := admits source text session known prepared
  obtain ⟨kept, recorded⟩ := Context.serves_recorded discreet serves.path
    (serves_started serves.session) prepared making
  have listed : made.texts compilation.path text := ⟨serves.path, _, _, making⟩
  obtain ⟨service, _, emits⟩ := Context.run_emitFile_of_tellsApart recorded kept.workspace.service
    listed (apart _ _ listed)
  rw [emits] at emitted
  obtain ⟨journal, ran⟩ := Step.exists_of_journaled_eq_ok emitted
  unfold Context.emits at ran
  rw [checked, if_neg Bool.false_ne_true] at ran
  intro fault member
  rcases diagnostics_emitsTree ran with none | faults
  · rw [none] at member
    cases member
  · rw [faults] at member
    exact List.mem_append_left _ member

/-- A compilation that came to an end tells that the file cannot be read, or faults of its text. -/
theorem told_of_ok (serves : compilation.Serves made fun _ context => context.Discreet)
    (checked : compilation.context.transpileOnly = false) (admits : compilation.Admits made)
    (processes : compilation.Processes process)
    (apart : ∀ path text, made.texts path text → Service.TellsApart made.texts path text)
    (ran : compilation.result = .ok emission after) :
    compilation.told = compilation.readErrors ∨ compilation.readErrors = [] ∧
      ∀ fault ∈ compilation.told,
        fault ∈ Context.faultsOf compilation.path (compilation.text? process) := by
  have told : compilation.told = emission.diagnostics := by
    unfold Compilation.told
    rw [ran]
  cases ended_of_ok ran with
  | served asked silent =>
    obtain ⟨_, _, _, _, source⟩ := compilation.isServed_iff.mp asked
    refine .inl ((told.trans silent).trans ?_)
    unfold content? at source
    unfold readErrors
    cases read : compilation.session.workspace.system.read compilation.path with
    | ok text => rfl
    | error error =>
      rw [read] at source
      cases source
  | unread _ read same => exact .inl ((told.trans same).trans (by rw [readErrors, read]))
  | @emitted source text _ session _ _ read prepared emitted same =>
    have known : compilation.content? = some source := by rw [content?, read]; rfl
    have current : compilation.text? process = some text := by
      rw [text?, known, processes source text session known prepared]
      rfl
    refine .inr ⟨by rw [readErrors, read], ?_⟩
    rw [told, same, current]
    exact faults_of_emitFile serves checked admits known apart prepared emitted

end Compilation

namespace Context

variable {context : Context} {roots : List Path}

/-- The diagnostics of a pass that comes to its end, by a service that tells the recorded texts
apart. -/
theorem diagnostics_of_finish (discreet : context.Discreet)
    (checked : context.transpileOnly = false) {progress : Progress} {result : PassResult}
    {session last : Session}
    (serves : session.Serves made roots) (normal : ∀ path ∈ progress.compiled, path.IsNormal)
    (apart : ∀ path ∈ progress.compiled, ∀ text,
      session.cache.snapshot? ⟨path, context.target⟩ = some text →
        Service.TellsApart made.texts path text)
    (ran : context.finish progress session = .ok result last) :
    session.roots <+: last.roots ∧ result.diagnostics = distinct Diagnostic.same
      (context.rootFaults last.roots ++ (progress.compiled.flatMap fun path =>
        faultsOf path (session.cache.snapshot? ⟨path, context.target⟩)) ++
        progress.result.diagnostics) := by
  unfold finish at ran
  rw [run_bind_ok (run_get session)] at ran
  obtain ⟨_, first, processed, ran⟩ := exists_of_bind_eq_ok ran
  obtain ⟨_, second, transformed, ran⟩ := exists_of_bind_eq_ok ran
  have spares : session.Spares second := by
    have before := Follows.forM (R := Session.Spares) (fun processor member =>
      discreet.resultProcessors processor member session.roots) session
    have behind := Follows.forM (R := Session.Spares) (fun processor member =>
      discreet.postTransformers processor member session.roots) first
    rw [processed] at before
    rw [transformed] at behind
    exact IsTrans.trans _ _ _ before behind
  have kept : second.workspace.Serves made := serves.workspace.of_eq spares.cache spares.service
  have recorded (path : Path) :
      context.snapshot? second path = session.cache.snapshot? ⟨path, context.target⟩ := by
    rw [← spares.cache]
    exact Cache.snapshot_get ..
  simp only [checked, Bool.not_false, ↓reduceIte] at ran
  obtain ⟨found, service, _, collected, told⟩ := @run_collectDiagnostics context second _
    progress.compiled progress.result.diagnostics kept.service
    fun path member text known => kept.text_of_get (normal path member) known
  rw [run_bind_ok collected] at ran
  obtain ⟨_, third, reported, ended⟩ := exists_of_bind_eq_ok ran
  have silent : third.roots = second.roots := by
    have left : Leaves Session.roots
        ((distinct Diagnostic.same (found ++ progress.result.diagnostics)).forM Step.report) :=
      Leaves.forM fun _ _ _ => rfl
    have same := left (second.withService service)
    rw [reported] at same
    exact same
  cases ended
  refine ⟨silent ▸ spares.roots, ?_⟩
  dsimp only
  rw [told fun path member text known => apart path member text (recorded path ▸ known), silent]
  simp only [recorded]

end Context

namespace Pass

variable {pass : Pass}

/-- A pass that begins where everything recorded was made, and makes what processors always make. -/
structure Serves (made : Makings) (process : Processing) (pass : Pass) : Prop where
  discreet : pass.context.Discreet
  session : pass.session.Serves made pass.session.roots
  compilations : ∀ compilation ∈ pass.compilations,
    (compilation.Serves made fun _ context => context.Discreet) ∧ compilation.Admits made ∧
      compilation.Processes process
  exact : ∀ target path source text, made target path source text →
    text = process target path source

/-- What is known of a pass once all root files are compiled. -/
structure Compiled (made : Makings) (pass : Pass) (progress : Context.Progress) (later : Session) :
    Prop where
  compiles : pass.context.Compiles 0 {} pass.session pass.compilations progress later
  serves : later.Serves made pass.session.roots
  recorded : ∀ compilation ∈ pass.compilations,
    later.cache.snapshot? compilation.key = compilation.after.cache.snapshot? compilation.key

theorem exists_compiled (serves : pass.Serves made process) {result : PassResult} {last : Session}
    (ran : pass.result = .ok result last) :
    ∃ progress later, pass.Compiled made progress later ∧
      pass.context.finish progress later = .ok result last := by
  obtain ⟨_, _, begun, ran⟩ := exists_of_bind_eq_ok ran
  cases begun
  obtain ⟨progress, later, compiled, finished⟩ := exists_of_bind_eq_ok ran
  have governs : Governs Cache.Stays Addon.Discreet fun _ context => context.Discreet :=
    reticent_discreet.toGoverns
  have known (compilation : Compilation) (lived : .compiled compilation ∈ pass.events) :=
    serves.compilations compilation (mem_compilations.mpr lived)
  have compiles := Context.compiles_of_run (fun compilation lived => by
    obtain ⟨good, admits, _⟩ := known compilation lived
    obtain ⟨_, discreet⟩ := good.context
    exact (Compilation.serves_after discreet good.path good.session admits).roots) compiled
  have within : (serving made Addon.Discreet fun _ context => context.Discreet).Within
      pass.context.target pass.context pass.session :=
    (within_serving_iff governs).mpr ⟨serves.discreet, serves.session⟩
  have lawful : (serving made Addon.Discreet fun _ context => context.Discreet).Lawful :=
    lawful_serving reticent_discreet
  have admitted : ∀ event ∈ pass.events,
      (serving made Addon.Discreet fun _ context => context.Discreet).admits event := by
    intro event lived
    cases event with
    | compiled compilation => exact (known compilation lived).2.1
    | evicted | cleared => trivial
  have fresh : ∀ path ∈ ({} : Context.Progress).compiled, path.IsNormal := by simp
  have kept := (Regime.lives_compileRootsFrom lawful
    (fun path allowed _ => lawful.compiled pass.context.target pass.context path false allowed)
    (pass.session.roots.length + pass.limit) 0 fresh pass.session within admitted).1
  rw [compiled] at kept
  have after := ((within_serving_iff governs).mp kept).2
  have evolves := Context.accounts_compileRootsFrom
    (Context.accounts_compileFile serves.discreet.keepsCache.tells · false)
    (pass.session.roots.length + pass.limit) 0 {} pass.session trivial
  rw [compiled] at evolves
  have once : (pass.compilations.map (·.path)).Pairwise fun a b => b.same a = false := by
    have paths : later.roots = pass.compilations.map (·.path) := compiles.roots
    rw [← paths]
    exact after.tidy.once.imp_of_mem fun {a b} member member' differ =>
      Bool.eq_false_iff.mpr fun same => differ
        ((after.tidy.normal b member').eq_of_same (after.tidy.normal a member) same).symm
  refine ⟨progress, later, ⟨compiles, ⟨after.workspace, compiles.grown, after.tidy⟩,
    fun compilation member => ?_⟩, finished⟩
  exact congrArg (Option.bind · CacheEntry.snapshot) (find?_eq_after evolves once member)

/-- A pass tells of the text of each file that could be read, and of the recorded text of the
others. -/
theorem diagnostics_eq_tells (serves : pass.Serves made process)
    (checked : pass.context.transpileOnly = false)
    (apart : ∀ path text, made.texts path text → Service.TellsApart made.texts path text)
    {result : PassResult} {last : Session} (ran : pass.result = .ok result last) :
    pass.session.roots <+: pass.compilations.map (·.path) ∧
      pass.compilations.map (·.path) <+: pass.roots ∧
      (pass.compilations.map (·.path)).Nodup ∧
      pass.diagnostics = pass.tells fun compilation =>
        (compilation.text? process).or compilation.known.snapshot := by
  obtain ⟨progress, later, ⟨compiles, kept, recorded⟩, finished⟩ := exists_compiled serves ran
  have paths : progress.compiled = later.roots :=
    compiles.compiled.trans ((List.nil_append _).trans compiles.roots.symm)
  have normal : ∀ path ∈ progress.compiled, path.IsNormal := paths ▸ kept.tidy.normal
  obtain ⟨grown, told⟩ := Context.diagnostics_of_finish serves.discreet checked kept normal
    (fun path member text known => apart path text (kept.workspace.text_of_get
      (normal path member) ((Cache.snapshot_get ..).trans known))) finished
  have roots : pass.roots = last.roots := by rw [Pass.roots, ran]; rfl
  have diagnostics : pass.diagnostics = result.diagnostics := by rw [Pass.diagnostics, ran]
  have faults : (progress.compiled.flatMap fun path => Context.faultsOf path
      (later.cache.snapshot? ⟨path, pass.context.target⟩)) =
      pass.compilations.flatMap fun compilation => Context.faultsOf compilation.path
        ((compilation.text? process).or compilation.known.snapshot) := by
    rw [compiles.compiled, List.nil_append, List.flatMap_map]
    refine List.flatMap_congr fun compilation member => ?_
    obtain ⟨good, _, processes⟩ := serves.compilations compilation member
    obtain ⟨context, unforced, emission, next, ended⟩ := compiles.each compilation member
    have text := Compilation.snapshot?_of_ok good serves.exact processes unforced ended
    have left := recorded compilation member
    unfold Compilation.after at left
    rw [ended] at left
    rw [← context, Compilation.known, Cache.snapshot_get]
    exact congrArg _ (left.trans text)
  have errors : distinct Diagnostic.same ((pass.context.rootFaults last.roots ++
      (pass.compilations.flatMap fun compilation => Context.faultsOf compilation.path
        ((compilation.text? process).or compilation.known.snapshot))) ++
        pass.compilations.flatMap (·.told)) = pass.tells fun compilation =>
          (compilation.text? process).or compilation.known.snapshot := by
    rw [tells, roots]
    refine distinct_append_flatMap Diagnostic.same_self fun compilation member => ?_
    obtain ⟨good, admits, processes⟩ := serves.compilations compilation member
    obtain ⟨context, _, emission, next, ended⟩ := compiles.each compilation member
    rcases Compilation.told_of_ok good (context ▸ checked) admits processes apart ended with
      same | ⟨none, faults⟩
    · exact .inl same
    · refine .inr ⟨none, fun fault known => List.mem_append_right _
        (List.mem_flatMap.mpr ⟨compilation, member, ?_⟩)⟩
      have current := faults fault known
      cases text : compilation.text? process with
      | none =>
        rw [text] at current
        cases current
      | some text' =>
        rw [text] at current
        exact current
  refine ⟨?_, ?_, ?_, ?_⟩
  · rw [← compiles.roots]
    exact compiles.grown
  · rw [← compiles.roots, roots]
    exact grown
  · exact compiles.roots ▸ kept.tidy.once
  · rw [diagnostics, told, faults, ← errors, compiles.diagnostics]
    rfl

/-- A pass tells of the files as they are exactly if no fault is known of a file that could not be
read: such a fault would be told of a file of which nothing else is said but that. -/
theorem tells_recorded_eq_iff (process : Processing)
    (normal : ∀ compilation ∈ pass.compilations, compilation.path.IsNormal)
    (once : (pass.compilations.map (·.path)).Nodup) :
    (pass.tells fun compilation => (compilation.text? process).or compilation.known.snapshot) =
        pass.tells (·.text? process) ↔
      ∀ compilation ∈ pass.compilations, compilation.content? = none →
        Context.faultsOf compilation.path compilation.known.snapshot = [] := by
  constructor
  · intro same compilation member unread
    have none : compilation.text? process = none := by rw [Compilation.text?, unread]; rfl
    refine List.eq_nil_iff_forall_not_mem.mpr fun fault known => ?_
    obtain ⟨file, code⟩ := Context.file_of_mem_faultsOf known
    have told : ((pass.tells fun compilation =>
        (compilation.text? process).or compilation.known.snapshot).any fault.same) = true := by
      refine any_distinct Diagnostic.same_self (List.mem_append_left _ (List.mem_append_right _ ?_))
      refine List.mem_flatMap.mpr ⟨compilation, member, ?_⟩
      dsimp only
      rw [none]
      exact known
    rw [same] at told
    obtain ⟨other, listed, alike⟩ := List.any_eq_true.mp told
    simp only [Diagnostic.same, Bool.and_eq_true, beq_iff_eq] at alike
    have files := alike.1.1.1.2
    rcases List.mem_append.mp (mem_of_mem_distinct listed) with faults | unreadable
    · rcases List.mem_append.mp faults with place | text
      · rw [file, Context.file_of_mem_rootFaults place] at files
        cases files
      · obtain ⟨twin, lived, text⟩ := List.mem_flatMap.mp text
        rw [file, (Context.file_of_mem_faultsOf text).1] at files
        have path := (normal compilation member).eq_of_same (normal twin lived) files
        obtain rfl := List.inj_on_of_nodup_map once member lived path
        dsimp only at text
        rw [none] at text
        cases text
    · obtain ⟨twin, _, error⟩ := List.mem_flatMap.mp unreadable
      unfold Compilation.readErrors at error
      split at error
      · cases error
      · rw [List.mem_singleton.mp error] at alike
        exact code alike.1.1.1.1.2
  · intro silent
    unfold tells
    refine congrArg (fun faults => distinct Diagnostic.same
      (pass.context.rootFaults pass.roots ++ faults ++ pass.compilations.flatMap (·.readErrors))) ?_
    refine List.flatMap_congr fun compilation member => ?_
    dsimp only
    unfold Compilation.text?
    cases read : compilation.content? with
    | none => exact silent compilation member read
    | some source => rfl

end Pass

section Life

variable {events : List Event} {process : Processing}

/-- What the compilations among some events make of the files, if they process them so. -/
def makingsOf (events : List Event) (process : Processing) : Makings :=
  fun target path source text => text = process target path source ∧
    ∃ compilation, .compiled compilation ∈ events ∧ compilation.key = ⟨path, target⟩ ∧
      compilation.text? process = some text

theorem admits_makingsOf
    (pure : ∀ compilation, .compiled compilation ∈ events → compilation.Processes process)
    {compilation : Compilation} (lived : .compiled compilation ∈ events) :
    compilation.Admits (makingsOf events process) := by
  intro source text later known prepared
  have same := pure compilation lived source text later known prepared
  exact ⟨same, compilation, lived, rfl, by rw [Compilation.text?, known, same]; rfl⟩

theorem tellsApart_makingsOf
    (apart : ∀ first second, .compiled first ∈ events → .compiled second ∈ events →
      first.path = second.path → ∀ text other, first.text? process = some text →
        second.text? process = some other → Digest.of text = Digest.of other → text = other)
    (path : Path) (text : String) (made : (makingsOf events process).texts path text) :
    Service.TellsApart (makingsOf events process).texts path text := by
  intro spelled other same made' digests
  obtain ⟨normal, _, _, _, first, lived, key, known⟩ := made
  obtain ⟨normal', _, _, _, second, lived', key', known'⟩ := made'
  obtain rfl := normal.eq_of_same normal' same
  have paths : second.path = first.path :=
    (congrArg CacheKey.path key').trans (congrArg CacheKey.path key).symm
  exact ⟨rfl, apart second first lived' lived paths other text known' known digests⟩

/-- The text that a compilation finds recorded was made by an earlier one of the same file. -/
theorem exists_earlier {first last : Cache} (evolves : Evolves first events last)
    (fresh : ∀ key, first.snapshot? key = none)
    (pure : ∀ compilation, .compiled compilation ∈ events → compilation.Processes process)
    (normal : ∀ compilation, .compiled compilation ∈ events → compilation.path.IsNormal)
    {compilation : Compilation} (lived : .compiled compilation ∈ events) {text : String}
    (recorded : compilation.known.snapshot = some text) :
    ∃ past earlier future, events = past ++ .compiled compilation :: future ∧
      .compiled earlier ∈ past ∧ earlier.key = compilation.key ∧
        earlier.text? process = some text := by
  obtain ⟨past, future, rfl⟩ := List.append_of_mem lived
  rw [Compilation.known, Cache.snapshot_get] at recorded
  rcases evolves.compiled.1.exists_of_snapshot? recorded with before | ⟨earlier, made, alike, text⟩
  · rw [fresh] at before
    cases before
  · have lived' : .compiled earlier ∈ past ++ .compiled compilation :: future :=
      List.mem_append_left _ made
    obtain ⟨same, targets⟩ := CacheKey.same_iff.mp alike
    have path := (normal compilation lived).eq_of_same (normal earlier lived') same
    obtain ⟨source, later, read, prepared⟩ := Compilation.recorded?_eq_some text
    refine ⟨past, earlier, future, rfl, made, congrArg₂ CacheKey.mk path.symm targets.symm, ?_⟩
    rw [Compilation.text?, read, pure earlier lived' source _ later read prepared]
    rfl

end Life

/-- Whatever a compiler has lived through, with processors that always make the same of a source:
when it compiles, its diagnostics are those of its passes, one after the other, and a pass that
checks types compiles each of its root files once. It tells of the text of each file as it was read,
and if a file cannot be read, of the text that is recorded for it, which an earlier compilation
made. So the pass tells of the files as they are exactly if nothing was wrong with those texts. -/
theorem diagnostics_current_iff {actions : List Action}
    (orderly : ∀ action ∈ actions, action.Orderly Addon.Discreet) {system : Files.System}
    {process : Processing}
    (pure : ∀ compilation, .compiled compilation ∈
      history (actions ++ [.compile]) (.ofSystem system) → compilation.Processes process)
    (apart : ∀ first second,
      .compiled first ∈ history (actions ++ [.compile]) (.ofSystem system) →
      .compiled second ∈ history (actions ++ [.compile]) (.ofSystem system) →
      first.path = second.path → ∀ text other, first.text? process = some text →
        second.text? process = some other → Digest.of text = Digest.of other → text = other)
    {result : PassResult} {next : Compiler}
    (ran : Compiler.compile ((Compiler.ofSystem system).runAll actions) = .ok result next) :
    let course := ((Compiler.ofSystem system).runAll actions).course
    result.diagnostics = course.flatMap (·.diagnostics) ∧
    ∀ pass ∈ course, pass.context.transpileOnly = false →
      (pass.session.roots <+: pass.compilations.map (·.path) ∧
        pass.compilations.map (·.path) <+: pass.roots ∧
        (pass.compilations.map (·.path)).Nodup) ∧
      (pass.diagnostics = pass.tells fun compilation =>
        (compilation.text? process).or compilation.known.snapshot) ∧
      (∀ compilation ∈ pass.compilations, ∀ text, compilation.known.snapshot = some text →
        ∃ past earlier future, history (actions ++ [.compile]) (.ofSystem system) =
            past ++ .compiled compilation :: future ∧
          .compiled earlier ∈ past ∧ earlier.key = compilation.key ∧
            earlier.text? process = some text) ∧
      (pass.diagnostics = pass.tells (·.text? process) ↔
        ∀ compilation ∈ pass.compilations, compilation.content? = none →
          Context.faultsOf compilation.path compilation.known.snapshot = []) := by
  intro course
  let life := history (actions ++ [.compile]) (.ofSystem system)
  have parts : life = history actions (.ofSystem system) ++ _ := history_compile ..
  have admits : ∀ compilation, .compiled compilation ∈ life →
      compilation.Admits (makingsOf life process) := fun _ lived => admits_makingsOf pure lived
  have orderly' : ∀ action ∈ actions ++ [.compile], action.Orderly Addon.Discreet := by
    intro action member
    rcases List.mem_append.mp member with known | last
    · exact orderly action known
    · rw [List.mem_singleton.mp last]
      trivial
  have serves := (serves_history reticent_discreet orderly' system admits).2
  have normal (compilation : Compilation) (lived : .compiled compilation ∈ life) :
      compilation.path.IsNormal := (serves compilation lived).path
  have holds := (serves_history reticent_discreet orderly system fun compilation lived =>
    admits compilation (parts ▸ List.mem_append_left _ lived)).1
  obtain ⟨told, ended⟩ := Compiler.diagnostics_of_compile ran
  refine ⟨told, fun pass member checked => ?_⟩
  have lived (compilation : Compilation) (known : compilation ∈ pass.compilations) :
      .compiled compilation ∈ life := mem_history_of_mem_course member known
  obtain ⟨target, within⟩ := Regime.within_course (founded_serving reticent_discreet) holds
    (fun event known => by
      cases event with
      | compiled compilation => exact admits compilation (parts ▸ List.mem_append_right _ known)
      | evicted | cleared => trivial) pass member
  obtain ⟨discreet, session⟩ := (within_serving_iff reticent_discreet.toGoverns).mp within
  have served : pass.Serves (makingsOf life process) process :=
    ⟨discreet, session, fun compilation known =>
      ⟨serves compilation (lived compilation known), admits compilation (lived compilation known),
        pure compilation (lived compilation known)⟩, fun _ _ _ _ making => making.1⟩
  obtain ⟨own, last, passed⟩ := ended pass member
  obtain ⟨grown, grown', once, tells⟩ :=
    Pass.diagnostics_eq_tells served checked (tellsApart_makingsOf apart) passed
  refine ⟨⟨grown, grown', once⟩, tells, fun compilation known text recorded => ?_, ?_⟩
  · have evolves := chronicles_runAll reticent_discreet.keeping
      (fun action member => (orderly' action member).brings) (Compiler.Holds.ofSystem system)
    exact exists_earlier evolves (fun _ => rfl) pure normal (lived compilation known) recorded
  · rw [tells]
    exact Pass.tells_recorded_eq_iff process
      (fun compilation known => normal compilation (lived compilation known)) once

section Outlived

/-- A script that declares a name again. -/
def outlivedScript : Path := ⟨true, ["a.ts"]⟩

def outlivedSetup : Setup where
  projectRoot := ⟨true, []⟩
  project := { files := [outlivedScript, ⟨true, ["b.ts"]⟩] }
  registry :=
    { explicit := [], project? := none, resolve := fun _ _ _ => .error .notConfigured,
      entries := [] }

def outlivedSystem : Files.System :=
  .memory (((Files.MemoryTree.new ⟨true, []⟩ false).write outlivedScript
    "let a = 1; let a = 2;").write ⟨true, ["b.ts"]⟩ "let b = 2;")

/-- A pass, and the script is removed. -/
def outlivedActions : List Action :=
  [.configure outlivedSetup, .compile, .edit (Files.Edit.remove outlivedScript).run]

private theorem orderly_outlived :
    ∀ action ∈ outlivedActions, action.Orderly Addon.Discreet := by
  have all : outlivedSetup.registry.All Addon.Discreet :=
    ⟨fun _ _ member => by simp [outlivedSetup] at member,
      fun _ _ _ _ loaded => by simp [outlivedSetup] at loaded⟩
  simpa [outlivedActions, Action.Orderly] using all

/-- The life up to another pass. -/
def outlivedHistory : List Event :=
  history (outlivedActions ++ [.compile]) (.ofSystem outlivedSystem)

/-- What is seen of compilations: the files, their texts, and whether nothing processes them. -/
private def readIn (events : List Event) : List (Path × Option String × Bool) :=
  (events.filterMap Event.compilation?).map fun compilation =>
    (compilation.path, compilation.content?,
      compilation.context.generators.isEmpty && compilation.context.processors.isEmpty)

private theorem readIn_outlived : readIn outlivedHistory =
    [(outlivedScript, some "let a = 1; let a = 2;", true),
      (⟨true, ["b.ts"]⟩, some "let b = 2;", true), (outlivedScript, none, true),
      (⟨true, ["b.ts"]⟩, some "let b = 2;", true)] := by
  decide +kernel

private theorem mem_readIn_outlived {compilation : Compilation}
    (lived : .compiled compilation ∈ outlivedHistory) :
    (compilation.path, compilation.content?, compilation.context.generators.isEmpty &&
      compilation.context.processors.isEmpty) ∈ readIn outlivedHistory :=
  List.mem_map.mpr ⟨compilation, List.mem_filterMap.mpr ⟨_, lived, rfl⟩, rfl⟩

private theorem processes_outlived (compilation : Compilation)
    (lived : .compiled compilation ∈ outlivedHistory) :
    compilation.Processes fun _ _ source => source := by
  have bare : compilation.context.generators = [] ∧ compilation.context.processors = [] := by
    have known := mem_readIn_outlived lived
    rw [readIn_outlived] at known
    simp only [List.mem_cons, List.not_mem_nil, or_false, Prod.mk.injEq, Bool.and_eq_true,
      List.isEmpty_iff] at known
    rcases known with known | known | known | known <;> exact known.2.2
  intro source text later _ prepared
  unfold Context.prepare at prepared
  rw [bare.1, bare.2] at prepared
  cases prepared
  rfl

private theorem text_outlived {compilation : Compilation}
    (lived : .compiled compilation ∈ outlivedHistory) {text : String}
    (known : compilation.text? (fun _ _ source => source) = some text) :
    (compilation.path = outlivedScript ∧ text = "let a = 1; let a = 2;") ∨
      (compilation.path = ⟨true, ["b.ts"]⟩ ∧ text = "let b = 2;") := by
  obtain ⟨source, content, rfl⟩ := Option.map_eq_some_iff.mp known
  have listed := mem_readIn_outlived lived
  rw [readIn_outlived, content] at listed
  simp only [List.mem_cons, List.not_mem_nil, or_false, Prod.mk.injEq, Option.some.injEq,
    reduceCtorEq, false_and, and_false] at listed
  rcases listed with ⟨path, text, _⟩ | ⟨path, text, _⟩ | none | ⟨path, text, _⟩
  · exact .inl ⟨path, text⟩
  · exact .inr ⟨path, text⟩
  · exact none.elim
  · exact .inr ⟨path, text⟩

/-- What passes know of the files when they compile them. -/
private def knownIn (passes : List Pass) :
    List (Bool × List (Path × Option String × Option String)) :=
  passes.map fun pass => (pass.context.transpileOnly, pass.compilations.map fun compilation =>
    (compilation.path, compilation.content?, compilation.known.snapshot))

private theorem knownIn_outlived :
    knownIn ((Compiler.ofSystem outlivedSystem).runAll outlivedActions).course =
      [(false, [(outlivedScript, none, some "let a = 1; let a = 2;"),
        (⟨true, ["b.ts"]⟩, some "let b = 2;", some "let b = 2;")])] := by
  decide +kernel

private def toldBy : EStateM.Result Failure Compiler PassResult →
    List (Option Path × Option Nat)
  | .ok result _ => result.diagnostics.map fun diagnostic => (diagnostic.file, diagnostic.code)
  | .error _ _ => []

/-- The pass behind a removed script tells that it cannot be read, and that it declares a name
again. -/
theorem redeclaration_outlives_script :
    let last := (Compiler.ofSystem outlivedSystem).runAll outlivedActions
    ∃ result next, Compiler.compile last = .ok result next ∧
      (result.diagnostics.map fun diagnostic => (diagnostic.file, diagnostic.code)) =
        [(some outlivedScript, some 2451), (some outlivedScript, some 6053)] ∧
      ∃ pass ∈ last.course, pass.diagnostics ≠ pass.tells (·.text? fun _ _ source => source) := by
  intro last
  have told : toldBy (Compiler.compile last) =
      [(some outlivedScript, some 2451), (some outlivedScript, some 6053)] := by
    decide +kernel
  cases ran : Compiler.compile last with
  | error failure next =>
    rw [ran] at told
    cases told
  | ok result next =>
    rw [ran] at told
    have passes := (@diagnostics_current_iff outlivedActions orderly_outlived outlivedSystem
      (fun _ _ source => source) processes_outlived (fun first second lived lived' path text other
        known known' _ => by
          rcases text_outlived lived known with ⟨here, rfl⟩ | ⟨here, rfl⟩ <;>
            rcases text_outlived lived' known' with ⟨there, rfl⟩ | ⟨there, rfl⟩
          · rfl
          · exact absurd (here.symm.trans (path.trans there)) (by decide)
          · exact absurd (here.symm.trans (path.trans there)) (by decide)
          · rfl) result next ran).2
    obtain ⟨pass, single, checked⟩ := List.map_eq_singleton_iff.mp knownIn_outlived
    have member : pass ∈ last.course := by
      rw [single]
      exact List.mem_singleton.mpr rfl
    obtain ⟨checked, compilations⟩ := Prod.mk.inj checked
    refine ⟨result, next, rfl, told, pass, member, fun same => ?_⟩
    obtain ⟨gone, _, listed, here, _⟩ := List.map_eq_cons_iff.mp compilations
    obtain ⟨path, unread⟩ := Prod.mk.inj here
    obtain ⟨unread, known⟩ := Prod.mk.inj unread
    have silent := (passes pass member checked).2.2.2.mp same gone
      (listed ▸ List.mem_cons_self ..) unread
    rw [path, known] at silent
    exact absurd (congrArg List.isEmpty silent) (by decide +kernel)

end Outlived

end Build

end Recast
