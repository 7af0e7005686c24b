import Recast.Proofs.Build.Evolution

/-! # What a failed compilation leaves behind

A file that cannot be read, and one that a generator or a processor refuses, are not recorded. An
emission without output marks the entry. A transformer fails in between: its text is recorded, and
nothing marks the entry.

So the next compilation of the same text runs again after every failure but that last one, which is
served from the cache unless the entry was marked before or was dropped since
(`served_iff_of_isFailure`).
-/

namespace Recast.Build

open Recast.Emit

/-- How a compilation came out. -/
inductive Outcome where
  | served
  | unreadable
  | refused
  | broken
  | skipped
  | emitted
deriving DecidableEq, Repr

/-- A compilation failed unless it had output, from the cache or from emission. -/
def Outcome.isFailure : Outcome → Bool
  | served | emitted => false
  | unreadable | refused | broken | skipped => true

namespace Compilation

/-- The text of the file when the compilation began. -/
def content? (compilation : Compilation) : Option String :=
  (compilation.session.workspace.system.read compilation.path).toOption

/-- What the cache knew of the file when the compilation began. -/
def known (compilation : Compilation) : CacheEntry :=
  compilation.session.cache.get compilation.path compilation.context.target

/-- Whether the cache is asked and knows the outputs. -/
def isServed (compilation : Compilation) : Bool :=
  !compilation.force &&
    !compilation.session.cache.hasChanged compilation.session.workspace.system compilation.path
      compilation.context.target

/-- The session in which the file is read. -/
def started (compilation : Compilation) : Session :=
  if compilation.force then compilation.session.mapCache
    (·.markStale compilation.path compilation.context.target)
  else compilation.session

/-- How a compilation came out. A text that could not be written counts as emitted: its outputs are
recorded. -/
def outcome (compilation : Compilation) : Outcome :=
  let ⟨context, path, _, session⟩ := compilation
  if compilation.isServed then .served
  else
    match session.workspace.system.read path with
    | .error _ => .unreadable
    | .ok source =>
      match context.prepare path source compilation.started with
      | .error _ _ => .refused
      | .ok text session =>
        match context.emitFile path text
          (session.mapCache (·.update path context.target source text)) with
        | .error _ _ => .broken
        | .ok emission _ => if lacksOutput emission then .skipped else .emitted

end Compilation

namespace Compilation

variable {compilation : Compilation}

/-- Unless the cache answers, the file is compiled. -/
theorem result_eq (compilation : Compilation) :
    compilation.result =
      if compilation.isServed then .ok { files := compilation.known.outputs } compilation.session
      else compilation.context.recompile compilation.path compilation.started := by
  obtain ⟨context, path, force, session⟩ := compilation
  cases force with
  | true => exact context.run_compileFile_force path session
  | false =>
    refine (context.run_compileFile path session).trans ?_
    simp only [isServed, started, known, Bool.not_false, Bool.true_and, Bool.false_eq_true,
      ↓reduceIte]
    cases session.workspace.cache.hasChanged session.workspace.system path context.target <;> rfl

/-- How the run of a compilation looks for each of its outcomes. -/
inductive Came (compilation : Compilation) : Outcome → Prop where
  | served (asked : compilation.isServed = true)
      (answer : compilation.result =
        .ok { files := compilation.known.outputs } compilation.session) :
      Came compilation .served
  | unreadable {error : FileError} (missed : compilation.isServed = false)
      (read : compilation.session.workspace.system.read compilation.path = .error error)
      (answer : compilation.result =
        .ok { diagnostics := [Build.unreadable compilation.path error], skipped := true }
          compilation.started) :
      Came compilation .unreadable
  | refused {source : String} {failure : Failure} {session : Session}
    (missed : compilation.isServed = false)
      (read : compilation.session.workspace.system.read compilation.path = .ok source)
      (prepared : compilation.context.prepare compilation.path source compilation.started = .error
        failure session)
      (answer : compilation.result = .error failure session) : Came compilation .refused
  | broken {source text : String} {failure : Failure} {session last : Session}
      (missed : compilation.isServed = false)
      (read : compilation.session.workspace.system.read compilation.path = .ok source)
      (prepared : compilation.context.prepare compilation.path source compilation.started = .ok
        text session)
      (emission : compilation.context.emitFile compilation.path text
        (session.mapCache (·.update compilation.path compilation.context.target source
          text)) = .error failure last)
      (answer : compilation.result = .error failure last) : Came compilation .broken
  | skipped {source text : String} {emission : Emission} {session last : Session}
      (missed : compilation.isServed = false)
      (read : compilation.session.workspace.system.read compilation.path = .ok source)
      (prepared : compilation.context.prepare compilation.path source compilation.started = .ok
        text session)
      (emitted : compilation.context.emitFile compilation.path text
        (session.mapCache (·.update compilation.path compilation.context.target source text)) = .ok
          emission last)
      (answer : compilation.result = .ok { emission with skipped := true }
        (last.mapCache (·.markFailed compilation.path compilation.context.target))) :
          Came compilation .skipped
  | emitted {source text : String} {emission : Emission} {session last : Session}
      (missed : compilation.isServed = false)
      (read : compilation.session.workspace.system.read compilation.path = .ok source)
      (prepared : compilation.context.prepare compilation.path source compilation.started = .ok
        text session)
      (emitted : compilation.context.emitFile compilation.path text
        (session.mapCache (·.update compilation.path compilation.context.target source text)) = .ok
          emission last)
      (counts : lacksOutput emission = false)
      (answer : compilation.result = compilation.context.settle compilation.path emission last) :
      Came compilation .emitted

theorem came (compilation : Compilation) : compilation.Came compilation.outcome := by
  have answer := compilation.result_eq
  unfold outcome
  dsimp only
  cases missed : compilation.isServed with
  | true =>
    simp only [missed, ↓reduceIte] at answer ⊢
    exact .served missed answer
  | false =>
    simp only [missed, Bool.false_eq_true, ↓reduceIte] at answer ⊢
    rw [Context.run_recompile] at answer
    have system : compilation.started.workspace.system = compilation.session.workspace.system := by
      unfold started
      split <;> rfl
    rw [system] at answer
    cases read : compilation.session.workspace.system.read compilation.path with
    | error error =>
      rw [read] at answer
      exact .unreadable missed read answer
    | ok source =>
      rw [read] at answer
      dsimp only at answer ⊢
      rw [Context.run_compileSource] at answer
      cases prepared : compilation.context.prepare compilation.path source compilation.started with
      | error failure session =>
        rw [prepared] at answer
        exact .refused missed read prepared answer
      | ok text session =>
        rw [prepared] at answer
        dsimp only at answer ⊢
        cases emitted : compilation.context.emitFile compilation.path text
            (session.mapCache (·.update compilation.path compilation.context.target source
              text)) with
        | error failure last =>
          rw [emitted] at answer
          exact .broken missed read prepared emitted answer
        | ok emission last =>
          rw [emitted] at answer
          dsimp only at answer ⊢
          cases counts : lacksOutput emission with
          | true =>
            exact .skipped missed read prepared emitted
              (answer.trans (Context.run_settle_of_lacksOutput counts last))
          | false => exact .emitted missed read prepared emitted counts answer

section Entry

variable (keeps : compilation.context.KeepsCache)

/-- The entry of the file when it is read: with `force` it has no snapshot. -/
theorem find?_started (compilation : Compilation) :
    compilation.started.cache.find? compilation.key =
      if compilation.force then (compilation.session.cache.find? compilation.key).map (·.stale)
      else compilation.session.cache.find? compilation.key := by
  unfold started
  cases compilation.force with
  | true =>
    refine (Cache.find?_modify ..).trans ?_
    simp [key]
  | false => rfl

theorem known_eq (compilation : Compilation) :
    compilation.known = (compilation.session.cache.find? compilation.key).getD {} := rfl

/-- The failure mark and the outputs survive the loss of the snapshot. -/
theorem entry_started (compilation : Compilation) :
    ((compilation.started.cache.find? compilation.key).getD {}).failed = compilation.known.failed ∧
      ((compilation.started.cache.find? compilation.key).getD {}).outputs =
        compilation.known.outputs := by
  rw [find?_started, known_eq]
  cases compilation.force <;> cases compilation.session.cache.find? compilation.key
    <;> exact ⟨rfl, rfl⟩

include keeps

/-- A text that was not recorded leaves the entry as it was. -/
theorem find?_after_of_unrecorded
    (unrecorded : compilation.outcome = .unreadable ∨ compilation.outcome = .refused) :
    compilation.after.cache.find? compilation.key =
      compilation.started.cache.find? compilation.key := by
  have came := compilation.came
  unfold after
  rcases unrecorded with unreadable | refused
  · rw [unreadable] at came
    cases came with
    | unreadable _ _ answer => rw [answer, endState_ok]
  · rw [refused] at came
    cases came with
    | @refused source failure session _ _ prepared answer =>
      have left := Context.leaves_cache_prepare keeps compilation.path source compilation.started
      rw [prepared] at left
      rw [answer]
      exact congrArg (·.find? compilation.key) left

/-- The entry of a file once its text is recorded, before and after emission. -/
theorem find?_recorded {source text : String} {session : Session}
    (prepared : compilation.context.prepare compilation.path source compilation.started = .ok text
      session) :
    (endState (compilation.context.emitFile compilation.path text
        (session.mapCache (·.update compilation.path compilation.context.target source
          text)))).cache.find?
          compilation.key =
      some (((compilation.started.cache.find? compilation.key).getD {}).update source text) := by
  have left := Context.leaves_cache_prepare keeps compilation.path source compilation.started
  rw [prepared] at left
  rw [Context.leaves_cache_emitFile]
  refine (Cache.find?_update ..).trans ?_
  rw [show session.workspace.cache = compilation.started.cache from left]
  simp [key]

/-- A transformer that fails leaves the text recorded and nothing marked. -/
theorem find?_after_of_broken (broken : compilation.outcome = .broken) :
    ∃ source text, compilation.content? = some source ∧
      compilation.after.cache.find? compilation.key =
        some (((compilation.started.cache.find? compilation.key).getD {}).update source text) := by
  have came := compilation.came
  rw [broken] at came
  cases came with
  | @broken source text failure session last _ read prepared emission answer =>
    have recorded := find?_recorded keeps prepared
    rw [emission] at recorded
    refine ⟨source, text, by rw [content?, read]; rfl, ?_⟩
    rw [after, answer]
    exact recorded

/-- An emission without output leaves the entry marked. -/
theorem find?_after_of_skipped (skipped : compilation.outcome = .skipped) :
    ∃ entry, compilation.after.cache.find? compilation.key = some entry ∧ entry.failed = true := by
  have came := compilation.came
  rw [skipped] at came
  cases came with
  | @skipped source text emission session last _ read prepared emitted answer =>
    have recorded := find?_recorded keeps prepared
    rw [emitted] at recorded
    refine ⟨(((compilation.started.cache.find? compilation.key).getD {}).update source
      text).withoutOutput, ?_, rfl⟩
    rw [after, answer]
    refine (Cache.find?_modify ..).trans ?_
    simp only [key, CacheKey.same_self, ↓reduceIte]
    exact congrArg (Option.map _) recorded

end Entry

/-- Whether the entry that a compilation finds answers for it. -/
theorem isServed_iff (compilation : Compilation) :
    compilation.isServed = true ↔
      compilation.force = false ∧
        ∃ entry, compilation.session.cache.find? compilation.key = some entry ∧
          entry.isSettled = true ∧ compilation.content? = some entry.source := by
  unfold isServed content? key
  rw [Bool.and_eq_true, Bool.not_eq_true', Bool.not_eq_true', Cache.hasChanged_eq_false_iff]
  refine and_congr_right fun _ => exists_congr fun entry => and_congr_right fun _ =>
    and_congr_right fun _ => ?_
  cases compilation.session.workspace.system.read compilation.path <;> simp [Except.toOption]

theorem outcome_eq_served_iff (compilation : Compilation) :
    compilation.outcome = .served ↔ compilation.isServed = true := by
  have came := compilation.came
  constructor
  · intro served
    rw [served] at came
    cases came with
    | served asked _ => exact asked
  · intro asked
    cases outcome : compilation.outcome <;> rw [outcome] at came <;> cases came <;> simp_all

/-- The entry that a failed compilation leaves answers for its text exactly when a transformer
failed and the entry had no mark before. -/
theorem answers_after_iff (keeps : compilation.context.KeepsCache)
    (failed : compilation.outcome.isFailure = true) :
    (∃ entry, compilation.after.cache.find? compilation.key = some entry ∧ entry.isSettled = true ∧
      compilation.content? = some entry.source) ↔
      compilation.outcome = .broken ∧ compilation.known.failed = false := by
  have came := compilation.came
  cases outcome : compilation.outcome with
  | served | emitted => simp [outcome, Outcome.isFailure] at failed
  | unreadable =>
    rw [outcome] at came
    cases came with
    | unreadable _ read _ => simp [content?, read, Except.toOption]
  | refused =>
    refine iff_of_false ?_ (by simp)
    rintro ⟨entry, known, settled, same⟩
    rw [find?_after_of_unrecorded keeps (.inr outcome), find?_started] at known
    cases forced : compilation.force with
    | true =>
      rw [forced] at known
      obtain ⟨old, _, rfl⟩ := Option.map_eq_some_iff.mp known
      simp [CacheEntry.stale, CacheEntry.isSettled] at settled
    | false =>
      rw [forced] at known
      have served := compilation.isServed_iff.mpr ⟨forced, entry, known, settled, same⟩
      rw [(compilation.outcome_eq_served_iff).mpr served] at outcome
      contradiction
  | broken =>
    obtain ⟨source, text, same, known⟩ := find?_after_of_broken keeps outcome
    have mark := compilation.entry_started.1
    simp [known, same, CacheEntry.isSettled_update, CacheEntry.update_source, mark]
  | skipped =>
    refine iff_of_false ?_ (by simp)
    rintro ⟨entry, known, settled, _⟩
    obtain ⟨marked, found, mark⟩ := find?_after_of_skipped keeps outcome
    rw [found] at known
    cases known
    simp [CacheEntry.isSettled, mark] at settled

/-- The outputs behind a transformer that failed are those from before. -/
theorem outputs_after_of_broken (keeps : compilation.context.KeepsCache)
    (broken : compilation.outcome = .broken) :
    ((compilation.after.cache.find? compilation.key).getD {}).outputs =
      compilation.known.outputs := by
  obtain ⟨source, text, _, known⟩ := find?_after_of_broken keeps broken
  rw [known, Option.getD_some, CacheEntry.update_outputs, compilation.entry_started.2]

end Compilation

/-- A failed compilation answers for the next one of the same text exactly when a transformer
failed, the entry had no mark before, and the cache did not forget it since. The answer is what the
compilation before had given. -/
theorem served_iff_of_isFailure {system : Files.System} {actions : List Action}
    (brings : ∀ action ∈ actions, action.Brings Addon.KeepsCache) {past since future : List Event}
    {earlier later : Compilation}
    (lived : history actions (.ofSystem system) =
      past ++ .compiled earlier :: (since ++ .compiled later :: future))
    (alike : later.key.same earlier.key = true)
    (next : ∀ event ∈ since, event.compiles earlier.key = false)
    (failed : earlier.outcome.isFailure = true) (unforced : later.force = false)
    (unchanged : later.content? = earlier.content?) :
    (later.outcome = .served ↔
      earlier.outcome = .broken ∧ earlier.known.failed = false ∧
        ∀ event ∈ since, event.forgets earlier.key = false) ∧
    (later.outcome = .served →
      later.result = .ok { files := earlier.known.outputs, skipped := false } later.session) := by
  have evolves := evolves_history brings (Compiler.Holds.ofSystem (A := Addon.KeepsCache)
    (C := fun _ context => context.KeepsCache) system)
  rw [lived] at evolves
  obtain ⟨_, keeps, behind⟩ := evolves.compiled
  have between := behind.compiled.1.find?_eq next
  rw [← Cache.find?_congr _ alike] at between
  have left := Compilation.answers_after_iff keeps failed
  have asked := later.isServed_iff
  rw [between, unchanged] at asked
  have condition : later.isServed = true ↔
      earlier.outcome = .broken ∧ earlier.known.failed = false ∧ ∀ event ∈ since,
        event.forgets earlier.key = false := by
    rw [asked]
    cases forgotten : since.any (·.forgets earlier.key) with
    | true =>
      obtain ⟨event, member, forgets⟩ := List.any_eq_true.mp forgotten
      simp only [↓reduceIte, reduceCtorEq, false_and, exists_const, and_false, false_iff]
      rintro ⟨_, _, kept⟩
      simp [kept event member] at forgets
    | false =>
      have kept : ∀ event ∈ since, event.forgets earlier.key = false := by simpa using forgotten
      simp only [Bool.false_eq_true, ↓reduceIte, left, unforced, true_and]
      constructor
      · rintro ⟨broken, unmarked⟩
        exact ⟨broken, unmarked, kept⟩
      · rintro ⟨broken, unmarked, _⟩
        exact ⟨broken, unmarked⟩
  refine ⟨later.outcome_eq_served_iff.trans condition, fun served => ?_⟩
  have served := later.outcome_eq_served_iff.mp served
  obtain ⟨broken, _, kept⟩ := condition.mp served
  have undisturbed : since.any (·.forgets earlier.key) = false := by simpa using kept
  have outputs := Compilation.outputs_after_of_broken keeps broken
  rw [undisturbed, if_neg Bool.false_ne_true] at between
  rw [later.result_eq, if_pos served, later.known_eq, between, outputs]

section Stubborn

/-- An addon with a transformer that always fails. -/
def stubbornAddon : Addon where
  name := "stubborn"
  activate := Activation.registerTransformers .emit
    { before := [fun _ => throw (.addon "stubborn" "no")] }

def stubbornSetup : Setup where
  projectRoot := ⟨true, []⟩
  project := { files := [⟨true, ["a"]⟩] }
  transpileOnly := true
  registry :=
    { explicit := [], project? := none, resolve := fun _ _ _ => .error .notConfigured,
      entries := [("stubborn", .loaded stubbornAddon)] }

private theorem brings_stubborn : (Action.configure stubbornSetup).Brings Addon.KeepsCache := by
  have keeps : stubbornAddon.KeepsCache := ⟨fun _ => rfl, fun activation keeps =>
    ⟨keeps.watch, keeps.generators, keeps.processors, keeps.resultProcessors,
      keeps.postTransformers⟩⟩
  exact Registry.All.of_only keeps rfl fun _ _ _ _ => nofun

/-- The compilations of a history that cleared the cache and then compiled twice. -/
private def compiledTwice? : List Event → Option (Compilation × Compilation)
  | [.cleared, .compiled earlier, .compiled later] => some (earlier, later)
  | _ => none

private theorem eq_of_compiledTwice? {events : List Event} {pair : Compilation × Compilation}
    (found : compiledTwice? events = some pair) :
    events = [.cleared, .compiled pair.1, .compiled pair.2] := by
  unfold compiledTwice? at found
  split at found
  · cases found
    rfl
  · cases found

/-- Two passes over one file with that addon: the first fails, and the second answers without it. -/
theorem served_behind_stubborn :
    let actions := [.configure stubbornSetup, .compile, .compile]
    let system : Files.System :=
      .memory ((Files.MemoryTree.new ⟨true, []⟩ false).write ⟨true, ["a"]⟩ "let a = 1;")
    ∃ earlier later, history actions (.ofSystem system) =
      [.cleared, .compiled earlier, .compiled later] ∧ later.key.same earlier.key = true ∧
      later.force = false ∧ later.content? = earlier.content? ∧ earlier.outcome = .broken ∧
      later.result = .ok { files := [], skipped := false } later.session := by
  intro actions system
  have checked : ((compiledTwice? (history actions (.ofSystem system))).any fun pair =>
      decide ((pair.2.key.same pair.1.key = true ∧ pair.2.force = false ∧
        pair.2.content? = pair.1.content?) ∧ pair.1.outcome = .broken ∧ pair.1.known = {})) =
        true := by
    decide +kernel
  obtain ⟨⟨earlier, later⟩, found⟩ : ∃ pair, compiledTwice? (history actions (.ofSystem system)) =
      some pair := by
    cases found : compiledTwice? (history actions (.ofSystem system)) with
    | none =>
      rw [found] at checked
      cases checked
    | some pair => exact ⟨pair, rfl⟩
  rw [found, Option.any_some] at checked
  have lived := eq_of_compiledTwice? found
  obtain ⟨⟨alike, unforced, unchanged⟩, broken, known⟩ := of_decide_eq_true checked
  have brings : ∀ action ∈ actions, action.Brings Addon.KeepsCache := by
    simpa [actions, Action.Brings] using brings_stubborn
  have spelled : history actions (.ofSystem system) =
      [.cleared] ++ .compiled earlier :: ([] ++ [.compiled later]) :=
    lived
  have answers := served_iff_of_isFailure brings spelled alike (by simp) (by rw [broken]; rfl)
    unforced unchanged
  have served := answers.1.mpr ⟨broken, by rw [known], by simp⟩
  refine ⟨earlier, later, lived, alike, unforced, unchanged, broken, ?_⟩
  rw [answers.2 served, known]

end Stubborn

end Recast.Build
