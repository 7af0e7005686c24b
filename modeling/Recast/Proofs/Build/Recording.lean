import Recast.Proofs.Build.Failing

/-! # The text that is recorded

A compilation that gets as far as to prepare the source of its file records what came of it; every
other compilation leaves the recorded text as it is (`snapshot?_after`). So a text that is recorded
for a file was prepared in a compilation of it (`Evolves.exists_of_snapshot?`).
-/

namespace Recast.Build

open Recast.Emit

namespace Cache

/-- The text that is recorded for a key. -/
def snapshot? (cache : Cache) (key : CacheKey) : Option String :=
  (cache.find? key).bind (·.snapshot)

theorem snapshot?_congr (cache : Cache) {a b : CacheKey} (alike : a.same b = true) :
    cache.snapshot? a = cache.snapshot? b :=
  congrArg (Option.bind · CacheEntry.snapshot) (cache.find?_congr alike)

theorem snapshot_get (cache : Cache) (path : Path) (target : String) :
    (cache.get path target).snapshot = cache.snapshot? ⟨path, target⟩ := by
  unfold get snapshot?
  rw [get?_eq_find?]
  cases cache.find? ⟨path, target⟩ <;> rfl

/-- A change of an entry that is not about its text. -/
theorem snapshot?_modify {f : CacheEntry → CacheEntry}
    (kept : ∀ entry, (f entry).snapshot = entry.snapshot) (cache : Cache) (path : Path)
    (target : String) (key : CacheKey) :
    (cache.modify path target f).snapshot? key = cache.snapshot? key := by
  unfold snapshot?
  rw [find?_modify]
  split
  · cases cache.find? key with
    | none => rfl
    | some entry => exact kept entry
  · rfl

end Cache

namespace Context

/-- The end of a compilation is not about the text of the file. -/
theorem leaves_snapshot?_settle (context : Context) (path : Path) (emission : Emission)
    (key : CacheKey) :
    Leaves (fun session : Session => session.cache.snapshot? key)
      (context.settle path emission) := by
  rw [settle_eq]
  refine Leaves.bind (fun session => Cache.snapshot?_modify (settledEntry_snapshot emission)
    session.cache path context.target key) fun _ => ?_
  exact (Leaves.forM fun file _ session => congrArg (Cache.snapshot? · key)
    (Step.leaves_cache_write _ _ session)).bind fun _ => Leaves.pure _

end Context

namespace Compilation

/-- The text that a compilation records: what is prepared of a source that was read. -/
def recorded? (compilation : Compilation) : Option String :=
  if compilation.isServed then none
  else
    match compilation.session.workspace.system.read compilation.path with
    | .error _ => none
    | .ok source =>
      match compilation.context.prepare compilation.path source compilation.started with
      | .error _ _ => none
      | .ok text _ => some text

variable {compilation : Compilation}

theorem recorded?_eq_some {text : String} (recorded : compilation.recorded? = some text) :
    ∃ source later, compilation.content? = some source ∧
      compilation.context.prepare compilation.path source compilation.started =
        .ok text later := by
  unfold recorded? at recorded
  split at recorded
  · cases recorded
  · split at recorded
    · cases recorded
    · next source read =>
      split at recorded
      · cases recorded
      · next later prepared =>
        cases recorded
        exact ⟨source, later, by rw [content?, read]; rfl, prepared⟩

/-- With `force` no text is recorded when the file is read. -/
theorem snapshot?_started (compilation : Compilation) :
    compilation.started.cache.snapshot? compilation.key =
      if compilation.force then none else compilation.session.cache.snapshot? compilation.key := by
  unfold Cache.snapshot?
  rw [find?_started]
  cases compilation.force with
  | true => cases compilation.session.cache.find? compilation.key <;> rfl
  | false => rfl

/-- What is recorded behind a compilation, however it ends. -/
theorem snapshot?_after (keeps : compilation.context.KeepsCache) :
    compilation.after.cache.snapshot? compilation.key =
      compilation.recorded?.or (compilation.started.cache.snapshot? compilation.key) := by
  unfold after recorded?
  rw [result_eq]
  cases missed : compilation.isServed with
  | true =>
    have unforced := (compilation.isServed_iff.mp missed).1
    rw [snapshot?_started, unforced]
    rfl
  | false =>
    have system : compilation.started.workspace.system = compilation.session.workspace.system := by
      unfold started
      split <;> rfl
    simp only [Bool.false_eq_true, ↓reduceIte]
    rw [Context.run_recompile, system]
    cases compilation.session.workspace.system.read compilation.path with
    | error error => rfl
    | ok source =>
      have left := Context.leaves_cache_prepare keeps compilation.path source compilation.started
      dsimp only
      rw [Context.run_compileSource]
      cases prepared : compilation.context.prepare compilation.path source compilation.started with
      | error failure later =>
        rw [prepared] at left
        exact congrArg (Cache.snapshot? · compilation.key) left
      | ok text later =>
        have recorded := congrArg (Option.bind · CacheEntry.snapshot)
          (find?_recorded keeps prepared)
        simp only [Option.bind_some, CacheEntry.update_snapshot] at recorded
        dsimp only
        cases emitted : compilation.context.emitFile compilation.path text
            (later.mapCache (·.update compilation.path compilation.context.target source
              text)) with
        | error failure last =>
          rw [emitted] at recorded
          exact recorded
        | ok emission last =>
          rw [emitted] at recorded
          exact (Context.leaves_snapshot?_settle _ _ _ _ last).trans recorded

end Compilation

/-- What is recorded behind an event was recorded before, or the event compiled the file. -/
private theorem Evolution.snapshot?_eq_some {first last : Cache} {event : Event} {key : CacheKey}
    {text : String} (step : Evolution first event last)
    (recorded : last.snapshot? key = some text) :
    first.snapshot? key = some text ∨ ∃ compilation, event = .compiled compilation ∧
      key.same compilation.key = true ∧ compilation.recorded? = some text := by
  cases step with
  | compiled compilation keeps =>
    cases alike : key.same compilation.key with
    | true =>
      rw [Cache.snapshot?_congr _ alike, Compilation.snapshot?_after keeps] at recorded
      rcases Option.or_eq_some_iff.mp recorded with now | ⟨_, before⟩
      · exact .inr ⟨compilation, rfl, alike, now⟩
      · rw [Compilation.snapshot?_started] at before
        split at before
        · cases before
        · exact .inl ((Cache.snapshot?_congr _ alike).trans before)
    | false =>
      have left := Context.leaves_find?_compileFile alike keeps compilation.force
        compilation.session
      exact .inl ((congrArg (Option.bind · CacheEntry.snapshot) left).symm.trans recorded)
  | evicted _ gone =>
    unfold Cache.snapshot? at recorded
    rw [Cache.find?_remove] at recorded
    split at recorded
    · cases recorded
    · exact .inl recorded
  | cleared => simp [Cache.snapshot?] at recorded

/-- What is recorded behind events was recorded before them, or one of them recorded it. -/
theorem Evolves.exists_of_snapshot? {first last : Cache} {events : List Event} {key : CacheKey}
    {text : String} (evolves : Evolves first events last)
    (recorded : last.snapshot? key = some text) :
    first.snapshot? key = some text ∨ ∃ compilation, .compiled compilation ∈ events ∧
      key.same compilation.key = true ∧ compilation.recorded? = some text := by
  induction evolves with
  | nil => exact .inl recorded
  | cons step rest ih =>
    rcases ih recorded with middle | ⟨compilation, member, alike, made⟩
    · rcases step.snapshot?_eq_some middle with before | ⟨compilation, rfl, alike, made⟩
      · exact .inl before
      · exact .inr ⟨compilation, List.mem_cons_self .., alike, made⟩
    · exact .inr ⟨compilation, List.mem_cons_of_mem _ member, alike, made⟩

end Recast.Build
