import Mathlib.Data.List.Induction
import Mathlib.Data.List.TakeWhile
import Recast.Proofs.Build.Entries

/-! # What the cache remembers

The cache lives through operations on its keys and edits of the files. Of each key the life is what
happened to it since its entry was last removed, with the answers that were given (`lifeOf`). The
entry sums its life up: one operation keeps the summary (`Summary.step`), so every history does, and
what the cache tells about a key can be read off its life alone (`cache_summary`).
-/

namespace Recast.Build

/-- An operation on a key of the cache, or an edit of the files. -/
inductive Operation where
  | update (key : CacheKey) (source processed : String)
  | ensure (key : CacheKey)
  | markStale (key : CacheKey)
  | markFailed (key : CacheKey)
  | setOutputs (key : CacheKey) (outputs : List OutputFile)
  | remove (key : CacheKey)
  | edit (change : Files.System → Files.System)

namespace Operation

/-- The cache behind an operation. -/
def run (cache : Cache) : Operation → Cache
  | update key source processed => cache.update key.path key.target source processed
  | ensure key => cache.ensure key.path key.target
  | markStale key => cache.markStale key.path key.target
  | markFailed key => cache.markFailed key.path key.target
  | setOutputs key outputs => cache.setOutputs key.path key.target outputs
  | remove key => cache.remove key.path key.target
  | edit _ => cache

/-- The answer to an operation: whether it recorded something new. -/
def answer (cache : Cache) : Operation → Bool
  | update key source processed => cache.isNews key.path key.target source processed
  | _ => false

/-- The files behind an operation. -/
def runFiles (system : Files.System) : Operation → Files.System
  | edit change => change system
  | _ => system

/-- The key that an operation is about. -/
def key? : Operation → Option CacheKey
  | update key _ _ | ensure key | markStale key | markFailed key | setOutputs key _ | remove key =>
    some key
  | edit _ => none

/-- Whether an operation is about a key, in any spelling. -/
def concerns (key : CacheKey) (operation : Operation) : Bool :=
  operation.key?.any key.same

/-- Whether there is an entry behind an operation in any case. -/
def creates : Operation → Bool
  | update _ _ _ | ensure _ => true
  | _ => false

def removes : Operation → Bool
  | remove _ => true
  | _ => false

/-- The source and the processed text that an operation records or, if it marks an entry as stale,
takes back. -/
def recorded? : Operation → Option (Option (String × String))
  | update _ source processed => some (some (source, processed))
  | markStale _ => some none
  | _ => none

def outputs? : Operation → Option (List OutputFile)
  | setOutputs _ outputs => some outputs
  | _ => none

/-- Whether the compilation that an operation tells of had no output. -/
def failed? : Operation → Option Bool
  | setOutputs _ _ => some false
  | markFailed _ => some true
  | _ => none

end Operation

/-- The cache behind some operations. -/
def cacheAfter (operations : List Operation) : Cache :=
  operations.foldl Operation.run {}

/-- The files behind some operations. -/
def filesAfter (system : Files.System) (operations : List Operation) : Files.System :=
  operations.foldl Operation.runFiles system

/-- Operations with their answers, from a cache on. -/
def answersFrom (cache : Cache) : List Operation → List (Operation × Bool)
  | [] => []
  | operation :: operations =>
    (operation, operation.answer cache) :: answersFrom (operation.run cache) operations

/-- What has happened to a key since its entry was last removed. -/
def lifeOf (key : CacheKey) (answered : List (Operation × Bool)) : List (Operation × Bool) :=
  ((answered.filter (·.1.concerns key)).reverse.takeWhile (!·.1.removes)).reverse

/-- What a life tells, from the first operation on that made an entry. -/
def effective (life : List (Operation × Bool)) : List (Operation × Bool) :=
  life.dropWhile (!·.1.creates)

/-- The latest text that was recorded, unless it was marked as stale since. -/
def current? (life : List (Operation × Bool)) : Option (String × String) :=
  (life.filterMap (·.1.recorded?)).getLastD none

/-- The latest outputs of an entry. -/
def latestOutputs (life : List (Operation × Bool)) : List OutputFile :=
  ((effective life).filterMap (·.1.outputs?)).getLastD []

/-- Whether the latest compilation of an entry had no output. -/
def latestFailed (life : List (Operation × Bool)) : Bool :=
  ((effective life).filterMap (·.1.failed?)).getLastD false

section Entries

/-- The text that an entry has recorded. -/
def CacheEntry.recorded? (entry : CacheEntry) : Option (String × String) :=
  entry.snapshot.map (entry.source, ·)

theorem CacheEntry.records_iff {entry : CacheEntry} {source processed : String} :
    entry.records source processed = true ↔ entry.recorded? = some (source, processed) := by
  simp only [records, recorded?, Bool.and_eq_true, beq_iff_eq, Option.map_eq_some_iff,
    Prod.mk.injEq]
  constructor
  · rintro ⟨same, known⟩
    exact ⟨processed, known, same, rfl⟩
  · rintro ⟨text, known, same, rfl⟩
    exact ⟨same, known⟩

/-- A settled entry has recorded a text and knows of outputs. -/
theorem CacheEntry.isSettled_and_iff {entry : CacheEntry} {p : String → Prop} :
    entry.isSettled = true ∧ p entry.source ↔
      ∃ source processed, entry.recorded? = some (source, processed) ∧ entry.failed = false ∧
        p source := by
  rw [isSettled, recorded?]
  cases entry.snapshot <;> simp

/-- A text counts once, when it is recorded. -/
theorem CacheEntry.version_update (entry : CacheEntry) (source processed : String) :
    (entry.update source processed).version =
      entry.version + if !entry.records source processed then 1 else 0 := by
  rw [update]
  cases entry.records source processed <;> rfl

theorem CacheEntry.recorded?_update (entry : CacheEntry) (source processed : String) :
    (entry.update source processed).recorded? = some (source, processed) := by
  rw [recorded?, update_snapshot, update_source]
  rfl

/-- What an operation makes of the entry of its key. -/
def Operation.entryAfter (held? : Option CacheEntry) : Operation → Option CacheEntry
  | update _ source processed => some ((held?.getD {}).update source processed)
  | ensure _ => some (held?.getD {})
  | markStale _ => held?.map (·.stale)
  | markFailed _ => held?.map (·.withoutOutput)
  | setOutputs _ outputs => held?.map (·.withOutputs outputs)
  | remove _ => none
  | edit _ => held?

/-- What makes an entry tells nothing of outputs. -/
theorem Operation.silent_of_creates {operation : Operation} (makes : operation.creates = true) :
    operation.outputs? = none ∧ operation.failed? = none := by
  cases operation with
  | update | ensure => exact ⟨rfl, rfl⟩
  | markStale | markFailed | setOutputs | remove | edit => exact Bool.noConfusion makes

section Parts

variable (held? : Option CacheEntry) {operation : Operation}

theorem Operation.isSome_entryAfter (kept : operation.removes = false) :
    (operation.entryAfter held?).isSome = (held?.isSome || operation.creates) := by
  cases operation with
  | remove key => exact Bool.noConfusion kept
  | _ => cases held? <;> rfl

theorem Operation.recorded?_entryAfter (kept : operation.removes = false) :
    ((operation.entryAfter held?).getD {}).recorded? =
      operation.recorded?.getD (held?.getD {}).recorded? := by
  cases operation with
  | update key source processed => exact CacheEntry.recorded?_update _ source processed
  | remove key => exact Bool.noConfusion kept
  | _ => cases held? <;> rfl

theorem Operation.outputs_entryAfter (kept : operation.removes = false) :
    ((operation.entryAfter held?).getD {}).outputs =
      if held?.isSome then operation.outputs?.getD (held?.getD {}).outputs else [] := by
  cases operation with
  | update key source processed =>
    cases held? <;> exact CacheEntry.update_outputs _ source processed
  | remove key => exact Bool.noConfusion kept
  | _ => cases held? <;> rfl

theorem Operation.failed_entryAfter (kept : operation.removes = false) :
    ((operation.entryAfter held?).getD {}).failed =
      if held?.isSome then operation.failed?.getD (held?.getD {}).failed else false := by
  cases operation with
  | update key source processed =>
    cases held? <;> exact CacheEntry.update_failed _ source processed
  | remove key => exact Bool.noConfusion kept
  | _ => cases held? <;> rfl

/-- The version counts what was news. -/
theorem Operation.version_entryAfter {cache : Cache} {key : CacheKey}
    (about : operation.concerns key = true) (kept : operation.removes = false) :
    ((operation.entryAfter (cache.find? key)).getD {}).version =
      ((cache.find? key).getD {}).version + if operation.answer cache then 1 else 0 := by
  cases operation with
  | update other source processed =>
    have alike : key.same other = true := about
    rw [cache.find?_congr alike]
    exact CacheEntry.version_update _ source processed
  | remove other => exact Bool.noConfusion kept
  | _ => cases cache.find? key <;> rfl

end Parts

/-- An operation changes the entry of its key only. -/
theorem Operation.find?_run (operation : Operation) (cache : Cache) (key : CacheKey) :
    (operation.run cache).find? key =
      if operation.concerns key then operation.entryAfter (cache.find? key) else
        cache.find? key := by
  cases operation with
  | update other source processed => exact cache.find?_update _ _ source processed key
  | ensure other =>
    change (cache.set other.path other.target (cache.get other.path other.target)).find? key = _
    rw [Cache.find?_set]
    cases alike : key.same ⟨other.path, other.target⟩ with
    | true =>
      have known := cache.find?_congr alike
      simp [Cache.get, Cache.get?_eq_find?, concerns, key?, alike, entryAfter, known]
    | false => simp [concerns, key?, alike]
  | markStale other => exact cache.find?_modify _ _ _ key
  | markFailed other => exact cache.find?_modify _ _ _ key
  | setOutputs other outputs => exact cache.find?_modify _ _ _ key
  | remove other => exact cache.find?_remove _ _ key
  | edit change => rfl

/-- Recording something is news unless just that is recorded. -/
theorem Operation.answer_update_iff {cache : Cache} {key : CacheKey} {source processed : String} :
    (update key source processed).answer cache = true ↔
      ((cache.find? key).getD {}).recorded? ≠ some (source, processed) := by
  change (!((cache.find? key).getD {}).records source processed) = true ↔ _
  rw [Bool.not_eq_true', Bool.eq_false_iff, ne_eq, CacheEntry.records_iff]

end Entries

section Lives

variable {life : List (Operation × Bool)} {operation : Operation} {news : Bool}

private theorem effective_eq_nil_iff : effective life = [] ↔ life.any (·.1.creates) = false := by
  rw [effective, List.dropWhile_eq_nil_iff, List.any_eq_false]
  simp only [Bool.not_eq_true', Bool.not_eq_true]

/-- What is effective when something happens after a life. -/
private theorem effective_concat (life : List (Operation × Bool)) (event : Operation × Bool) :
    effective (life ++ [event]) =
      if life.any (·.1.creates) || event.1.creates then effective life ++ [event] else [] := by
  have unfolded : effective (life ++ [event]) =
      if (effective life).isEmpty = true then effective [event] else effective life ++ [event] :=
    List.dropWhile_append
  rw [unfolded]
  cases known : life.any (·.1.creates) with
  | true =>
    have filled : ¬(effective life).isEmpty = true := by
      rw [List.isEmpty_iff, effective_eq_nil_iff, known]
      exact Bool.noConfusion
    rw [if_neg filled]
    rfl
  | false =>
    rw [effective_eq_nil_iff.mpr known]
    cases made : event.1.creates <;> simp [effective, made]

/-- The latest value that a life tells of its entry, when something happens after it. -/
private theorem latest_concat {β : Type} (tell : Operation → Option β) (start : β)
    (silent : operation.creates = true → tell operation = none) :
    ((effective (life ++ [(operation, news)])).filterMap (tell ·.1)).getLastD start =
      if life.any (·.1.creates) then
        (tell operation).getD (((effective life).filterMap (tell ·.1)).getLastD start)
      else start := by
  rw [effective_concat]
  cases known : life.any (·.1.creates) with
  | true => cases told : tell operation <;> simp [told]
  | false =>
    rw [effective_eq_nil_iff.mpr known]
    cases made : operation.creates with
    | true => simp [silent made]
    | false => simp

private theorem current?_concat :
    current? (life ++ [(operation, news)]) = operation.recorded?.getD (current? life) := by
  rw [current?, List.filterMap_append]
  cases told : operation.recorded? <;> simp [told, current?]

end Lives

section Summaries

/-- An entry sums up a life. Where there is none, an entry that knows nothing stands for it. -/
structure Summary (life : List (Operation × Bool)) (held? : Option CacheEntry) : Prop where
  known : held?.isSome = life.any (·.1.creates)
  version : (held?.getD {}).version = life.countP (·.2)
  recorded : (held?.getD {}).recorded? = current? life
  outputs : (held?.getD {}).outputs = latestOutputs life
  failed : (held?.getD {}).failed = latestFailed life

theorem summary_nil : Summary [] none := ⟨rfl, rfl, rfl, rfl, rfl⟩

/-- What happens to a key is summed up in its entry. -/
theorem Summary.step {life : List (Operation × Bool)} {cache : Cache} {key : CacheKey}
    (summary : Summary life (cache.find? key)) {operation : Operation}
    (about : operation.concerns key = true) (kept : operation.removes = false) :
    Summary (life ++ [(operation, operation.answer cache)]) ((operation.run cache).find? key) := by
  obtain ⟨known, version, recorded, outputs, failed⟩ := summary
  rw [operation.find?_run, if_pos about]
  constructor
  · rw [Operation.isSome_entryAfter _ kept, known, List.any_append, List.any_cons, List.any_nil,
      Bool.or_false]
  · rw [Operation.version_entryAfter about kept, version, List.countP_append,
      List.countP_singleton]
  · rw [Operation.recorded?_entryAfter _ kept, recorded, current?_concat]
  · rw [Operation.outputs_entryAfter _ kept, known, outputs]
    exact (latest_concat Operation.outputs? [] fun makes =>
      (Operation.silent_of_creates makes).1).symm
  · rw [Operation.failed_entryAfter _ kept, known, failed]
    exact (latest_concat Operation.failed? false fun makes =>
      (Operation.silent_of_creates makes).2).symm

end Summaries

section Histories

/-- What has happened to a key when one more operation is through. -/
private theorem lifeOf_concat (key : CacheKey) (answered : List (Operation × Bool))
    (event : Operation × Bool) :
    lifeOf key (answered ++ [event]) =
      if event.1.concerns key then
        if event.1.removes then [] else lifeOf key answered ++ [event]
      else lifeOf key answered := by
  rw [lifeOf, List.filter_append]
  cases about : event.1.concerns key with
  | false => simp [about, lifeOf]
  | true => cases gone : event.1.removes <;> simp [about, gone, lifeOf]

private theorem answersFrom_concat (cache : Cache) (operations : List Operation)
    (operation : Operation) :
    answersFrom cache (operations ++ [operation]) =
      answersFrom cache operations ++
        [(operation, operation.answer (operations.foldl Operation.run cache))] := by
  induction operations generalizing cache with
  | nil => rfl
  | cons first operations ih => exact congrArg (_ :: ·) (ih (first.run cache))

/-- Behind any history, the entry of a key sums up the life of the key. -/
theorem summary_cacheAfter (operations : List Operation) (key : CacheKey) :
    Summary (lifeOf key (answersFrom {} operations)) ((cacheAfter operations).find? key) := by
  induction operations using List.reverseRecOn with
  | nil => exact summary_nil
  | append_singleton operations operation ih =>
    have next : cacheAfter (operations ++ [operation]) =
        operation.run (cacheAfter operations) := List.foldl_append
    rw [answersFrom_concat, lifeOf_concat, next]
    split
    · next about =>
      split
      · next gone =>
        cases operation with
        | remove other =>
          rw [Operation.find?_run, if_pos about]
          exact summary_nil
        | _ => exact Bool.noConfusion gone
      · next kept => exact ih.step about (Bool.eq_false_iff.mpr kept)
    · next other =>
      rw [Operation.find?_run, if_neg other]
      exact ih

/-- The cache is a summary of its history. Operations on other keys leave an entry alone. There is
an entry if something made one in the life of the key; recording a text is news unless it is the
latest one; the version counts the news, and the outputs are the latest ones. A file has not changed
if its latest text was recorded and not taken back, its latest compilation had output, and it reads
as the source of that text. -/
theorem cache_summary (system : Files.System) (operations : List Operation) (key : CacheKey) :
    let cache := cacheAfter operations
    let files := filesAfter system operations
    let life := lifeOf key (answersFrom {} operations)
    (∀ operation : Operation, operation.concerns key = false →
      (operation.run cache).get? key.path key.target = cache.get? key.path key.target) ∧
    (cache.contains key.path key.target = true ↔ ∃ event ∈ life, event.1.creates = true) ∧
    (∀ source processed, (Operation.update key source processed).answer cache = true ↔
      current? life ≠ some (source, processed)) ∧
    (cache.get key.path key.target).version = life.countP (·.2) ∧
    (cache.get key.path key.target).outputs = latestOutputs life ∧
    (cache.hasChanged files key.path key.target = false ↔
      ∃ source processed, current? life = some (source, processed) ∧
        latestFailed life = false ∧ files.read key.path = .ok source) := by
  intro cache files life
  obtain ⟨known, version, recorded, outputs, failed⟩ := summary_cacheAfter operations key
  refine ⟨fun operation other => ?_, ?_, fun source processed => ?_, version, outputs, ?_⟩
  · have kept := operation.find?_run cache key
    rw [other] at kept
    exact kept
  · have made : cache.contains key.path key.target = life.any (·.1.creates) := known
    rw [made, List.any_eq_true]
  · rw [Operation.answer_update_iff, recorded]
  · rw [Cache.hasChanged_eq_false_iff, ← recorded, ← failed]
    change (∃ entry, (cacheAfter operations).find? key = some entry ∧ _) ↔ _
    cases (cacheAfter operations).find? key with
    | none => simp [CacheEntry.recorded?]
    | some entry =>
      have settled := @CacheEntry.isSettled_and_iff entry fun text =>
        files.read key.path = .ok text
      simpa using settled

end Histories

end Recast.Build
