import Recast.Proofs.Build.Failing
import Recast.Proofs.Build.Following
import Recast.Proofs.Build.Remembering
import Recast.Proofs.Files.Places

/-! # What the version of a text tells

The cache counts the texts that are recorded for a key. Until its entry is lost, the versions of a
key never decrease, and a version stands for one text (`version_identifies_text`), at all moments at
which the compiler or a language service asks for it. Addons may do to the cache what they like,
short of removing entries. An entry that is lost begins anew, with versions that stood for other
texts (`version_restarts`).
-/

namespace Recast.Build

open Recast.Emit

/-- How an entry goes on: its version never decreases, and while it is the same there is no other
text. A text that was dropped stays dropped. -/
structure CacheEntry.Ages (before after : CacheEntry) : Prop where
  version : before.version ≤ after.version
  text : before.version = after.version →
    after.snapshot = none ∨ after.snapshot = before.snapshot

namespace CacheEntry.Ages

variable {a b c : CacheEntry}

theorem refl (entry : CacheEntry) : entry.Ages entry := ⟨Nat.le_refl _, fun _ => .inr rfl⟩

theorem trans (first : a.Ages b) (second : b.Ages c) : a.Ages c := by
  refine ⟨first.version.trans second.version, fun same => ?_⟩
  have early : a.version = b.version :=
    Nat.le_antisymm first.version (same ▸ second.version)
  rcases second.text (early.symm.trans same) with dropped | kept
  · exact .inl dropped
  · exact (first.text early).imp kept.trans kept.trans

/-- A version stands for one text. -/
theorem text_eq (ages : a.Ages b) (same : a.version = b.version) {text text' : String}
    (before : a.snapshot = some text) (after : b.snapshot = some text') : text = text' := by
  rcases ages.text same with dropped | kept
  · rw [dropped] at after
    cases after
  · rw [kept, before] at after
    exact Option.some.inj after

/-- What no removal does to an entry. -/
theorem of_operation {operation : Operation} (kept : operation.removes = false)
    (held? : Option CacheEntry) :
    (held?.getD {}).Ages ((operation.entryAfter held?).getD {}) := by
  cases operation with
  | update key source processed =>
    change CacheEntry.Ages _ ((held?.getD {}).update source processed)
    unfold CacheEntry.update
    split
    · exact .refl _
    · exact ⟨Nat.le_succ _, fun same => absurd same (Nat.succ_ne_self _).symm⟩
  | ensure key => exact .refl _
  | markStale key =>
    cases held? with
    | none => exact .refl _
    | some entry => exact ⟨Nat.le_refl _, fun _ => .inl rfl⟩
  | markFailed key | setOutputs key outputs =>
    cases held? with
    | none => exact .refl _
    | some entry => exact ⟨Nat.le_refl _, fun _ => .inr rfl⟩
  | remove key => exact Bool.noConfusion kept
  | edit change => exact .refl _

end CacheEntry.Ages

namespace Cache

/-- What a cache tells of a key. -/
abbrev record (cache : Cache) (key : CacheKey) : CacheEntry := cache.get key.path key.target

/-- A cache that was used through its operations, without a removal. -/
def Revised (before after : Cache) : Prop :=
  ∃ operations : List Operation, (∀ operation ∈ operations, operation.removes = false) ∧
    after = operations.foldl Operation.run before

namespace Revised

variable {a b c : Cache}

theorem refl (cache : Cache) : cache.Revised cache := ⟨[], by simp⟩

theorem trans (first : a.Revised b) (second : b.Revised c) : a.Revised c := by
  obtain ⟨operations, kept, rfl⟩ := first
  obtain ⟨more, kept', rfl⟩ := second
  refine ⟨operations ++ more, fun operation member => ?_, (List.foldl_append ..).symm⟩
  exact (List.mem_append.mp member).elim (kept operation) (kept' operation)

theorem of_operation (operation : Operation) (kept : operation.removes = false) (cache : Cache) :
    cache.Revised (operation.run cache) :=
  ⟨[operation], by simpa using kept, rfl⟩

/-- All entries go on. -/
theorem ages (revised : a.Revised b) (key : CacheKey) : (a.record key).Ages (b.record key) := by
  obtain ⟨operations, kept, rfl⟩ := revised
  induction operations generalizing a with
  | nil => exact .refl _
  | cons operation operations ih =>
    refine CacheEntry.Ages.trans ?_ (ih fun other member =>
      kept other (List.mem_cons_of_mem _ member))
    have first := kept operation (List.mem_cons_self ..)
    change ((a.find? key).getD {}).Ages (((operation.run a).find? key).getD {})
    rw [operation.find?_run]
    split
    · exact .of_operation first _
    · exact .refl _

end Revised

end Cache

instance : Std.Refl Cache.Revised := ⟨.refl⟩

instance : IsTrans Cache Cache.Revised := ⟨fun _ _ _ => .trans⟩

/-- A step that uses the cache through its operations, without a removal, whether it fails or
not. -/
abbrev Revises {α : Type} (step : Step α) : Prop :=
  Follows (InvImage Cache.Revised Session.cache) step

theorem disregards_revised : Disregards (InvImage Cache.Revised Session.cache) :=
  ⟨fun a b _ _ _ cache => by
    rw [InvImage, Session.cache, Session.cache, cache]
    exact .refl _⟩

theorem Revises.of_leaves {α : Type} {step : Step α} (leaves : Leaves Session.cache step) :
    Revises step := fun session => by
  have left := leaves session
  rw [InvImage, left]
  exact .refl _

theorem Revises.of_operation (operation : Operation) (kept : operation.removes = false) :
    Revises (Step.modifyCache operation.run) :=
  fun session => Cache.Revised.of_operation operation kept session.cache

/-- Callbacks that do no more to the cache. -/
structure Context.Revises (context : Context) : Prop where
  watch : ∀ watch, context.watch? = some watch → ∀ path workspace next,
    watch path workspace = .ok next → workspace.cache.Revised next.cache
  prepares : context.PreparesIn (InvImage Cache.Revised Session.cache)
  finishes : context.FinishesIn (InvImage Cache.Revised Session.cache)

/-- An addon that does no more to the cache, and registers callbacks of this kind. -/
structure Addon.Revises (addon : Addon) : Prop where
  cache : Follows (InvImage Cache.Revised fun activation : Activation => activation.workspace.cache)
    addon.activate
  context : Preserves (fun activation : Activation => activation.context.Revises) addon.activate

theorem Context.KeepsCache.revises {context : Context} (keeps : context.KeepsCache) :
    context.Revises where
  watch watch wanted path workspace next watched := by
    rw [keeps.watch watch wanted path workspace next watched]
    exact .refl _
  prepares :=
    ⟨fun generator member path source =>
      Revises.of_leaves (keeps.generators generator member path source),
      fun processor member path source =>
        Revises.of_leaves (keeps.processors processor member path source)⟩
  finishes :=
    ⟨fun processor member roots =>
      Revises.of_leaves (keeps.resultProcessors processor member roots),
      fun processor member roots =>
        Revises.of_leaves (keeps.postTransformers processor member roots)⟩

namespace Compilation

/-- The session in which the language service is asked to emit, if it comes to that. -/
def asked? (compilation : Compilation) : Option Session :=
  let ⟨context, path, _, _⟩ := compilation
  if compilation.isServed then none
  else
    match compilation.started.workspace.system.read path with
    | .error _ => none
    | .ok source =>
      match context.prepare path source compilation.started with
      | .error _ _ => none
      | .ok text session => some (session.mapCache (·.update path context.target source text))

variable {compilation : Compilation}

theorem revised_started (compilation : Compilation) :
    compilation.session.cache.Revised compilation.started.cache := by
  unfold started
  split
  · exact .of_operation (.markStale compilation.key) rfl _
  · exact .refl _

theorem revises_settle (context : Context) (path : Path) (emission : Emission) :
    Revises (context.settle path emission) := by
  unfold Context.settle
  dsimp only
  split
  · exact Follows.bind (Revises.of_operation (.markFailed ⟨path, context.target⟩) rfl)
      fun _ => .pure _
  · refine Follows.bind (Revises.of_operation
      (.setOutputs ⟨path, context.target⟩ emission.files) rfl) fun _ => ?_
    split
    · exact Follows.bind (.forM fun file _ => Revises.of_leaves (Step.leaves_cache_write _ _))
        fun _ => .pure _
    · exact .pure _

/-- A compilation revises the cache, until the language service is asked and behind that. -/
theorem revised (compilation : Compilation) (revises : compilation.context.Revises) :
    compilation.session.cache.Revised compilation.after.cache ∧
      ∀ asked, compilation.asked? = some asked →
        compilation.session.cache.Revised asked.cache ∧
        asked.cache.Revised compilation.after.cache := by
  have began := compilation.revised_started
  rw [after, result_eq]
  unfold asked?
  cases compilation.isServed with
  | true =>
    simp only [↓reduceIte, endState_ok]
    exact ⟨.refl _, fun _ same => (by cases same)⟩
  | false =>
    simp only [Bool.false_eq_true, ↓reduceIte]
    rw [Context.run_recompile]
    cases compilation.started.workspace.system.read compilation.path with
    | error error => exact ⟨began, fun _ same => (by cases same)⟩
    | ok source =>
      have prepares := began.trans
        (Context.follows_prepare revises.prepares compilation.path source compilation.started)
      dsimp only
      rw [Context.compileSource_eq, run_bind]
      cases prepared : compilation.context.prepare compilation.path source compilation.started with
      | error failure session =>
        rw [prepared] at prepares
        exact ⟨prepares, fun _ same => (by cases same)⟩
      | ok text session =>
        rw [prepared] at prepares
        have recorded := prepares.trans
          (.of_operation (.update compilation.key source text) rfl session.cache)
        have emits : Revises (compilation.context.emitFile compilation.path text >>=
            compilation.context.settle compilation.path) :=
          (Context.follows_emitFile disregards_revised _ _ text).bind
            fun emission => revises_settle compilation.context compilation.path emission
        have rest := emits
          (session.mapCache (·.update compilation.path compilation.context.target source text))
        exact ⟨recorded.trans rest, fun asked same => Option.some.inj same ▸ ⟨recorded, rest⟩⟩

end Compilation

/-- A moment at which somebody may ask the cache, or an event at which it loses entries. -/
inductive Mark where
  | seen (cache : Cache)
  | lost (event : Event)

/-- Whether a mark is the loss of an entry. -/
def Mark.loses (key : CacheKey) : Mark → Bool
  | seen _ => false
  | lost event => event.forgets key

/-- The moments of a compilation are its beginning, the one at which the language service is asked,
and its end. All other events lose entries. -/
def Event.marks : Event → List Mark
  | compiled compilation =>
    .seen compilation.session.cache ::
      (compilation.asked?.toList.map fun asked => .seen asked.cache) ++
        [.seen compilation.after.cache]
  | event => [.lost event]

/-- The moments and the losses of a life, in order, up to its end. -/
def moments : List Action → Compiler → List Mark
  | [], _ => []
  | action :: actions, compiler =>
    .seen compiler.workspace.cache :: (action.events compiler).flatMap Event.marks ++
      moments actions (action.run compiler)

/-- The moments and the losses of a life. The last moment is its end. -/
def timeline (actions : List Action) (compiler : Compiler) : List Mark :=
  moments actions compiler ++ [.seen (compiler.runAll actions).workspace.cache]

theorem timeline_append (before behind : List Action) (compiler : Compiler) :
    timeline (before ++ behind) compiler =
      moments before compiler ++ timeline behind (compiler.runAll before) := by
  induction before generalizing compiler with
  | nil => rfl
  | cons action before ih =>
    have others := ih (action.run compiler)
    unfold timeline at others ⊢
    simp only [List.cons_append, moments, List.append_assoc]
    exact congrArg (_ :: _ ++ ·) others

/-- An entry goes on along marks. When it is lost, one that knows nothing goes on. -/
def Aged (key : CacheKey) : CacheEntry → List Mark → Prop
  | _, [] => True
  | entry, .seen cache :: marks =>
    entry.Ages (cache.record key) ∧ Aged key (cache.record key) marks
  | entry, .lost event :: marks => Aged key (if event.forgets key then {} else entry) marks

namespace Aged

variable {key : CacheKey} {a b : CacheEntry} {cache last : Cache} {marks past : List Mark}

theorem of_ages (ages : a.Ages b) (aged : Aged key b marks) : Aged key a marks := by
  induction marks generalizing a b with
  | nil => trivial
  | cons mark marks ih =>
    cases mark with
    | seen cache => exact ⟨ages.trans aged.1, aged.2⟩
    | lost event =>
      refine ih ?_ aged
      split
      · exact .refl _
      · exact ages

theorem append (before : Aged key a (past ++ [.seen cache]))
    (behind : Aged key (cache.record key) marks) : Aged key a (past ++ marks) := by
  induction past generalizing a with
  | nil => exact behind.of_ages before.1
  | cons mark past ih =>
    cases mark with
    | seen other => exact ⟨before.1, ih before.2⟩
    | lost event => exact ih before

theorem behind (aged : Aged key a (past ++ marks)) : ∃ entry, Aged key entry marks := by
  induction past generalizing a with
  | nil => exact ⟨a, aged⟩
  | cons mark past ih =>
    cases mark with
    | seen other => exact ih aged.2
    | lost event => exact ih aged

/-- Without a loss the entry of the first moment goes on. -/
theorem ages (aged : Aged key a (past ++ .seen cache :: marks))
    (held : ∀ mark ∈ past, mark.loses key = false) : a.Ages (cache.record key) := by
  induction past generalizing a with
  | nil => exact aged.1
  | cons mark past ih =>
    have others : ∀ mark ∈ past, mark.loses key = false :=
      fun other member => held other (List.mem_cons_of_mem _ member)
    cases mark with
    | seen other => exact aged.1.trans (ih aged.2 others)
    | lost event =>
      have kept : event.forgets key = false := held _ (List.mem_cons_self ..)
      refine ih ?_ others
      rwa [List.cons_append, Aged, kept] at aged

end Aged

/-- All entries go on along the marks of some events. -/
def Ageing (first : Cache) (events : List Event) (last : Cache) : Prop :=
  ∀ key, Aged key (first.record key) (events.flatMap Event.marks ++ [.seen last])

theorem Cache.Revised.ageing {first last : Cache} (revised : first.Revised last) :
    Ageing first [] last := fun key => ⟨revised.ages key, trivial⟩

instance : Chronicle Ageing where
  nil cache _ := ⟨.refl _, trivial⟩
  append before behind key := by
    rw [List.flatMap_append, List.append_assoc]
    exact (before key).append (behind key)
  evicted cache key other := by
    change CacheEntry.Ages (if other.same key then {} else (cache.find? other).getD {})
      (((cache.remove key.path key.target).find? other).getD {}) ∧ True
    rw [Cache.find?_remove]
    refine ⟨?_, trivial⟩
    split <;> exact .refl _
  cleared cache key := ⟨.refl _, trivial⟩

theorem Context.Revises.tells {context : Context} (revises : context.Revises) :
    context.Tells Ageing where
  compiled path force session key := by
    obtain ⟨whole, until_asked⟩ := Compilation.revised ⟨context, path, force, session⟩ revises
    refine ⟨.refl _, ?_⟩
    cases asked : Compilation.asked? ⟨context, path, force, session⟩ with
    | none => exact ⟨whole.ages key, .refl _, trivial⟩
    | some middle =>
      obtain ⟨before, behind⟩ := until_asked middle asked
      exact ⟨before.ages key, behind.ages key, .refl _, trivial⟩
  finished progress session :=
    (Context.follows_finish disregards_revised revises.finishes progress session).ageing

theorem keeping_revises : Keeping Ageing Addon.Revises fun _ context => context.Revises where
  cache _ revises activation := (revises.cache activation).ageing
  bare setup system target roots :=
    (governs_keepsCache.bare setup system target roots).revises
  activated _ revises _ activation := revises.context activation
  withRoots _ _ _ revises :=
    ⟨revises.watch, ⟨revises.prepares.generators, revises.prepares.processors⟩,
      ⟨revises.finishes.resultProcessors, revises.finishes.postTransformers⟩⟩
  tells _ _ revises := revises.tells

/-- All entries go on along a life. -/
theorem aged_timeline {actions : List Action}
    (brings : ∀ action ∈ actions, action.Brings Addon.Revises) {compiler : Compiler}
    (holds : compiler.Holds Addon.Revises fun _ context => context.Revises) (key : CacheKey) :
    Aged key (compiler.cache.record key) (timeline actions compiler) := by
  induction actions generalizing compiler with
  | nil => exact ⟨.refl _, trivial⟩
  | cons action actions ih =>
    have kept := holds.run keeping_revises.toGoverns (brings action (List.mem_cons_self ..))
    have later := ih (fun other member => brings other (List.mem_cons_of_mem _ member)) kept
    have whole := (action.chronicles_events keeping_revises holds key).append later
    rw [timeline, moments, List.cons_append, List.cons_append, List.append_assoc]
    exact ⟨.refl _, whole⟩

/-- A version identifies a text for as long as the entry is not lost: from one moment of a life to a
later one the version of a key does not decrease, and if it is the same and there is a text at both
moments, it is the same text. -/
theorem version_identifies_text {system : Files.System} (limit : Nat) {actions : List Action}
    (brings : ∀ action ∈ actions, action.Brings Addon.Revises) {key key' : CacheKey}
    (alike : key.same key' = true) {past middle future : List Mark} {first last : Cache}
    (lived : timeline actions { Compiler.ofSystem system with rootLimit := limit } =
      past ++ .seen first :: (middle ++ .seen last :: future))
    (held : ∀ mark ∈ middle, mark.loses key = false) :
    (first.record key).version ≤ (last.record key').version ∧
      ((first.record key).version = (last.record key').version →
        ∀ text text', (first.record key).snapshot = some text →
          (last.record key').snapshot = some text' → text = text') := by
  have spelled : last.record key' = last.record key :=
    congrArg (·.getD {}) (last.find?_congr (CacheKey.same_symm alike))
  have holds : ({ Compiler.ofSystem system with rootLimit := limit } : Compiler).Holds Addon.Revises
      fun _ context => context.Revises := ⟨by simp [Compiler.ofSystem], by simp [Compiler.ofSystem]⟩
  have aged := aged_timeline brings holds key
  rw [lived] at aged
  obtain ⟨entry, later⟩ := aged.behind
  have ages := later.2.ages held
  rw [spelled]
  exact ⟨ages.version, fun same text text' => ages.text_eq same⟩

section Restarting

def restartingScript : Path := ⟨true, ["p", "a.ts"]⟩

def restartingSetup : Setup where
  projectRoot := ⟨true, ["p"]⟩
  watch := true
  project := { files := [⟨false, ["a.ts"]⟩] }
  registry :=
    { explicit := [], project? := none, resolve := fun _ _ _ => .error .notConfigured,
      entries := [] }

def restartingCompiler : Compiler :=
  .ofSystem (.memory ((Files.MemoryTree.new ⟨true, []⟩ true).write restartingScript "let a = 1;"))

/-- The script is written, and its watcher tells. -/
def scriptRewritten (text : String) : List Action :=
  [.edit (Files.Edit.write restartingScript text).run, .fileChanged restartingScript]

/-- The script is removed, and its watcher tells. -/
def scriptRemoved : List Action :=
  [.edit (Files.Edit.remove restartingScript).run, .fileChanged restartingScript]

/-- The version of the script, and its text. -/
def restartingRecord (cache : Cache) : Nat × Option String :=
  let entry := cache.record ⟨restartingScript, "*"⟩
  (entry.version, entry.snapshot)

/-- A change that a watcher tells of counts the version up. -/
theorem version_identifies_text_rewritten :
    let early := restartingCompiler.runAll [.configure restartingSetup, .watch]
    let late := early.runAll (scriptRewritten "let a = 2;")
    restartingRecord early.cache = (1, some "let a = 1;") ∧
      restartingRecord late.cache = (2, some "let a = 2;") ∧
      (restartingRecord early.cache).1 ≤ (restartingRecord late.cache).1 := by
  intro early late
  have brings : ∀ action ∈ [.configure restartingSetup, .watch] ++ scriptRewritten "let a = 2;",
      action.Brings Addon.Revises := by
    have all : restartingSetup.registry.All Addon.Revises :=
      ⟨fun _ _ member => by simp [restartingSetup] at member,
        fun _ _ _ _ loaded => by simp [restartingSetup] at loaded⟩
    simpa [scriptRewritten, Action.Brings] using all
  have lived := timeline_append [.configure restartingSetup, .watch] (scriptRewritten "let a = 2;")
    restartingCompiler
  have held : ((moments (scriptRewritten "let a = 2;") early).tail.all
      (!·.loses ⟨restartingScript, "*"⟩)) = true := by decide +kernel
  refine ⟨by decide +kernel, by decide +kernel,
    (version_identifies_text 1000000 brings (CacheKey.same_self _) lived fun mark member => ?_).1⟩
  simpa using List.all_eq_true.mp held mark member

/-- An entry that was evicted begins anew. Its version falls, and is one that stood for another
text. -/
theorem version_restarts :
    let early := restartingCompiler.runAll [.configure restartingSetup, .watch]
    let middle := early.runAll (scriptRewritten "let a = 2;")
    let late := middle.runAll (scriptRemoved ++ scriptRewritten "let a = 3;")
    restartingRecord early.cache = (1, some "let a = 1;") ∧
      restartingRecord middle.cache = (2, some "let a = 2;") ∧
      restartingRecord late.cache = (1, some "let a = 3;") := by
  decide +kernel

end Restarting

end Recast.Build
