import Recast.Proofs.Build.Evolution
import Recast.Proofs.Build.Planned

/-! # What one target sees of a shared workspace

Two sessions are alike to a target when they have the same root files, the same entries of the
target, files that differ only by permitted writes, and services that only know permitted trees. A
step that succeeds in one session succeeds in an alike one with the same answer (`Mirrors`), and
everything a pass is put together from does (`mirrors_compileAll`).
-/

namespace Recast.Build

open Recast.Emit Recast.Script Recast.Files

variable {α β : Type}

namespace Bounds

/-- A root file under the spelling that the compiler has for it. -/
def Lists (bounds : Bounds) (root : Path) : Prop :=
  bounds.roots root ∧ root.IsNormal

/-- The texts that are parsed for a path. -/
def parsed (bounds : Bounds) (path : Path) (text : String) : Prop :=
  bounds.Lists path ∧ bounds.texts path text

theorem Fair.tellsApart {bounds : Bounds} (fair : bounds.Fair) {path : Path} {text : String}
    (parsed : bounds.parsed path text) : Service.TellsApart bounds.parsed path text := by
  intro spelled other same known digests
  have here := known.1.2.eq_of_same parsed.1.2 (Path.same_symm same)
  subst here
  exact ⟨rfl, fair.digests spelled other text known.1.1 known.2 parsed.2 digests⟩

end Bounds

/-- Two sessions of a target, alone and among others. What others left in the cache stays as it
was. -/
structure Alike (bounds : Bounds) (target : String) (others : Cache) (alone among : Session) :
    Prop where
  roots : among.roots = alone.roots
  listed : ∀ root ∈ alone.roots, bounds.Lists root
  entries : ∀ path, among.cache.find? ⟨path, target⟩ = alone.cache.find? ⟨path, target⟩
  others : ∀ key, key.target ≠ target → among.cache.find? key = others.find? key
  recorded : ∀ root entry text, bounds.Lists root → alone.cache.find? ⟨root, target⟩ = some entry →
    entry.snapshot = some text → bounds.texts root text
  reached : bounds.Reaches alone.workspace.system ∧ bounds.Reaches among.workspace.system
  faithful : alone.workspace.service.Faithful bounds.parsed ∧
    among.workspace.service.Faithful bounds.parsed

/-- A step that succeeds in the first of two related states succeeds in the second one, with the
same answer. -/
def Mirrors {ε σ : Type} (R : σ → σ → Prop) (x : EStateM ε σ α) : Prop :=
  ∀ s t, R s t → ∀ a later, x s = .ok a later → ∃ later', x t = .ok a later' ∧ R later later'

namespace Mirrors

variable {ε σ : Type} {R : σ → σ → Prop}

theorem pure (a : α) : Mirrors R (Pure.pure a : EStateM ε σ α) := by
  rintro s t related _ _ ⟨⟩
  exact ⟨t, rfl, related⟩

theorem throw (e : ε) : Mirrors R (throw e : EStateM ε σ α) := by
  rintro s t related _ _ ⟨⟩

theorem modify {f : σ → σ} (kept : ∀ s t, R s t → R (f s) (f t)) :
    Mirrors R (modify f : EStateM ε σ PUnit) := by
  rintro s t related _ _ ⟨⟩
  exact ⟨f t, rfl, kept s t related⟩

theorem bind {x : EStateM ε σ α} {f : α → EStateM ε σ β} (first : Mirrors R x)
    (next : ∀ a, Mirrors R (f a)) :
    Mirrors R (x >>= f) := by
  intro s t related b later ran
  rw [run_bind] at ran
  cases middle : x s with
  | error e s' => simp [middle] at ran
  | ok a s' =>
    rw [middle] at ran
    obtain ⟨t', ran', related'⟩ := first s t related a s' middle
    obtain ⟨last, ran'', related''⟩ := next a s' t' related' b later ran
    exact ⟨last, (run_bind_ok ran').trans ran'', related''⟩

theorem forM {xs : List β} {f : β → EStateM ε σ PUnit} (each : ∀ x ∈ xs, Mirrors R (f x)) :
    Mirrors R (xs.forM f) := by
  induction xs with
  | nil => exact .pure _
  | cons x xs ih =>
    exact (each x (List.mem_cons_self ..)).bind fun _ => ih fun y member =>
      each y (List.mem_cons_of_mem _ member)

end Mirrors

namespace Alike

variable {bounds : Bounds} {target : String} {others : Cache} {alone among : Session}

/-- Root files read the same, whoever wrote meanwhile. -/
theorem read (alike : Alike bounds target others alone among) (fair : bounds.Fair) {root : Path}
    (isRoot : bounds.roots root) :
    alone.workspace.system.read root = bounds.system.read root ∧
      among.workspace.system.read root = bounds.system.read root :=
  ⟨fair.reads _ alike.reached.1 root isRoot, fair.reads _ alike.reached.2 root isRoot⟩

/-- A change of the workspace that is not about files, cache and service does not matter. -/
theorem modifyWorkspace (alike : Alike bounds target others alone among)
    {f g : Workspace → Workspace}
    (first : ∀ workspace, (f workspace).system = workspace.system ∧
      (f workspace).cache = workspace.cache ∧ (f workspace).service = workspace.service)
    (second : ∀ workspace, (g workspace).system = workspace.system ∧
      (g workspace).cache = workspace.cache ∧ (g workspace).service = workspace.service) :
    Alike bounds target others { alone with workspace := f alone.workspace }
      { among with workspace := g among.workspace } := by
  obtain ⟨system, cache, service⟩ := first alone.workspace
  obtain ⟨system', cache', service'⟩ := second among.workspace
  refine ⟨alike.roots, alike.listed, fun path => ?_, fun key apart => ?_,
    fun root entry text isRoot known => ?_, ?_, ?_⟩
  · change (g among.workspace).cache.find? _ = (f alone.workspace).cache.find? _
    rw [cache, cache']
    exact alike.entries path
  · change (g among.workspace).cache.find? _ = _
    rw [cache']
    exact alike.others key apart
  · change (f alone.workspace).cache.find? _ = _ at known
    rw [cache] at known
    exact alike.recorded root entry text isRoot known
  · change bounds.Reaches (f alone.workspace).system ∧ bounds.Reaches (g among.workspace).system
    rw [system, system']
    exact alike.reached
  · change (f alone.workspace).service.Faithful _ ∧ (g among.workspace).service.Faithful _
    rw [service, service']
    exact alike.faithful

theorem withService (alike : Alike bounds target others alone among) {service service' : Service}
    (faithful : service.Faithful bounds.parsed) (faithful' : service'.Faithful bounds.parsed) :
    Alike bounds target others (alone.withService service) (among.withService service') :=
  ⟨alike.roots, alike.listed, alike.entries, alike.others, alike.recorded, alike.reached, faithful,
    faithful'⟩

theorem withSystem (alike : Alike bounds target others alone among) {system system' : System}
    (reached : bounds.Reaches system) (reached' : bounds.Reaches system') :
    Alike bounds target others (alone.withSystem system) (among.withSystem system') :=
  ⟨alike.roots, alike.listed, alike.entries, alike.others, alike.recorded, ⟨reached, reached'⟩,
    alike.faithful⟩

/-- A change of one entry of the target, which records only permitted texts. -/
theorem mapCache (alike : Alike bounds target others alone among) {f : Cache → Cache} {path : Path}
    (change : Option CacheEntry → Option CacheEntry)
    (changes : ∀ cache key, (f cache).find? key =
      if key.same ⟨path, target⟩ then change (cache.find? key) else cache.find? key)
    (permitted : ∀ root, bounds.Lists root → root.same path = true → ∀ known entry text,
      change known = some entry → entry.snapshot = some text →
        bounds.texts root text ∨ ∃ old, known = some old ∧ old.snapshot = some text) :
    Alike bounds target others (alone.mapCache f) (among.mapCache f) := by
  refine ⟨alike.roots, alike.listed, fun other => ?_, fun key apart => ?_,
    fun root entry text isRoot known => ?_, alike.reached, alike.faithful⟩
  · change (f among.cache).find? _ = (f alone.cache).find? _
    rw [changes, changes, alike.entries]
  · change (f among.cache).find? _ = _
    rw [changes, CacheKey.same_eq_false_of_target_ne apart, if_neg Bool.false_ne_true]
    exact alike.others key apart
  · change (f alone.cache).find? _ = _ at known
    intro snapshot
    rw [changes] at known
    split at known
    · next same =>
      rcases permitted root isRoot (CacheKey.same_iff.mp same).1 _ entry text known snapshot with
        allowed | ⟨old, found, snapshot'⟩
      · exact allowed
      · exact alike.recorded root old text isRoot found snapshot'
    · exact alike.recorded root entry text isRoot known snapshot

end Alike

namespace Step

theorem run_write_of_none {session : Session} {path : Path} {text : String}
    (written : (session.workspace.system.write path text).2 = none) :
    write path text session =
      .ok () (session.withSystem (session.workspace.system.write path text).1) := by
  unfold write
  rw [run_bind_ok (run_workspace session)]
  cases wrote : session.workspace.system.write path text with
  | mk system error =>
    rw [wrote] at written
    cases written
    rfl

end Step

theorem Scope.run_addInput (scope : Scope) (path : Path) (session : Session) :
    scope.addInput path session =
      let input := session.workspace.system.resolve (scope.projectRoot.join path)
      if session.roots.any (input.same ·) then .ok false session
      else .ok true { session with roots := session.roots ++ [input] } := by
  unfold addInput
  rw [run_bind_ok (run_get session)]
  dsimp only
  split <;> rfl

/-- A scope watches through the workspace, and only where that is supported. -/
def Scope.WatchesIn (scope : Scope) (system : System) : Prop :=
  ∀ watch, scope.watch? = some watch → system.supportsWatch = true ∧ watch = fun path workspace =>
    workspace.watch path

section Steps

variable {bounds : Bounds} {target : String} {others : Cache} {scope : Scope}

theorem mirrors_write (fair : bounds.Fair) {path : Path} {text : String}
    (permitted : bounds.writes path text) :
    Mirrors (Alike bounds target others) (Step.write path text) := by
  intro alone among alike _ later ran
  have first := Step.run_write_of_none (fair.writes _ alike.reached.1 path text permitted)
  have second := Step.run_write_of_none (fair.writes _ alike.reached.2 path text permitted)
  rw [first] at ran
  cases ran
  exact ⟨_, second, alike.withSystem (alike.reached.1.write permitted)
    (alike.reached.2.write permitted)⟩

theorem mirrors_modifyWorkspace {f : Workspace → Workspace}
    (frame : ∀ workspace, (f workspace).system = workspace.system ∧
      (f workspace).cache = workspace.cache ∧ (f workspace).service = workspace.service) :
    Mirrors (Alike bounds target others) (Step.modifyWorkspace f) :=
  .modify fun _ _ alike => alike.modifyWorkspace frame frame

theorem mirrors_addInput {path : Path}
    (permitted : bounds.roots (bounds.system.resolve (scope.projectRoot.join path))) :
    Mirrors (Alike bounds target others) (scope.addInput path) := by
  intro alone among alike added later ran
  have current := alike.reached.1.frame.1
  have current' := alike.reached.2.frame.1
  rw [Scope.run_addInput] at ran ⊢
  unfold System.resolve at permitted ran ⊢
  rw [current] at ran
  rw [current', alike.roots]
  dsimp only at ran ⊢
  split at ran
  · next known =>
    cases ran
    exact ⟨among, by rw [if_pos known], alike⟩
  · next fresh =>
    cases ran
    refine ⟨_, if_neg fresh, rfl, fun root member => ?_, alike.entries, alike.others,
      alike.recorded, alike.reached, alike.faithful⟩
    rcases List.mem_append.mp member with known | new
    · exact alike.listed root known
    · rw [List.mem_singleton.mp new]
      exact ⟨permitted, Path.isNormal_resolveFrom _ _⟩

/-- Watching never fails where it is supported, and no answer depends on what is watched. -/
theorem mirrors_watchFile (watches : scope.WatchesIn bounds.system) (path : Path) :
    Mirrors (Alike bounds target others) (scope.watchFile path) := by
  unfold Scope.watchFile
  cases wanted : scope.watch? with
  | none => exact .pure _
  | some watch =>
    obtain ⟨supported, rfl⟩ := watches watch wanted
    have ran {session : Session} (reached : bounds.Reaches session.workspace.system) :
        ∃ workspace, session.workspace.watch path = .ok workspace ∧
          workspace.cache = session.workspace.cache ∧
          workspace.service = session.workspace.service ∧ bounds.Reaches workspace.system := by
      unfold Workspace.watch
      split
      · exact ⟨_, rfl, rfl, rfl, reached⟩
      · obtain ⟨⟨number, watched, next⟩, opened⟩ :=
          (System.watch_spec session.workspace.system path).1 (reached.frame.2.trans supported)
        rw [opened]
        exact ⟨_, rfl, rfl, rfl, reached.watch opened⟩
    intro alone among alike _ later answered
    obtain ⟨workspace, opened, cache, service, reached⟩ := ran alike.reached.1
    obtain ⟨workspace', opened', cache', service', reached'⟩ := ran alike.reached.2
    dsimp only at answered ⊢
    rw [run_bind_ok (Step.run_workspace _), opened] at answered
    rw [run_bind_ok (Step.run_workspace _), opened']
    cases answered
    refine ⟨_, rfl, alike.roots, alike.listed, fun other => ?_, fun key apart => ?_, ?_,
      ⟨reached, reached'⟩, ?_⟩
    · change workspace'.cache.find? _ = workspace.cache.find? _
      rw [cache, cache']
      exact alike.entries other
    · change workspace'.cache.find? _ = _
      rw [cache']
      exact alike.others key apart
    · change ∀ root entry text, bounds.Lists root → workspace.cache.find? _ = _ → _
      rw [cache]
      exact alike.recorded
    · change workspace.service.Faithful _ ∧ workspace'.service.Faithful _
      rw [service, service']
      exact alike.faithful

theorem mirrors_perform (fair : bounds.Fair) (watches : scope.WatchesIn bounds.system)
    {effect : Effect} (permitted : bounds.Permits scope effect) :
    Mirrors (Alike bounds target others) (effect.perform scope) := by
  cases effect with
  | write path text => exact mirrors_write fair permitted
  | report diagnostic =>
    exact mirrors_modifyWorkspace (f := (·.report diagnostic)) fun _ => ⟨rfl, rfl, rfl⟩
  | line text =>
    exact mirrors_modifyWorkspace (f := fun workspace =>
      { workspace with journal := workspace.journal ++ [text] })
      fun _ => ⟨rfl, rfl, rfl⟩
  | input path => exact (mirrors_addInput permitted).bind fun _ => .pure _
  | watch path => exact mirrors_watchFile watches path

/-- A planned step mirrors, and answers within its bounds. -/
theorem mirrors_of_planned (fair : bounds.Fair) (watches : scope.WatchesIn bounds.system)
    {answers : α → Prop} {step : Step α} (planned : Planned bounds scope answers step) :
    Mirrors (Alike bounds target others) step := by
  obtain ⟨plan, rfl, permitted, _⟩ := planned
  refine (Mirrors.forM fun effect member =>
    mirrors_perform fair watches (permitted effect member)).bind fun _ => ?_
  cases plan.outcome with
  | ok a => exact .pure a
  | error failure => exact .throw failure

theorem Planned.answers_of_ok {answers : α → Prop} {step : Step α}
    (planned : Planned bounds scope answers step) {session later : Session} {a : α}
    (ran : step session = .ok a later) : answers a := by
  obtain ⟨plan, rfl, _, answered⟩ := planned
  unfold Plan.run at ran
  rw [run_bind] at ran
  split at ran
  · cases given : plan.outcome with
    | ok b =>
      rw [given] at ran
      cases ran
      exact answered _ given
    | error failure =>
      rw [given] at ran
      cases ran
  · cases ran

end Steps

namespace Alike

variable {bounds : Bounds} {target : String} {others : Cache} {alone among : Session}

theorem update (alike : Alike bounds target others alone among) {path : Path} {text : String}
    (source : String) (listed : bounds.Lists path) (allowed : bounds.texts path text) :
    Alike bounds target others (alone.mapCache (·.update path target source text))
      (among.mapCache (·.update path target source text)) := by
  refine alike.mapCache (fun known => some ((known.getD {}).update source text))
    (fun cache key => cache.find?_update path target source text key)
      fun root isRoot same known entry other made snapshot => ?_
  cases made
  rw [CacheEntry.update_snapshot] at snapshot
  cases snapshot
  rw [isRoot.2.eq_of_same listed.2 same]
  exact .inl allowed

/-- A change of an entry that keeps its snapshot or drops it. -/
theorem modify (alike : Alike bounds target others alone among) (path : Path)
    {f : CacheEntry → CacheEntry}
    (kept : ∀ entry text, (f entry).snapshot = some text → entry.snapshot = some text) :
    Alike bounds target others (alone.mapCache (·.modify path target f))
      (among.mapCache (·.modify path target f)) := by
  refine alike.mapCache (Option.map f) (fun cache key => cache.find?_modify path target f key)
    fun root _ _ known entry text changed snapshot => ?_
  obtain ⟨old, found, rfl⟩ := Option.map_eq_some_iff.mp changed
  exact .inr ⟨old, found, kept old text snapshot⟩

end Alike

namespace Context

variable {bounds : Bounds} {others : Cache} {context : Context}

theorem mirrors_settle (fair : bounds.Fair) {root : Path} {emission : Emission}
    (permitted : context.writesFiles = true → ∀ file ∈ emission.files,
      bounds.writes file.name file.diskText) :
    Mirrors (Alike bounds context.target others) (context.settle root emission) := by
  rw [settle_eq]
  refine Mirrors.bind (.modify fun alone among alike => alike.modify root fun entry text kept =>
    settledEntry_snapshot emission entry ▸ kept) fun _ => ?_
  refine Mirrors.bind (.forM fun file member => ?_) fun _ => .pure _
  obtain ⟨writes, made⟩ := mem_of_mem_placed member
  exact mirrors_write fair (permitted writes file made)

/-- A recorded text is emitted alike: the answer of the transformers does not depend on the
journal. -/
theorem mirrors_emitFile (fair : bounds.Fair) (plans : context.Plans bounds) {root : Path}
    {text : String} (listed : bounds.Lists root) (allowed : context.Allows bounds root text)
    {alone among later : Session} (alike : Alike bounds context.target others alone among)
    (recorded : context.snapshot? alone root = some text) {emission : Emission}
    (ran : context.emitFile root text alone = .ok emission later) :
    ∃ later', context.emitFile root text among = .ok emission later' ∧
      Alike bounds context.target others later later' ∧
      (context.writesFiles = true → ∀ file ∈ emission.files,
      bounds.writes file.name file.diskText) := by
  have parsed : bounds.parsed root text := ⟨listed, allowed.1⟩
  have apart := fair.tellsApart parsed
  have same : context.snapshot? among root = context.snapshot? alone root :=
    congrArg (fun known : Option CacheEntry => (known.getD {}).snapshot) (alike.entries root)
  obtain ⟨service, faithful, emitted⟩ :=
    run_emitFile_of_tellsApart recorded alike.faithful.1 parsed apart
  obtain ⟨service', faithful', emitted'⟩ :=
    run_emitFile_of_tellsApart (same.trans recorded) alike.faithful.2 parsed apart
  have steady : Steady (context.emits root text) :=
    Steady.composes.emits (Steady.composes.run plans.transformers) root text
  rw [emitted] at ran
  unfold Step.journaled at ran
  dsimp only at ran
  split at ran
  · next answer journal given =>
    cases ran
    obtain ⟨journal', given'⟩ :=
      steady.run_of_ok given (among.withService service').workspace.journal
    refine ⟨_, ?_, (alike.withService faithful faithful').modifyWorkspace
      (f := fun workspace => { workspace with journal := journal })
      (g := fun workspace => { workspace with journal := journal' }) (fun _ => ⟨rfl, rfl, rfl⟩)
        fun _ => ⟨rfl, rfl, rfl⟩,
      fun writes => allowed.2 writes _ _ _ given⟩
    rw [emitted']
    unfold Step.journaled
    dsimp only
    rw [given']
  · cases ran

theorem mirrors_recompile (fair : bounds.Fair) (plans : context.Plans bounds)
    (watches : context.toScope.WatchesIn bounds.system) {root : Path} (listed : bounds.Lists root) :
    Mirrors (Alike bounds context.target others) (context.recompile root) := by
  intro alone among alike emission last ran
  obtain ⟨here, there⟩ := alike.read fair listed.1
  rw [run_recompile, here] at ran
  rw [run_recompile, there]
  cases read : bounds.system.read root with
  | error error =>
    rw [read] at ran
    cases ran
    exact ⟨among, rfl, alike⟩
  | ok source =>
    rw [read] at ran
    dsimp only at ran ⊢
    rw [run_compileSource] at ran ⊢
    have planned := plans.prepare root source listed.1 read
    cases prepared : context.prepare root source alone with
    | error failure later => simp [prepared] at ran
    | ok text later =>
      obtain ⟨later', prepared', alike'⟩ :=
        mirrors_of_planned fair watches planned alone among alike text later prepared
      have allowed := planned.answers_of_ok prepared
      rw [prepared] at ran
      rw [prepared']
      dsimp only at ran ⊢
      have updated := alike'.update source listed allowed.1
      have recorded : context.snapshot? (later.mapCache (·.update root context.target source text))
          root = some text := by
        change (((later.cache.update root context.target source text).find?
          ⟨root, context.target⟩).getD {}).snapshot = _
        rw [Cache.find?_update, CacheKey.same_self]
        exact CacheEntry.update_snapshot ..
      cases emitted : context.emitFile root text
        (later.mapCache (·.update root context.target source text)) with
      | error failure next => simp [emitted] at ran
      | ok answer next =>
        obtain ⟨next', emitted', alike'', permitted⟩ :=
          mirrors_emitFile fair plans listed allowed updated recorded emitted
        rw [emitted] at ran
        rw [emitted']
        exact mirrors_settle fair permitted next next' alike'' emission last ran

/-- A file is compiled or served alike. -/
theorem mirrors_compileFile (fair : bounds.Fair) (plans : context.Plans bounds)
    (watches : context.toScope.WatchesIn bounds.system) {root : Path} (listed : bounds.Lists root)
    (force : Bool) :
    Mirrors (Alike bounds context.target others) (context.compileFile root force) := by
  have compiled : Mirrors (Alike bounds context.target others) (context.recompile root) :=
    mirrors_recompile fair plans watches listed
  cases force with
  | true =>
    refine Mirrors.bind (.modify fun alone among alike =>
      alike.modify root fun entry text kept => ?_) fun _ => compiled
    simp [CacheEntry.stale] at kept
  | false =>
    intro alone among alike emission later ran
    obtain ⟨here, there⟩ := alike.read fair listed.1
    have entry := alike.entries root
    have changed : among.workspace.cache.hasChanged among.workspace.system root context.target =
        alone.workspace.cache.hasChanged alone.workspace.system root context.target := by
      unfold Cache.hasChanged
      rw [Cache.get?_eq_find?, Cache.get?_eq_find?, here, there, entry]
    have served : among.workspace.cache.get root context.target =
        alone.workspace.cache.get root context.target :=
      congrArg (fun known : Option CacheEntry => known.getD {}) entry
    rw [run_compileFile] at ran ⊢
    rw [changed]
    split at ran
    · next new =>
      rw [if_pos new]
      exact compiled alone among alike emission later ran
    · next old =>
      rw [if_neg old, served]
      cases ran
      exact ⟨among, rfl, alike⟩

/-- The root files of a pass, those that are added meanwhile too, are compiled alike. -/
theorem mirrors_compileRootsFrom (fair : bounds.Fair) (plans : context.Plans bounds)
    (watches : context.toScope.WatchesIn bounds.system) (force : Bool) (fuel index : Nat)
    {progress : Progress} (within : ∀ path ∈ progress.compiled, bounds.Lists path)
    {alone among : Session} (alike : Alike bounds context.target others alone among)
    {progress' : Progress} {later : Session}
    (ran : context.compileRootsFrom (context.compileFile · force) fuel index progress alone = .ok
      progress' later) :
    ∃ later', context.compileRootsFrom (context.compileFile · force) fuel index progress among =
      .ok progress' later' ∧ Alike bounds context.target others later later' ∧
      ∀ path ∈ progress'.compiled, bounds.Lists path := by
  induction fuel, index, progress, alone, ran using compileRootsFrom_induction
    generalizing among with
  | ended short =>
    exact ⟨among, run_compileRootsFrom_of_end (alike.roots ▸ short), alike, within⟩
  | @compiled _ _ progress alone root emission next found compiled _ ih =>
    have listed := alike.listed root (List.mem_of_getElem? found)
    obtain ⟨next', compiled', alike'⟩ :=
      mirrors_compileFile fair plans watches listed force alone among alike emission next compiled
    have more : ∀ path ∈ (progress.add root emission).compiled, bounds.Lists path := by
      intro path member
      rcases List.mem_append.mp member with known | new
      · exact within path known
      · exact List.mem_singleton.mp new ▸ listed
    obtain ⟨later', rest', ended⟩ := ih more alike'
    refine ⟨later', ?_, ended⟩
    rw [run_compileRootsFrom_succ (alike.roots ▸ found), run_bind_ok compiled', rest']

/-- Diagnostics are collected alike: the service answers for the target that asks, from trees that
are its own. -/
theorem mirrors_collectDiagnostics (fair : bounds.Fair) {files : List Path}
    (within : ∀ path ∈ files, bounds.Lists path) (emitted : List Diagnostic) :
    Mirrors (Alike bounds context.target others) (context.collectDiagnostics files emitted) := by
  intro alone among alike diagnostics later ran
  have same (path : Path) : context.snapshot? among path = context.snapshot? alone path :=
    congrArg (fun known : Option CacheEntry => (known.getD {}).snapshot) (alike.entries path)
  have parsed : ∀ path ∈ files, ∀ text, context.snapshot? alone path = some text →
      bounds.parsed path text := by
    intro path member text recorded
    refine ⟨within path member, ?_⟩
    change ((alone.cache.find? ⟨path, context.target⟩).getD {}).snapshot = some text at recorded
    cases found : alone.cache.find? ⟨path, context.target⟩ with
    | none => simp [found] at recorded
    | some entry =>
      rw [found] at recorded
      exact alike.recorded path entry text (within path member) found recorded
  obtain ⟨found, service, faithful, collected, exact⟩ :=
    run_collectDiagnostics emitted alike.faithful.1 parsed
  obtain ⟨found', service', faithful', collected', exact'⟩ :=
    run_collectDiagnostics emitted alike.faithful.2
    (fun path member text recorded => parsed path member text ((same path).symm.trans recorded))
  have alone_eq := exact fun path member text recorded =>
    fair.tellsApart (parsed path member text recorded)
  have among_eq := exact' fun path member text recorded =>
    fair.tellsApart (parsed path member text ((same path).symm.trans recorded))
  have agree : found' = found := by
    rw [alone_eq, among_eq, alike.roots]
    simp only [same]
  rw [collected] at ran
  cases ran
  exact ⟨_, by rw [collected', agree], alike.withService faithful faithful'⟩

theorem mirrors_finish (fair : bounds.Fair) (plans : context.Plans bounds)
    (watches : context.toScope.WatchesIn bounds.system) {progress : Progress}
    (within : ∀ path ∈ progress.compiled, bounds.Lists path) :
    Mirrors (Alike bounds context.target others) (context.finish progress) := by
  intro alone among alike result later ran
  have roots : ∀ root ∈ alone.roots, bounds.roots root := fun root member =>
    (alike.listed root member).1
  unfold finish at ran ⊢
  rw [run_bind_ok (run_get alone)] at ran
  rw [run_bind_ok (run_get among), alike.roots]
  refine Mirrors.bind (.forM fun processor member => ?_) (fun _ =>
    .bind (.forM fun processor member => ?_) fun _ => ?_)
    alone among alike result later ran
  · exact mirrors_of_planned fair watches
      (plans.resultProcessors processor member alone.roots roots)
  · exact mirrors_of_planned fair watches
      (plans.postTransformers processor member alone.roots roots)
  · dsimp only
    split
    · refine (mirrors_collectDiagnostics fair within _).bind fun diagnostics => ?_
      refine Mirrors.bind (.forM fun diagnostic _ => ?_) fun _ => .pure _
      exact mirrors_modifyWorkspace (f := (·.report diagnostic)) fun _ => ⟨rfl, rfl, rfl⟩
    · exact .pure _

/-- A pass of a target gives alone what it gives among others. -/
theorem mirrors_compileAll (fair : bounds.Fair) (plans : context.Plans bounds)
    (watches : context.toScope.WatchesIn bounds.system) (limit : Nat) (force : Bool) :
    Mirrors (Alike bounds context.target others) (context.compileAll limit force) := by
  intro alone among alike result later ran
  unfold compileAll at ran ⊢
  rw [run_bind_ok (run_get alone), run_bind] at ran
  rw [run_bind_ok (run_get among), alike.roots]
  cases compiled : context.compileRootsFrom (context.compileFile · force)
    (alone.roots.length + limit) 0 {} alone with
  | error failure next => simp [compiled] at ran
  | ok progress next =>
    rw [compiled] at ran
    obtain ⟨next', compiled', alike', within⟩ :=
      mirrors_compileRootsFrom fair plans watches force _ 0 (by simp) alike compiled
    rw [run_bind_ok compiled']
    exact mirrors_finish fair plans watches within next next' alike' result later ran

end Context

end Recast.Build
