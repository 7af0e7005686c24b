import Recast.Proofs.Build.Contexts

/-! # What a history does to the cache

The events of a history account for everything that happens to the cache, in any chronicle to which
contexts and addons keep (`Chronicle`, `chronicles_runAll`). Where callbacks leave the cache alone,
it does not change from one event to the next (`evolves_history`). So an entry stays as its last
compilation left it until it is evicted, or until the whole cache is cleared (`Evolves.find?_eq`).
-/

namespace Recast.Build

open Recast.Emit

/-- What one event does to the cache. -/
inductive Evolution : Cache → Event → Cache → Prop where
  | compiled (compilation : Compilation) (keeps : compilation.context.KeepsCache) :
      Evolution compilation.session.cache (.compiled compilation) compilation.after.cache
  | evicted (cache : Cache) (key : CacheKey) :
    Evolution cache (.evicted key) (cache.remove key.path key.target)
  | cleared (cache : Cache) : Evolution cache .cleared {}

/-- What events do to the cache, one after the other. -/
inductive Evolves : Cache → List Event → Cache → Prop where
  | nil (cache : Cache) : Evolves cache [] cache
  | cons {first middle last : Cache} {event : Event} {events : List Event}
    (step : Evolution first event middle)
      (rest : Evolves middle events last) : Evolves first (event :: events) last

namespace Event

/-- Whether an event compiles a file of the key. -/
def compiles (key : CacheKey) : Event → Bool
  | compiled compilation => key.same compilation.key
  | evicted _ | cleared => false

/-- Whether an event makes the cache forget a key. -/
def forgets (key : CacheKey) : Event → Bool
  | compiled _ => false
  | evicted other => key.same other
  | cleared => true

end Event

namespace Evolves

variable {first middle last : Cache} {past events : List Event}

theorem append (before : Evolves first past middle) (behind : Evolves middle events last) :
    Evolves first (past ++ events) last := by
  induction before with
  | nil => exact behind
  | cons step _ ih => exact .cons step (ih behind)

theorem append_iff :
    Evolves first (past ++ events) last ↔ ∃ middle, Evolves first past middle ∧
      Evolves middle events last := by
  constructor
  · intro evolves
    induction past generalizing first with
    | nil => exact ⟨first, .nil first, evolves⟩
    | cons event past ih =>
      cases evolves with
      | cons step rest =>
        obtain ⟨middle, before, behind⟩ := ih rest
        exact ⟨middle, .cons step before, behind⟩
  · rintro ⟨middle, before, behind⟩
    exact before.append behind

/-- The cache in which a compilation of a history began, and the one in which it ended. -/
theorem compiled {compilation : Compilation}
    (evolves : Evolves first (past ++ .compiled compilation :: events) last) :
    Evolves first past compilation.session.cache ∧ compilation.context.KeepsCache ∧
      Evolves compilation.after.cache events last := by
  obtain ⟨middle, before, behind⟩ := append_iff.mp evolves
  cases behind with
  | cons step rest =>
    cases step with
    | compiled _ keeps => exact ⟨before, keeps, rest⟩

/-- An event that does not compile a file leaves its entry as it is, or makes the cache forget
it. -/
private theorem step_find?_eq {event : Event} {key : CacheKey} (step : Evolution first event last)
    (other : event.compiles key = false) :
    last.find? key = if event.forgets key then none else first.find? key := by
  cases step with
  | compiled compilation keeps =>
    exact Context.leaves_find?_compileFile other keeps compilation.force compilation.session
  | evicted _ gone => exact Cache.find?_remove ..
  | cleared => simp [Event.forgets]

/-- As long as a file is not compiled its entry stays as it is, unless the cache forgets it. -/
theorem find?_eq {key : CacheKey} (evolves : Evolves first events last)
    (others : ∀ event ∈ events, event.compiles key = false) :
    last.find? key = if events.any (·.forgets key) then none else first.find? key := by
  induction evolves with
  | nil => simp
  | @cons first middle last event events step rest ih =>
    rw [ih fun event member => others event (List.mem_cons_of_mem _ member),
      step_find?_eq step (others event (List.mem_cons_self ..)), List.any_cons]
    cases event.forgets key <;> simp

end Evolves

/-- How a cache may get along some events to another one: chronicles are put together, and they tell
of what the compiler itself does besides compiling. -/
class Chronicle (E : Cache → List Event → Cache → Prop) : Prop where
  nil : ∀ cache, E cache [] cache
  append : ∀ {first middle last past events}, E first past middle → E middle events last →
    E first (past ++ events) last
  evicted : ∀ cache key, E cache [.evicted key] (cache.remove key.path key.target)
  cleared : ∀ cache, E cache [.cleared] {}

instance : Chronicle Evolves where
  nil := .nil
  append := .append
  evicted cache key := .cons (.evicted cache key) (.nil _)
  cleared cache := .cons (.cleared cache) (.nil _)

/-- What may happen to a cache without an event. -/
abbrev Unmarked (E : Cache → List Event → Cache → Prop) (before after : Cache) : Prop :=
  E before [] after

instance {E : Cache → List Event → Cache → Prop} [Chronicle E] : Std.Refl (Unmarked E) :=
  ⟨Chronicle.nil⟩

instance {E : Cache → List Event → Cache → Prop} [Chronicle E] : IsTrans Cache (Unmarked E) :=
  ⟨fun _ _ _ first second => Chronicle.append first second⟩

/-- The events of a step account for what it does to the cache, from all states with a property. -/
def Accounts {ε σ α : Type} (E : Cache → List Event → Cache → Prop) (P : σ → Prop)
    (cache : σ → Cache) (events : σ → List Event) (x : EStateM ε σ α) : Prop :=
  ∀ s, P s → E (cache s) (events s) (cache (endState (x s)))

namespace Accounts

variable {ε σ α β γ : Type} {E : Cache → List Event → Cache → Prop} [Chronicle E] {P : σ → Prop}
  {cache : σ → Cache} {events : σ → List Event}

omit [Chronicle E] in
theorem of_follows {x : EStateM ε σ α} (follows : Follows (InvImage (Unmarked E) cache) x) :
    Accounts E P cache (fun _ => []) x := fun s _ => follows s

theorem of_leaves {x : EStateM ε σ α} (leaves : Leaves cache x) :
    Accounts E P cache (fun _ => []) x := by
  intro s _
  rw [leaves s]
  exact Chronicle.nil _

/-- The events of a step come before those of the steps behind it, which there are only if it did
not fail. -/
theorem bind {x : EStateM ε σ α} {f : α → EStateM ε σ β} {later : α → σ → List Event}
    (first : Accounts E P cache events x) (kept : Preserves P x)
    (next : ∀ a, Accounts E P cache (later a) (f a)) :
    Accounts E P cache (fun s => events s ++ eventsBehind (x s) later) (x >>= f) := by
  intro s holds
  have before := first s holds
  have middle := kept s holds
  rw [run_bind]
  dsimp only
  cases ran : x s with
  | ok a t =>
    rw [ran] at before middle
    exact Chronicle.append before (next a t middle)
  | error e t =>
    rw [ran] at before
    exact Chronicle.append before (Chronicle.nil _)

/-- A step without events in front. -/
theorem behind {x : EStateM ε σ α} {f : α → EStateM ε σ β} {later : α → σ → List Event}
    (first : Accounts E P cache (fun _ => []) x) (kept : Preserves P x)
    (next : ∀ a, Accounts E P cache (later a) (f a)) :
    Accounts E P cache (fun s => eventsBehind (x s) later) (x >>= f) :=
  first.bind kept next

/-- A step without events behind. -/
theorem andThen {x : EStateM ε σ α} {f : α → EStateM ε σ β} (first : Accounts E P cache events x)
    (kept : Preserves P x) (next : ∀ a, Accounts E P cache (fun _ => []) (f a)) :
    Accounts E P cache events (x >>= f) := by
  intro s holds
  have whole := first.bind kept next s holds
  cases ran : x s <;> simpa [ran, eventsBehind] using whole

/-- The events of a loop are those of its first round, and then those of the others. -/
theorem foldlM {xs : List γ} {f : α → γ → EStateM ε σ α} {round : γ → σ → List Event}
    {all : List γ → σ → List Event} (none : ∀ s, all [] s = [])
    (rounds : ∀ x xs a s,
      round x s ++ eventsBehind (f a x s) (fun _ => all xs) = all (x :: xs) s)
    (each : ∀ x a, Accounts E P cache (round x) (f a x)) (kept : ∀ x a, Preserves P (f a x))
    (a : α) : Accounts E P cache (all xs) (xs.foldlM f a) := by
  induction xs generalizing a with
  | nil =>
    rw [funext none]
    exact .of_leaves (Leaves.pure a)
  | cons x xs ih =>
    have whole := (each x a).bind (kept x a) ih
    rwa [List.foldlM_cons, ← funext (rounds x xs a)]

end Accounts

theorem cache_watch {workspace next : Workspace} {path : Path}
    (watched : workspace.watch path = .ok next) :
    next.cache = workspace.cache := by
  rcases Workspace.watch_eq_ok watched with rfl | ⟨_, _, _, _, rfl⟩ <;> rfl

theorem cache_watchRoot (workspace : Workspace) (path : Path) :
    (workspace.watchRoot path).cache = workspace.cache := by
  unfold Workspace.watchRoot
  split
  · next watched => exact cache_watch watched
  · rfl

/-- An addon leaves the cache alone, and so do the callbacks that it registers. -/
structure Addon.KeepsCache (addon : Addon) : Prop where
  cache : Leaves (fun activation : Activation => activation.workspace.cache) addon.activate
  context : Preserves (fun activation : Activation => activation.context.KeepsCache) addon.activate

theorem governs_keepsCache :
    Governs Cache.Stays Addon.KeepsCache fun _ context => context.KeepsCache where
  cache _ keeps := keeps.cache
  bare setup system target roots := by
    refine ⟨fun watch wanted path workspace next watched => ?_, by simp, by simp, by simp, by simp⟩
    obtain ⟨_, rfl⟩ := Setup.watch?_scope wanted
    exact cache_watch watched
  activated _ keeps _ activation := keeps.context activation
  withRoots _ _ roots keeps := keeps.withRoots roots

/-- The compilers of which all callbacks leave the cache alone. -/
abbrev Compiler.KeepsCache (compiler : Compiler) : Prop :=
  compiler.Holds Addon.KeepsCache fun _ context => context.KeepsCache

/-- A chronicle tells of all compilations of a context, and a pass ends without an event. -/
structure Context.Tells (E : Cache → List Event → Cache → Prop) (context : Context) : Prop where
  compiled : ∀ path force session,
    E session.cache [.compiled ⟨context, path, force, session⟩]
      (endState (context.compileFile path force session)).cache
  finished : ∀ progress, Follows (InvImage (Unmarked E) Session.cache) (context.finish progress)

theorem Context.KeepsCache.tells {context : Context} (keeps : context.KeepsCache) :
    context.Tells Evolves where
  compiled path force session := .cons (.compiled ⟨context, path, force, session⟩ keeps) (.nil _)
  finished progress session := by
    have left := leaves_cache_finish keeps progress session
    rw [InvImage, left]
    exact .nil _

/-- What addons keep of contexts, so that a chronicle tells of all that they do to the cache. -/
structure Keeping (E : Cache → List Event → Cache → Prop) (A : Addon → Prop)
    (C : String → Context → Prop) : Prop extends Governs (Unmarked E) A C where
  tells : ∀ target context, C target context → context.Tells E

/-- Contexts of which no callback touches the cache keep to the chronicle in which only events
do. -/
theorem Governs.keeping {A : Addon → Prop} {C : String → Context → Prop}
    (governs : Governs Cache.Stays A C)
    (keeps : ∀ target context, C target context → context.KeepsCache) : Keeping Evolves A C where
  cache addon good activation := by
    have left : (endState (addon.activate activation)).workspace.cache =
        activation.workspace.cache := governs.cache addon good activation
    rw [InvImage, Unmarked, left]
    exact .nil _
  bare := governs.bare
  activated := governs.activated
  withRoots := governs.withRoots
  tells target context good := (keeps target context good).tells

theorem keeping_keepsCache :
    Keeping Evolves Addon.KeepsCache fun _ context => context.KeepsCache :=
  governs_keepsCache.keeping fun _ _ keeps => keeps

abbrev Compiler.cache (compiler : Compiler) : Cache := compiler.workspace.cache

section Telling

variable {E : Cache → List Event → Cache → Prop}

theorem Keeping.sturdy {A : Addon → Prop} {C : String → Context → Prop}
    (keeping : Keeping E A C) : Compiler.Sturdy (Compiler.Holds A C) :=
  Compiler.Holds.sturdy keeping.toGoverns

/-- Steps of a compiler are accounted for as long as its contexts have a property. -/
abbrev CompilerAccounts (E : Cache → List Event → Cache → Prop) (A : Addon → Prop)
    (C : String → Context → Prop) {α : Type} (events : Compiler → List Event)
    (step : Compiling α) : Prop :=
  Accounts E (Compiler.Holds A C) Compiler.cache events step

/-- Steps in a context are accounted for from every session. -/
abbrev SessionAccounts (E : Cache → List Event → Cache → Prop) {α : Type}
    (events : Session → List Event) (step : Step α) : Prop :=
  Accounts E (fun _ => True) Session.cache events step

namespace Context

variable {context : Context}

theorem accounts_compileFile (tells : context.Tells E) (path : Path) (force : Bool) :
    SessionAccounts E (fun session => [.compiled ⟨context, path, force, session⟩])
      (context.compileFile path force) :=
  fun session _ => tells.compiled path force session

variable [Chronicle E]

theorem accounts_compileRootsFrom {compileRoot : Path → Step Emission} {force : Bool}
    (each : ∀ path, SessionAccounts E (fun session => [.compiled ⟨context, path, force, session⟩])
      (compileRoot path))
    (fuel index : Nat) (progress : Progress) :
    SessionAccounts E (context.rootEvents compileRoot force fuel index)
      (context.compileRootsFrom compileRoot fuel index progress) := by
  induction fuel generalizing index progress with
  | zero =>
    intro session _
    rw [rootEvents_zero]
    cases found : session.roots[index]? with
    | none => exact run_compileRootsFrom_of_end found ▸ Chronicle.nil _
    | some path => exact run_compileRootsFrom_zero found ▸ Chronicle.nil _
  | succ fuel ih =>
    intro session _
    cases found : session.roots[index]? with
    | none =>
      rw [rootEvents_of_end found, run_compileRootsFrom_of_end found]
      exact Chronicle.nil _
    | some path =>
      rw [rootEvents_succ found, run_compileRootsFrom_succ found]
      exact (each path).bind (fun _ _ => trivial) (fun emission =>
        ih (index + 1) (progress.add path emission)) session trivial

theorem accounts_compileAll (tells : context.Tells E) (limit : Nat) (force : Bool) :
    SessionAccounts E
      (fun session => context.rootEvents (context.compileFile · force) force
        (session.roots.length + limit) 0 session)
      (context.compileAll limit force) := by
  intro session _
  have roots := accounts_compileRootsFrom (accounts_compileFile tells · force)
    (session.roots.length + limit) 0 {}
  exact roots.andThen (fun _ _ => trivial)
    (fun progress => .of_follows (tells.finished progress)) session trivial

end Context

namespace Compiler

variable [Chronicle E]

section Refreshing

variable {context : Context}

theorem accounts_adopt (tells : context.Tells E) (path : Path) :
    SessionAccounts E (fun session => [.compiled ⟨context, path, true, session⟩])
      (adopt context path) := by
  refine (Context.accounts_compileFile tells path true).andThen (fun _ _ => trivial) fun emission =>
    ?_
  refine Accounts.of_leaves (Leaves.bind (fun session => ?_) fun _ => Leaves.pure _)
  change Workspace.cache (if _ then _ else _) = _
  split
  · exact cache_watchRoot _ _
  · rfl

theorem run_refresh (progress : Context.Progress) (path : Path) (session : Session) :
    refresh context progress path session =
      if session.workspace.system.fileExists path then
        (context.compileFile path true >>= fun emission =>
          pure (progress.add path emission)) session
      else
        (Step.modifyCache (·.remove path context.target) >>= fun _ => pure progress) session := by
  unfold refresh
  rw [run_bind_ok (Step.run_workspace session)]
  split <;> rfl

theorem accounts_refresh (tells : context.Tells E) (progress : Context.Progress) (path : Path) :
    SessionAccounts E
      (fun session => if session.workspace.system.fileExists path then
        [.compiled ⟨context, path, true, session⟩]
        else [.evicted ⟨path, context.target⟩])
      (refresh context progress path) := by
  intro session _
  have compiled := (Context.accounts_compileFile tells path true).andThen (fun _ _ => trivial)
    (fun emission => .of_leaves (Leaves.pure (progress.add path emission))) session trivial
  rw [run_refresh]
  dsimp only
  cases session.workspace.system.fileExists path with
  | true => exact compiled
  | false => exact Chronicle.evicted _ ⟨path, context.target⟩

/-- What a refresh does next does not depend on the progress before it. -/
theorem eventsBehind_refresh (progress : Context.Progress) (path : Path) (session : Session)
    (next : Session → List Event) :
    eventsBehind (refresh context progress path session) (fun _ => next) =
      eventsBehind (refresh context {} path session) fun _ => next := by
  rw [run_refresh, run_refresh]
  cases session.workspace.system.fileExists path with
  | true =>
    simp only [↓reduceIte, run_bind]
    cases context.compileFile path true session <;> rfl
  | false => rfl

theorem accounts_foldlM_refresh (tells : context.Tells E) (files : List Path)
    (progress : Context.Progress) :
    SessionAccounts E (refreshEvents context files) (files.foldlM (refresh context) progress) :=
  .foldlM (fun _ => rfl) (fun _ _ _ _ => congrArg (_ ++ ·) (eventsBehind_refresh ..))
    (fun path progress => accounts_refresh tells progress path) (fun _ _ _ _ => trivial) progress

theorem accounts_refreshAll (tells : context.Tells E) (limit : Nat) (files : List Path) :
    SessionAccounts E (refreshAllEvents context limit files) (refreshAll context limit files) := by
  intro session _
  have whole := (accounts_foldlM_refresh tells files {}).bind (fun _ _ => trivial)
    (fun progress : Context.Progress => fun later (_ : True) =>
      (Context.accounts_compileRootsFrom (accounts_adopt tells)
        (later.roots.length - session.roots.length + limit)
        session.roots.length progress).andThen (fun _ _ => trivial)
          (fun progress => .of_follows (tells.finished progress)) later trivial)
            session trivial
  exact whole

end Refreshing

section Keeping

variable {A : Addon → Prop} {C : String → Context → Prop}

/-- What is accounted for in every context is accounted for in the compiler. -/
theorem accounts_inContext {α : Type} (keeping : Keeping E A C) (target : String)
    {events : Context → Session → List Event} {step : Context → Step α}
    (each : ∀ context : Context, context.Tells E →
      SessionAccounts E (events context) (step context)) :
    CompilerAccounts E A C (eventsInContext target events) (inContext target step) := by
  intro compiler keeps
  rw [run_inContext]
  unfold eventsInContext
  cases known : compiler.context? target with
  | none => exact Chronicle.nil _
  | some context =>
    have inner := each context (keeping.tells target context (keeps.context known))
      ⟨compiler.workspace, context.roots⟩ trivial
    dsimp only
    cases ran : step context ⟨compiler.workspace, context.roots⟩ <;> rw [ran] at inner
      <;> exact inner

theorem accounts_compileTarget (keeping : Keeping E A C) (target : String) (force : Bool) :
    CompilerAccounts E A C (targetEvents target force) (compileTarget target force) :=
  fun compiler keeps => accounts_inContext keeping target
    (fun _ tells => Context.accounts_compileAll tells compiler.rootLimit force) compiler keeps

theorem eventsBehind_map {ε σ α β : Type} (x : EStateM ε σ α) (f : α → β) (s : σ)
    (next : σ → List Event) :
    eventsBehind ((x >>= fun a => pure (f a)) s) (fun _ => next) = eventsBehind (x s) fun _ =>
      next := by
  rw [run_bind]
  cases x s <;> rfl

theorem accounts_passes (keeping : Keeping E A C) (force : Bool) (targets : List String)
    (result : PassResult) :
    CompilerAccounts E A C (passEvents force targets)
      (targets.foldlM (fun result target => return result.merge (← compileTarget target force))
        result) :=
  .foldlM (fun _ => rfl) (fun _ _ _ _ => congrArg (_ ++ ·) (eventsBehind_map ..))
    (fun target result => (accounts_compileTarget keeping target force).andThen
      (keeping.sturdy.preserves_compileTarget target force)
      fun pass => .of_leaves (Leaves.pure (result.merge pass)))
    (fun target _ => (keeping.sturdy.preserves_compileTarget target force).bind
      fun _ => Preserves.pure _) result

theorem accounts_ensureContexts (keeping : Keeping E A C) :
    CompilerAccounts E A C (fun _ => []) Compiler.ensureContexts := by
  intro compiler keeps
  exact (keeps.ensureContexts keeping.toGoverns).2

theorem leaves_cache_setup : Leaves cache setup :=
  leaves_iff_preserves.mpr fun _ => preserves_setup

theorem accounts_compile (keeping : Keeping E A C) : CompilerAccounts E A C compileEvents compile := by
  have passes (setup : Setup) := (accounts_passes keeping false setup.activeTargets {}).andThen
    (keeping.sturdy.preserves_passes false setup.activeTargets {})
    fun result => .of_leaves (Leaves.pure
      { result with skipped := result.skipped || setup.activeTargets.isEmpty })
  exact (accounts_ensureContexts keeping).behind
    (Holds.preserves_ensureContexts keeping.toGoverns) fun _ =>
      (Accounts.of_leaves leaves_cache_setup).behind preserves_setup passes

theorem leaves_cache_context (target : String) : Leaves cache (context target) :=
  leaves_iff_preserves.mpr fun _ => preserves_context target

theorem leaves_cache_writingTargets : Leaves cache writingTargets :=
  leaves_iff_preserves.mpr fun _ => preserves_writingTargets

theorem leaves_cache_status (message : String) : Leaves cache (status message) := by
  refine Leaves.bind (fun _ => rfl) fun compiler => ?_
  split
  · exact fun _ => rfl
  · exact Leaves.pure _

/-- What `watch` does once the targets are compiled. -/
private theorem leaves_cache_watchRoots (targets : List String) :
    Leaves cache (targets.forM fun target => do
      (← context target).roots.forM fun path => modifyWorkspace (·.watchRoot path)) :=
  Leaves.forM fun target _ => (leaves_cache_context target).bind fun _ =>
    Leaves.forM fun path _ compiler => cache_watchRoot compiler.workspace path

theorem accounts_watch (keeping : Keeping E A C) : CompilerAccounts E A C watchEvents watch := by
  refine (accounts_ensureContexts keeping).behind
    (Holds.preserves_ensureContexts keeping.toGoverns) fun _ => ?_
  refine (Accounts.of_leaves leaves_cache_writingTargets).behind preserves_writingTargets
    fun targets => ?_
  refine (accounts_passes keeping true targets {}).andThen
    (keeping.sturdy.preserves_passes true targets {})
    fun result => Accounts.of_leaves (Leaves.bind (fun _ => rfl) fun compiler => ?_)
  split
  · refine leaves_cache_setup.bind fun setup =>
      (leaves_cache_watchRoots setup.activeTargets).bind fun _ => ?_
    exact (leaves_cache_status _).bind fun _ => Leaves.pure _
  · exact Leaves.bind (fun _ => rfl) fun _ => Leaves.pure _

theorem run_targetChanged (path : Path) (result : PassResult) (target : String)
    (compiler : Compiler) :
    targetChanged path result target compiler =
      match compiler.context? target with
      | none => .error (.missingContext target) compiler
      | some context =>
        let files := affected context compiler.workspace path
        if files.isEmpty then .ok result compiler
        else
          (inContext target (fun context => refreshAll context compiler.rootLimit files) >>=
            fun pass => pure (result.merge pass)) compiler := by
  have found := run_context target compiler
  unfold targetChanged
  cases known : compiler.context? target with
  | none =>
    rw [known] at found
    exact run_bind_error found
  | some context =>
    rw [known] at found
    rw [run_bind_ok found, run_bind_ok (run_get compiler)]
    dsimp only
    split
    · rfl
    · exact run_bind_ok (run_get compiler)

/-- A change that is handled for a target affects nothing, or all that it affects is compiled
again. -/
theorem exists_of_targetChanged_eq_ok {path : Path} {target : String} {result result' : PassResult}
    {compiler next : Compiler}
    (ran : targetChanged path result target compiler = .ok result' next) :
    ∃ context, compiler.context? target = some context ∧
      ((affected context compiler.workspace path).isEmpty = true ∧ result' = result ∧
          next = compiler ∨
        (affected context compiler.workspace path).isEmpty = false ∧ ∃ pass session,
          refreshAll context compiler.rootLimit (affected context compiler.workspace path)
            ⟨compiler.workspace, context.roots⟩ = .ok pass session ∧
          result' = result.merge pass ∧ next = compiler.absorb target session) := by
  rw [run_targetChanged] at ran
  cases known : compiler.context? target with
  | none =>
    rw [known] at ran
    cases ran
  | some context =>
    rw [known] at ran
    refine ⟨context, rfl, ?_⟩
    dsimp only at ran
    split at ran
    · next idle =>
      cases ran
      exact .inl ⟨idle, rfl, rfl⟩
    · next busy =>
      obtain ⟨pass, after, refreshed, answered⟩ := exists_of_bind_eq_ok ran
      cases answered
      obtain ⟨_, session, known', passed, rfl⟩ := exists_of_inContext_eq_ok refreshed
      cases known.symm.trans known'
      exact .inr ⟨Bool.not_eq_true _ ▸ busy, pass, session, passed, rfl, rfl⟩

theorem targetChangedEvents_eq {compiler : Compiler} {target : String} {context : Context}
    (known : compiler.context? target = some context) (path : Path) :
    compiler.targetChangedEvents path target =
      if (affected context compiler.workspace path).isEmpty then []
      else refreshAllEvents context compiler.rootLimit (affected context compiler.workspace path)
        ⟨compiler.workspace, context.roots⟩ := by
  rw [targetChangedEvents, eventsInContext, known]

theorem accounts_targetChanged (keeping : Keeping E A C) (path : Path) (result : PassResult)
    (target : String) :
    CompilerAccounts E A C (targetChangedEvents path target) (targetChanged path result target) := by
  intro compiler keeps
  rw [run_targetChanged]
  unfold targetChangedEvents eventsInContext
  cases known : compiler.context? target with
  | none => exact Chronicle.nil _
  | some context =>
    dsimp only
    split
    · exact Chronicle.nil _
    · have whole := (accounts_inContext keeping target fun _ tells =>
        accounts_refreshAll tells compiler.rootLimit
        (affected context compiler.workspace path)).andThen
          (keeping.sturdy.preserves_inContext target _)
          (fun pass => .of_leaves (Leaves.pure (result.merge pass))) compiler keeps
      unfold eventsInContext at whole
      rw [known] at whole
      exact whole

/-- What a change does next for other targets does not depend on the results before it. -/
theorem eventsBehind_targetChanged (path : Path) (result : PassResult) (target : String)
    (compiler : Compiler) (next : Compiler → List Event) :
    eventsBehind (targetChanged path result target compiler) (fun _ => next) =
      eventsBehind (targetChanged path {} target compiler) fun _ => next := by
  rw [run_targetChanged, run_targetChanged]
  cases compiler.context? target with
  | none => rfl
  | some context =>
    dsimp only
    split
    · rfl
    · rw [eventsBehind_map, eventsBehind_map]

theorem accounts_targetsChanged (keeping : Keeping E A C) (path : Path) (targets : List String)
    (result : PassResult) :
    CompilerAccounts E A C (targetsChangedEvents path targets)
      (targets.foldlM (targetChanged path) result) :=
  .foldlM (fun _ => rfl) (fun _ _ _ _ => congrArg (_ ++ ·) (eventsBehind_targetChanged ..))
    (fun target result => accounts_targetChanged keeping path result target)
    (fun target result => keeping.sturdy.preserves_targetChanged path result target) result

theorem accounts_fileChanged (keeping : Keeping E A C) (path : Path) :
    CompilerAccounts E A C (fileChangedEvents path) (fileChanged path) := by
  intro compiler keeps
  let resolved := compiler.workspace.system.resolve path
  have changed (targets : List String) :=
    (accounts_targetsChanged keeping resolved targets {}).andThen
      (Preserves.foldlM (fun result target _ =>
        keeping.sturdy.preserves_targetChanged resolved result target) {}) fun result =>
      Accounts.of_leaves ((leaves_cache_status (foundErrors result)).bind
        fun _ => Leaves.pure result)
  have told (message : String) := (Accounts.of_leaves (leaves_cache_status message)).behind
    (keeping.sturdy.preserves_status message) fun _ =>
      (Accounts.of_leaves leaves_cache_writingTargets).behind preserves_writingTargets changed
  exact told _ compiler keeps

theorem leaves_cache_takeQueue : Leaves cache takeQueue :=
  Leaves.bind (fun _ => rfl) fun _ => Leaves.bind (fun _ => rfl) fun _ => Leaves.pure _

theorem accounts_filesChanged (keeping : Keeping E A C) (paths : List Path) (result : PassResult) :
    CompilerAccounts E A C (filesChangedEvents paths)
      (paths.foldlM (fun result path => return result.merge (← fileChanged path)) result) :=
  .foldlM (fun _ => rfl) (fun _ _ _ _ => congrArg (_ ++ ·) (eventsBehind_map ..))
    (fun path result => (accounts_fileChanged keeping path).andThen
      (keeping.sturdy.preserves_fileChanged path)
      fun pass => .of_leaves (Leaves.pure (result.merge pass)))
    (fun path _ => (keeping.sturdy.preserves_fileChanged path).bind fun _ => Preserves.pure _)
    result

theorem accounts_drainChanges (keeping : Keeping E A C) :
    CompilerAccounts E A C drainEvents drainChanges :=
  (Accounts.of_leaves leaves_cache_takeQueue).behind keeping.sturdy.preserves_takeQueue fun paths =>
    accounts_filesChanged keeping paths {}

/-- A failure to handle a change is only reported. -/
theorem fileChangedOrReport_eq_ok (path : Path) (compiler : Compiler) :
    ∃ next, fileChangedOrReport path compiler = .ok () next := by
  unfold fileChangedOrReport
  rw [run_tryCatch, run_discard]
  cases fileChanged path compiler <;> exact ⟨_, rfl⟩

theorem accounts_fileChangedOrReport (keeping : Keeping E A C) (path : Path) :
    CompilerAccounts E A C (fileChangedEvents path) (fileChangedOrReport path) := by
  intro compiler keeps
  have changed := accounts_fileChanged keeping path compiler keeps
  unfold fileChangedOrReport
  rw [run_tryCatch, run_discard]
  cases ran : fileChanged path compiler <;> rw [ran] at changed <;> exact changed

theorem accounts_reported (keeping : Keeping E A C) (paths : List Path) :
    CompilerAccounts E A C (reportedEvents paths) (paths.forM fileChangedOrReport) := by
  induction paths with
  | nil => exact fun compiler _ => Chronicle.nil _
  | cons path paths ih =>
    intro compiler keeps
    have first := accounts_fileChangedOrReport keeping path compiler keeps
    have kept := keeping.sturdy.preserves_fileChangedOrReport path compiler keeps
    obtain ⟨next, ran⟩ := fileChangedOrReport_eq_ok path compiler
    have whole : (path :: paths).forM fileChangedOrReport compiler =
        paths.forM fileChangedOrReport next :=
      run_bind_ok ran
    unfold reportedEvents
    rw [whole, ran]
    rw [ran] at first kept
    exact Chronicle.append first (ih next kept)

theorem leaves_cache_closeWatches : Leaves cache closeWatches :=
  Leaves.bind (fun _ => rfl) fun _ => Leaves.bind (fun _ => rfl) fun _ => Leaves.pure _

theorem accounts_runWatch (keeping : Keeping E A C) (stopped : Bool) :
    CompilerAccounts E A C (runWatchEvents stopped) (runWatch stopped) := by
  have closed : CompilerAccounts E A C (fun _ => []) (do let _ ← closeWatches : Compiling Unit) :=
    .of_leaves (leaves_cache_closeWatches.bind fun _ => Leaves.pure _)
  have handled (paths : List Path) := (accounts_reported keeping paths).andThen
    (Preserves.forM fun path _ => keeping.sturdy.preserves_fileChangedOrReport path)
      fun _ => closed
  have taken := (Accounts.of_leaves leaves_cache_takeQueue).behind
    keeping.sturdy.preserves_takeQueue handled
  refine (Accounts.of_leaves leaves_cache_setup).behind preserves_setup fun setup => ?_
  cases stopped with
  | true => exact closed
  | false => exact taken

end Keeping

end Compiler

section Keeping

variable [Chronicle E] {A : Addon → Prop} {C : String → Context → Prop}

/-- The events of an action account for what it does to the cache. -/
theorem Action.chronicles_events (keeping : Keeping E A C) (action : Action) {compiler : Compiler}
    (keeps : compiler.Holds A C) :
    E compiler.cache (action.events compiler) (action.run compiler).cache := by
  cases action with
  | edit change => exact Chronicle.nil _
  | notify path numbers => exact Chronicle.nil _
  | configure setup => exact Chronicle.cleared _
  | ensureContexts => exact Compiler.accounts_ensureContexts keeping compiler keeps
  | compile => exact Compiler.accounts_compile keeping compiler keeps
  | compileFile target path force =>
    exact Compiler.accounts_inContext keeping target (fun _ tells =>
      Context.accounts_compileFile tells path force) compiler keeps
  | watch => exact Compiler.accounts_watch keeping compiler keeps
  | fileChanged path => exact Compiler.accounts_fileChanged keeping path compiler keeps
  | drainChanges => exact Compiler.accounts_drainChanges keeping compiler keeps
  | runWatch stopped => exact Compiler.accounts_runWatch keeping stopped compiler keeps
  | closeWatches =>
    have same := Compiler.leaves_cache_closeWatches compiler
    change E compiler.cache [] (endState (Compiler.closeWatches compiler)).cache
    rw [same]
    exact Chronicle.nil _

/-- The events of a history account for what its actions do to the cache. -/
theorem chronicles_runAll (keeping : Keeping E A C) {actions : List Action}
    (brings : ∀ action ∈ actions, action.Brings A) {compiler : Compiler}
    (keeps : compiler.Holds A C) :
    E compiler.cache (history actions compiler) (compiler.runAll actions).cache := by
  induction actions generalizing compiler with
  | nil => exact Chronicle.nil _
  | cons action actions ih =>
    have kept := keeps.run keeping.toGoverns (brings action (List.mem_cons_self ..))
    exact Chronicle.append (action.chronicles_events keeping keeps)
      (ih (fun other member => brings other (List.mem_cons_of_mem _ member)) kept)

end Keeping

end Telling

theorem evolves_history {actions : List Action}
    (brings : ∀ action ∈ actions, action.Brings Addon.KeepsCache) {compiler : Compiler}
    (keeps : compiler.KeepsCache) :
    Evolves compiler.cache (history actions compiler) (compiler.runAll actions).cache :=
  chronicles_runAll keeping_keepsCache brings keeps

end Recast.Build
