import Recast.Proofs.Build.Emission
import Recast.Proofs.Build.Failing
import Recast.Proofs.Build.Moves
import Recast.Proofs.Build.Regime
import Recast.Proofs.Config.Naming

/-! # What the cache and the language service stand for

A compiler records what processors make of a source, and the language service parses what is
recorded. As long as callbacks leave both alone (`Discreet`), every recorded text was made in a
compilation, and every parsed tree is one of such a text (`Workspace.Serves`). This holds along a
whole life; what is admitted of a compilation is what its processors may make.
-/

namespace Recast.Build

open Recast.Emit

/-- Root files in normal form, each once. -/
structure Tidy (roots : List Path) : Prop where
  normal : ∀ root ∈ roots, root.IsNormal
  once : roots.Nodup

/-- The cache and the language service stay as they are; root files are only added, and stay
tidy. -/
structure Session.Spares (before after : Session) : Prop where
  cache : after.cache = before.cache
  service : after.workspace.service = before.workspace.service
  roots : before.roots <+: after.roots
  tidy : Tidy before.roots → Tidy after.roots

instance : Std.Refl Session.Spares := ⟨fun _ => ⟨rfl, rfl, List.prefix_refl _, id⟩⟩

instance : IsTrans Session Session.Spares :=
  ⟨fun _ _ _ first second => ⟨second.cache.trans first.cache, second.service.trans first.service,
    first.roots.trans second.roots, second.tidy ∘ first.tidy⟩⟩

/-- A step that spares the session, whether it fails or not. -/
abbrev Discreet {α : Type} (step : Step α) : Prop := Follows Session.Spares step

namespace Discreet

theorem write (path : Path) (text : String) : Discreet (Step.write path text) := by
  intro session
  simp only [Step.write, Step.workspace, Step.modifyWorkspace, run_bind, run_get, run_pure,
    run_modify]
  cases (session.workspace.system.write path text).2 <;>
    exact ⟨rfl, rfl, List.prefix_refl _, id⟩

/-- An added root file is resolved, and it is none yet. -/
theorem addInput (scope : Scope) (path : Path) : Discreet (scope.addInput path) := by
  intro session
  unfold Scope.addInput
  rw [run_bind_ok (run_get session)]
  split
  · exact refl session
  · next fresh =>
    refine ⟨rfl, rfl, List.prefix_append _ _, fun tidy => ⟨fun root member => ?_, ?_⟩⟩
    · rcases List.mem_append.mp member with known | last
      · exact tidy.normal root known
      · rw [List.mem_singleton.mp last]
        exact Path.isNormal_resolveFrom _ _
    · refine List.nodup_append.mpr ⟨tidy.once, by simp, fun root known other last => ?_⟩
      rw [List.mem_singleton.mp last]
      rintro rfl
      exact fresh (List.any_eq_true.mpr ⟨_, known, Path.same_self _⟩)

end Discreet

/-- All callbacks of a context are discreet, and so is watching a file for them. -/
structure Context.Discreet (context : Context) : Prop where
  watch : ∀ watch, context.watch? = some watch → ∀ path workspace next,
    watch path workspace = .ok next →
      next.cache = workspace.cache ∧ next.service = workspace.service
  generators : ∀ generator ∈ context.generators, ∀ path source,
    Build.Discreet (generator context.toScope path source)
  processors : ∀ processor ∈ context.processors, ∀ path source,
    Build.Discreet (processor context.toScope path source)
  resultProcessors : ∀ processor ∈ context.resultProcessors, ∀ roots,
    Build.Discreet (processor context.toScope roots)
  postTransformers : ∀ processor ∈ context.postTransformers, ∀ roots,
    Build.Discreet (processor context.toScope roots)

/-- An addon leaves the cache, the language service and the root files alone when it is activated,
and registers discreet callbacks. -/
structure Addon.Discreet (addon : Addon) : Prop where
  cache : Leaves (fun activation : Activation => activation.workspace.cache) addon.activate
  service : Leaves (fun activation : Activation => activation.workspace.service) addon.activate
  roots : Leaves (fun activation : Activation => activation.context.roots) addon.activate
  context : Preserves (fun activation : Activation => activation.context.Discreet) addon.activate

namespace Context.Discreet

variable {context : Context}

theorem keepsCache (discreet : context.Discreet) : context.KeepsCache where
  watch watch wanted path workspace next watched :=
    (discreet.watch watch wanted path workspace next watched).1
  generators generator member path source session :=
    (discreet.generators generator member path source session).cache
  processors processor member path source session :=
    (discreet.processors processor member path source session).cache
  resultProcessors processor member roots session :=
    (discreet.resultProcessors processor member roots session).cache
  postTransformers processor member roots session :=
    (discreet.postTransformers processor member roots session).cache

theorem withRoots (discreet : context.Discreet) (roots : List Path) :
    ({ context with roots := roots } : Context).Discreet :=
  ⟨discreet.watch, discreet.generators, discreet.processors, discreet.resultProcessors,
    discreet.postTransformers⟩

theorem prepare (discreet : context.Discreet) (path : Path) (source : String) :
    Build.Discreet (context.prepare path source) :=
  Follows.bind (.forM fun generator member => discreet.generators generator member path source)
    fun _ => .foldlM (fun text processor member => discreet.processors processor member path text) _

end Context.Discreet

/-- What the processors of a target may make of the source of a file. -/
abbrev Makings := String → Path → String → String → Prop

/-- The texts that may be parsed. -/
def Makings.texts (made : Makings) (path : Path) (text : String) : Prop :=
  path.IsNormal ∧ ∃ target source, made target path source text

/-- Every recorded text was made, and every parsed tree is one of a text that was made. -/
structure Workspace.Serves (made : Makings) (workspace : Workspace) : Prop where
  service : workspace.service.Faithful made.texts
  recorded : ∀ path target entry, path.IsNormal →
    workspace.cache.find? ⟨path, target⟩ = some entry → ∀ text, entry.snapshot = some text →
      made target path entry.source text

section Serving

variable {made : Makings}

namespace Workspace.Serves

variable {workspace other : Workspace} {path : Path} {target : String}

theorem of_eq (serves : workspace.Serves made) (cache : other.cache = workspace.cache)
    (service : other.service = workspace.service) : other.Serves made :=
  ⟨service ▸ serves.service, cache ▸ serves.recorded⟩

theorem withService (serves : workspace.Serves made) {service : Service}
    (faithful : service.Faithful made.texts) :
    ({ workspace with service := service } : Workspace).Serves made :=
  ⟨faithful, serves.recorded⟩

theorem text_of_get (serves : workspace.Serves made) (normal : path.IsNormal) {text : String}
    (recorded : (workspace.cache.get path target).snapshot = some text) :
    made.texts path text := by
  unfold Cache.get at recorded
  rw [Cache.get?_eq_find?] at recorded
  cases known : workspace.cache.find? ⟨path, target⟩ with
  | none => simp [known] at recorded
  | some entry =>
    rw [known] at recorded
    exact ⟨normal, target, _, serves.recorded path target entry normal known text recorded⟩

/-- A change of one entry that keeps its texts, or forgets the one that was made. -/
theorem modify (serves : workspace.Serves made) (path : Path) (target : String)
    {f : CacheEntry → CacheEntry} (kept : ∀ entry text, (f entry).snapshot = some text →
      entry.snapshot = some text ∧ (f entry).source = entry.source) :
    ({ workspace with cache := workspace.cache.modify path target f } : Workspace).Serves made := by
  refine ⟨serves.service, fun other name entry normal known text recorded => ?_⟩
  change (workspace.cache.modify path target f).find? ⟨other, name⟩ = some entry at known
  rw [Cache.find?_modify] at known
  split at known
  · obtain ⟨old, found, rfl⟩ := Option.map_eq_some_iff.mp known
    obtain ⟨before, source⟩ := kept old text recorded
    exact source ▸ serves.recorded other name old normal found text before
  · exact serves.recorded other name entry normal known text recorded

/-- What was made is recorded. -/
theorem update (serves : workspace.Serves made) (normal : path.IsNormal) {source text : String}
    (making : made target path source text) :
    ({ workspace with cache := workspace.cache.update path target source text } : Workspace).Serves
      made := by
  refine ⟨serves.service, fun other name entry normal' known found recorded => ?_⟩
  change (workspace.cache.update path target source text).find? ⟨other, name⟩ = some entry at known
  rw [Cache.find?_update] at known
  split at known
  · next alike =>
    obtain ⟨same, rfl⟩ := CacheKey.same_iff.mp alike
    obtain rfl := normal'.eq_of_same normal same
    cases known
    rw [CacheEntry.update_snapshot] at recorded
    rw [CacheEntry.update_source, ← Option.some.inj recorded]
    exact making
  · exact serves.recorded other name entry normal' known found recorded

theorem remove (serves : workspace.Serves made) (path : Path) (target : String) :
    ({ workspace with cache := workspace.cache.remove path target } : Workspace).Serves made := by
  refine ⟨serves.service, fun other name entry normal known => ?_⟩
  change (workspace.cache.remove path target).find? ⟨other, name⟩ = some entry at known
  rw [Cache.find?_remove] at known
  split at known
  · cases known
  · exact serves.recorded other name entry normal known

end Workspace.Serves

/-- A session in which everything recorded was made, with root files that were added to some. -/
structure Session.Serves (made : Makings) (roots : List Path) (session : Session) : Prop where
  workspace : session.workspace.Serves made
  roots : roots <+: session.roots
  tidy : Tidy session.roots

theorem Discreet.serves {α : Type} {step : Step α} (discreet : Discreet step) (roots : List Path) :
    Preserves (Session.Serves made roots) step := fun session serves =>
  let spares := discreet session
  ⟨serves.workspace.of_eq spares.cache spares.service, serves.roots.trans spares.roots,
    spares.tidy serves.tidy⟩

namespace Context

variable {context : Context} {path : Path} {text : String} {roots : List Path} {session : Session}

theorem leaves_roots_emitFile (context : Context) (path : Path) (text : String) :
    Leaves Session.roots (context.emitFile path text) :=
  leaves_iff_follows.mpr (follows_emitFile ⟨fun _ _ roots _ _ _ => roots.symm⟩ context path text)

/-- The emission of a text that was recorded. -/
theorem serves_emitFile (serves : session.Serves made roots) (normal : path.IsNormal)
    (recorded : (session.workspace.cache.get path context.target).snapshot = some text) :
    (endState (context.emitFile path text session)).Serves made roots := by
  have cache := context.leaves_cache_emitFile path text session
  have same := context.leaves_roots_emitFile path text session
  obtain ⟨_, _, service, _, _, _, faithful, ran⟩ := @run_emitFile context path text session _
    recorded serves.workspace.service (serves.workspace.text_of_get normal recorded)
  refine ⟨(serves.workspace.withService faithful).of_eq cache ?_, same ▸ serves.roots,
    same ▸ serves.tidy⟩
  rw [ran]
  unfold Step.journaled
  split <;> rfl

theorem preserves_settle (context : Context) (path : Path) (emission : Emission) :
    Preserves (Session.Serves made roots) (context.settle path emission) := by
  rw [settle_eq]
  refine Preserves.bind (fun session serves => ⟨serves.workspace.modify path context.target
    fun entry text found => ⟨settledEntry_snapshot emission entry ▸ found,
      settledEntry_source emission entry⟩, serves.roots, serves.tidy⟩) fun _ => ?_
  exact (Preserves.forM fun file _ => (Discreet.write _ _).serves roots).bind fun _ =>
    Preserves.pure _

/-- Once a source is prepared, what was made of it is recorded. -/
theorem serves_recorded (discreet : context.Discreet) (normal : path.IsNormal) {source : String}
    {later : Session} (serves : session.Serves made roots)
    (ran : context.prepare path source session = .ok text later)
    (making : made context.target path source text) :
    let recorded := later.mapCache (·.update path context.target source text)
    recorded.Serves made roots ∧
      (recorded.workspace.cache.get path context.target).snapshot = some text := by
  have prepared := (discreet.prepare path source).serves roots session serves
  rw [ran] at prepared
  refine ⟨⟨prepared.workspace.update normal making, prepared.roots, prepared.tidy⟩, ?_⟩
  change ((later.workspace.cache.update path context.target source text).get path
    context.target).snapshot = _
  rw [Cache.get, Cache.get?_eq_find?, Cache.find?_update, if_pos (CacheKey.same_self _)]
  exact CacheEntry.update_snapshot ..

/-- A source is compiled when what its processors make of it is admitted. -/
theorem serves_compileSource (discreet : context.Discreet) (normal : path.IsNormal)
    {source : String} (serves : session.Serves made roots)
    (makes : ∀ text later, context.prepare path source session = .ok text later →
      made context.target path source text) :
    (endState (context.compileSource path source session)).Serves made roots := by
  rw [run_compileSource]
  cases ran : context.prepare path source session with
  | error failure later =>
    have prepared := (discreet.prepare path source).serves roots session serves
    rw [ran] at prepared
    exact prepared
  | ok text later =>
    obtain ⟨updated, recorded⟩ := serves_recorded discreet normal serves ran (makes text later ran)
    have emitted := serves_emitFile updated normal recorded
    dsimp only
    cases made : context.emitFile path text
        (later.mapCache (·.update path context.target source text)) with
    | error failure last =>
      rw [made] at emitted
      exact emitted
    | ok emission last =>
      rw [made] at emitted
      exact context.preserves_settle path emission last emitted

theorem preserves_finish (discreet : context.Discreet) {progress : Progress}
    (normal : ∀ path ∈ progress.compiled, path.IsNormal) :
    Preserves (Session.Serves made roots) (context.finish progress) := by
  refine Preserves.bind Preserves.get fun session => ?_
  refine Preserves.bind (Preserves.forM fun processor member =>
    (discreet.resultProcessors processor member _).serves roots) fun _ => ?_
  refine Preserves.bind (Preserves.forM fun processor member =>
    (discreet.postTransformers processor member _).serves roots) fun _ => ?_
  dsimp only
  split
  · refine Preserves.bind (fun session serves => ?_) fun diagnostics => ?_
    · obtain ⟨_, service, faithful, ran, _⟩ := @run_collectDiagnostics context session _
        progress.compiled progress.result.diagnostics serves.workspace.service
        fun path member text recorded => serves.workspace.text_of_get (normal path member) recorded
      rw [ran]
      exact ⟨serves.workspace.withService faithful, serves.roots, serves.tidy⟩
    · refine Preserves.bind (Preserves.forM fun diagnostic _ session serves => ?_) fun _ =>
        Preserves.pure _
      exact ⟨serves.workspace.of_eq rfl rfl, serves.roots, serves.tidy⟩
  · exact Preserves.pure _

end Context

namespace Compilation

variable {compilation : Compilation} {roots : List Path}

/-- What the processors make in a compilation is among what they may make. -/
def Admits (made : Makings) (compilation : Compilation) : Prop :=
  ∀ source text later, compilation.content? = some source →
    compilation.context.prepare compilation.path source compilation.started = .ok text later →
      made compilation.context.target compilation.path source text

theorem serves_started (serves : compilation.session.Serves made roots) :
    compilation.started.Serves made roots := by
  unfold started
  split
  · refine ⟨serves.workspace.modify _ _ fun entry text recorded => ?_, serves.roots, serves.tidy⟩
    simp [CacheEntry.stale] at recorded
  · exact serves

/-- A compilation of which the makings are admitted. -/
theorem serves_after (discreet : compilation.context.Discreet) (normal : compilation.path.IsNormal)
    (serves : compilation.session.Serves made roots) (admits : compilation.Admits made) :
    compilation.after.Serves made roots := by
  unfold after
  rw [result_eq]
  split
  · exact serves
  · have began := serves_started serves
    rw [Context.run_recompile]
    have system : compilation.started.workspace.system = compilation.session.workspace.system := by
      unfold started
      split <;> rfl
    rw [system]
    cases read : compilation.session.workspace.system.read compilation.path with
    | error error => exact began
    | ok source =>
      exact Context.serves_compileSource discreet normal began fun text later =>
        admits source text later (by rw [content?, read]; rfl)

end Compilation

/-- What addons keep of contexts, when their callbacks are discreet. -/
structure Reticent (A : Addon → Prop) (C : String → Context → Prop) : Prop extends
    Governs Cache.Stays A C where
  service : ∀ addon, A addon → Leaves (fun activation : Activation => activation.workspace.service)
    addon.activate
  roots : ∀ addon, A addon → Leaves (fun activation : Activation => activation.context.roots)
    addon.activate
  discreet : ∀ target context, C target context → context.Discreet

/-- A compilation that begins where everything recorded was made. -/
structure Compilation.Serves (made : Makings) (C : String → Context → Prop)
    (compilation : Compilation) : Prop where
  context : ∃ target, C target compilation.context
  path : compilation.path.IsNormal
  session : compilation.session.Serves made compilation.session.roots

variable {A : Addon → Prop} {C : String → Context → Prop}

/-- What is kept where callbacks are discreet. -/
def serving (made : Makings) (A : Addon → Prop) (C : String → Context → Prop) : Regime where
  workspace := Workspace.Serves made
  context target context := C target context ∧ Tidy context.roots
  addon := A
  path := Path.IsNormal
  admits
    | .compiled compilation => compilation.Admits made
    | _ => True
  shows
    | .compiled compilation => compilation.Serves made C
    | _ => True

/-- What is kept inside a context, and what it is made of. -/
theorem within_serving_iff (governs : Governs Cache.Stays A C) {target : String} {context : Context}
    {session : Session} :
    (serving made A C).Within target context session ↔
      C target context ∧ session.Serves made session.roots := by
  constructor
  · rintro ⟨workspace, good, tidy⟩
    exact ⟨governs.withRoots target { context with roots := session.roots } context.roots good,
      workspace, List.prefix_refl _, tidy⟩
  · rintro ⟨good, serves⟩
    exact ⟨serves.workspace, governs.withRoots target context session.roots good, serves.tidy⟩

theorem Session.Serves.start {roots : List Path} {session : Session}
    (serves : session.Serves made roots) : session.Serves made session.roots :=
  ⟨serves.workspace, List.prefix_refl _, serves.tidy⟩

theorem service_watch {workspace next : Workspace} {path : Path}
    (watched : workspace.watch path = .ok next) : next.service = workspace.service := by
  rcases Workspace.watch_eq_ok watched with rfl | ⟨_, _, _, _, rfl⟩ <;> rfl

theorem service_watchRoot (workspace : Workspace) (path : Path) :
    (workspace.watchRoot path).service = workspace.service := by
  unfold Workspace.watchRoot
  split
  · next watched => exact service_watch watched
  · rfl

theorem lawful_serving (reticent : Reticent A C) : (serving made A C).Lawful where
  compiled target context path force normal session within admitted := by
    obtain ⟨good, serves⟩ := (within_serving_iff reticent.toGoverns).mp within
    let compilation : Compilation := ⟨context, path, force, session⟩
    have after : compilation.after.Serves made session.roots :=
      Compilation.serves_after (reticent.discreet target context good) normal serves
        (admitted (.compiled compilation) (List.mem_singleton.mpr rfl))
    refine ⟨(within_serving_iff reticent.toGoverns).mpr ⟨good, after.start⟩,
      fun event member => ?_, fun _ _ _ => trivial⟩
    rw [List.mem_singleton.mp member]
    exact ⟨⟨target, good⟩, normal, serves⟩
  finished target context progress normal session within := by
    obtain ⟨good, serves⟩ := (within_serving_iff reticent.toGoverns).mp within
    have after := Context.preserves_finish (reticent.discreet target context good) normal
      session serves
    exact (within_serving_iff reticent.toGoverns).mpr ⟨good, after.start⟩
  roots _ _ kept := kept.2.normal
  resolved _ _ := Path.isNormal_resolveFrom _ _
  evicted _ key serves := ⟨serves.remove key.path key.target, trivial⟩
  watched workspace path _ serves :=
    serves.of_eq (cache_watchRoot workspace path) (service_watchRoot workspace path)
  told _ _ _ serves := serves.of_eq rfl rfl

theorem founded_serving (reticent : Reticent A C) : (serving made A C).Founded where
  toLawful := lawful_serving reticent
  bare setup system target roots found := ⟨reticent.bare setup system target roots,
    fun root member => Project.isNormal_of_mem_rootFiles found member,
    Project.nodup_rootFiles found⟩
  activated addon known target activation kept := by
    obtain ⟨serves, good, tidy⟩ := kept
    refine ⟨serves.of_eq (reticent.cache addon known activation)
      (reticent.service addon known activation), reticent.activated addon known target activation
        good, ?_⟩
    have same := reticent.roots addon known activation
    dsimp only at same
    exact same ▸ tidy
  closed _ serves := serves.of_eq rfl rfl
  cleared _ serves := ⟨serves.service, fun _ _ _ _ none => by simp at none⟩
  shown := trivial

/-- Contexts with discreet callbacks are what discreet addons keep. -/
theorem reticent_discreet : Reticent Addon.Discreet fun _ context => context.Discreet where
  cache _ discreet := discreet.cache
  bare setup system target roots := by
    refine ⟨fun watch wanted path workspace next watched => ?_, by simp, by simp, by simp, by simp⟩
    obtain ⟨_, rfl⟩ := Setup.watch?_scope wanted
    exact ⟨cache_watch watched, service_watch watched⟩
  activated _ discreet _ activation := discreet.context activation
  withRoots _ _ roots discreet := discreet.withRoots roots
  service _ discreet := discreet.service
  roots _ discreet := discreet.roots
  discreet _ _ discreet := discreet

theorem Reticent.keeping (reticent : Reticent A C) : Keeping Evolves A C :=
  reticent.toGoverns.keeping fun target context good =>
    (reticent.discreet target context good).keepsCache

/-- What happens to a compiler of which all addons are of some kind, and files are compiled under
paths in normal form. -/
def Action.Orderly (A : Addon → Prop) : Action → Prop
  | configure setup => setup.registry.All A
  | compileFile _ path _ => path.IsNormal
  | _ => True

theorem Action.Orderly.brings {action : Action} (orderly : action.Orderly A) :
    action.Brings A := by
  cases action with
  | configure setup => exact orderly
  | _ => trivial

/-- Along a whole life everything recorded was made. -/
theorem serves_history (reticent : Reticent A C) {actions : List Action}
    (orderly : ∀ action ∈ actions, action.Orderly A) (system : Files.System)
    (admits : ∀ compilation, .compiled compilation ∈ history actions (.ofSystem system) →
      compilation.Admits made) :
    (serving made A C).Holds ((Compiler.ofSystem system).runAll actions) ∧
      ∀ compilation, .compiled compilation ∈ history actions (.ofSystem system) →
        compilation.Serves made C := by
  have allowed (action : Action) (member : action ∈ actions) :
      (serving made A C).Allows action := by
    have kept := orderly action member
    cases action with
    | edit change => exact fun _ serves => serves.of_eq rfl rfl
    | configure setup => exact kept
    | compileFile target path force => exact kept
    | _ => trivial
  have start : (serving made A C).Holds (Compiler.ofSystem system) := by
    refine ⟨⟨Service.faithful_empty none, fun _ _ _ _ none => ?_⟩, fun _ _ none => ?_,
      fun _ none => ?_⟩
    · simp [Compiler.ofSystem] at none
    · simp [Compiler.ofSystem, Compiler.context?] at none
    · simp [Compiler.ofSystem] at none
  obtain ⟨kept, shown⟩ := Regime.lives_history (founded_serving reticent).lasting allowed start
    fun event member => by
      cases event with
      | compiled compilation => exact admits compilation member
      | evicted | cleared => trivial
  exact ⟨kept, fun compilation member => shown _ member⟩

end Serving

end Recast.Build
