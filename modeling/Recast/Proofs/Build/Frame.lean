import Recast.Proofs.Build.Entries
import Recast.Proofs.Build.Following

/-! # What a compilation may change in the cache

Emission, diagnostics and writing leave the cache alone, and so do callbacks that only do what they
are there for (`Context.KeepsCache`). What is left are the few places at which a compilation records
something, and those are all about the entry of its own file and target.
-/

namespace Recast.Build

open Recast.Emit

/-- The cache of a session. -/
abbrev Session.cache (session : Session) : Cache := session.workspace.cache

/-- The callbacks of a context leave the cache alone, and so does watching a file for them. -/
structure Context.KeepsCache (context : Context) : Prop where
  watch : ∀ watch, context.watch? = some watch → ∀ path workspace next,
    watch path workspace = .ok next → next.cache = workspace.cache
  generators : ∀ generator ∈ context.generators, ∀ path source,
    Leaves Session.cache (generator context.toScope path source)
  processors : ∀ processor ∈ context.processors, ∀ path source,
    Leaves Session.cache (processor context.toScope path source)
  resultProcessors : ∀ processor ∈ context.resultProcessors, ∀ roots,
    Leaves Session.cache (processor context.toScope roots)
  postTransformers : ∀ processor ∈ context.postTransformers, ∀ roots,
    Leaves Session.cache (processor context.toScope roots)

theorem Context.KeepsCache.withRoots {context : Context} (keeps : context.KeepsCache)
    (roots : List Path) :
    ({ context with roots := roots } : Context).KeepsCache :=
  ⟨keeps.watch, keeps.generators, keeps.processors, keeps.resultProcessors, keeps.postTransformers⟩

/-- A context may get one more generator, processor or result processor that leaves the cache
alone. -/
theorem Context.KeepsCache.withGenerator {context : Context} (keeps : context.KeepsCache)
    {generator : Generator}
    (leaves : ∀ path source, Leaves Session.cache (generator context.toScope path source)) :
    ({ context with generators := context.generators ++ [generator] } : Context).KeepsCache :=
  ⟨keeps.watch, List.forall_mem_append.mpr ⟨keeps.generators, List.forall_mem_singleton.mpr leaves⟩,
    keeps.processors, keeps.resultProcessors, keeps.postTransformers⟩

theorem Context.KeepsCache.withProcessor {context : Context} (keeps : context.KeepsCache)
    {processor : Processor}
    (leaves : ∀ path source, Leaves Session.cache (processor context.toScope path source)) :
    ({ context with processors := context.processors ++ [processor] } : Context).KeepsCache :=
  ⟨keeps.watch, keeps.generators,
    List.forall_mem_append.mpr ⟨keeps.processors, List.forall_mem_singleton.mpr leaves⟩,
    keeps.resultProcessors, keeps.postTransformers⟩

theorem Context.KeepsCache.withResultProcessor {context : Context} (keeps : context.KeepsCache)
    {processor : ResultProcessor}
    (leaves : ∀ roots, Leaves Session.cache (processor context.toScope roots)) :
    ({ context with resultProcessors := context.resultProcessors ++ [processor] } :
      Context).KeepsCache :=
  ⟨keeps.watch, keeps.generators, keeps.processors,
    List.forall_mem_append.mpr ⟨keeps.resultProcessors, List.forall_mem_singleton.mpr leaves⟩,
    keeps.postTransformers⟩

namespace Step

theorem leaves_cache_write (path : Path) (text : String) :
    Leaves Session.cache (write path text) := by
  intro session
  simp only [write, workspace, modifyWorkspace, run_bind, run_get, run_pure, run_modify]
  cases (session.workspace.system.write path text).2 <;> rfl

end Step

namespace Context

/-- What is said leaves the cache alone. -/
theorem disregards_cache : Disregards (InvImage Eq Session.cache) :=
  ⟨fun _ _ _ _ _ cache => cache.symm⟩

theorem leaves_cache_emitFile (context : Context) (path : Path) (text : String) :
    Leaves Session.cache (context.emitFile path text) :=
  leaves_iff_follows.mpr (follows_emitFile disregards_cache context path text)

theorem leaves_cache_finish {context : Context} (keeps : context.KeepsCache) (progress : Progress) :
    Leaves Session.cache (context.finish progress) :=
  leaves_iff_follows.mpr (follows_finish disregards_cache
    ⟨fun processor member roots =>
      leaves_iff_follows.mp (keeps.resultProcessors processor member roots),
      fun processor member roots =>
        leaves_iff_follows.mp (keeps.postTransformers processor member roots)⟩ progress)

theorem leaves_cache_prepare {context : Context} (keeps : context.KeepsCache) (path : Path)
    (source : String) : Leaves Session.cache (context.prepare path source) :=
  leaves_iff_follows.mpr (follows_prepare
    ⟨fun generator member path source =>
      leaves_iff_follows.mp (keeps.generators generator member path source),
      fun processor member path source =>
        leaves_iff_follows.mp (keeps.processors processor member path source)⟩ path source)

/-- The cache after a step on the entry of one key, seen at another key. -/
private theorem leaves_find?_modifyCache {key : CacheKey} {f : Cache → Cache}
    (elsewhere : ∀ cache, (f cache).find? key = cache.find? key) :
    Leaves (fun session : Session => session.cache.find? key) (Step.modifyCache f) :=
  fun session => elsewhere session.cache

private theorem Leaves.find? {α : Type} {key : CacheKey} {step : Step α}
    (leaves : Leaves Session.cache step) :
    Leaves (fun session : Session => session.cache.find? key) step :=
  fun session => congrArg (Cache.find? · key) (leaves session)

section Elsewhere

variable {context : Context} {path : Path} {key : CacheKey}
  (elsewhere : key.same ⟨path, context.target⟩ = false)

include elsewhere

theorem leaves_find?_settle (emission : Emission) :
    Leaves (fun session : Session => session.cache.find? key) (context.settle path emission) := by
  rw [settle_eq]
  refine Leaves.bind (leaves_find?_modifyCache fun cache => ?_) fun _ => ?_
  · rw [Cache.find?_modify, elsewhere, if_neg Bool.false_ne_true]
  · exact (Leaves.forM fun file _ => Leaves.find? (Step.leaves_cache_write _ _)).bind fun _ =>
      Leaves.pure _

theorem leaves_find?_recompile (keeps : context.KeepsCache) :
    Leaves (fun session : Session => session.cache.find? key) (context.recompile path) := by
  refine Leaves.bind (fun _ => rfl) fun workspace => ?_
  split
  · exact Leaves.pure _
  · rw [compileSource_eq]
    refine (Leaves.find? (leaves_cache_prepare keeps _ _)).bind fun text => ?_
    refine Leaves.bind (leaves_find?_modifyCache fun cache => ?_) fun _ => ?_
    · simp [Cache.find?_update, elsewhere]
    · exact (Leaves.find? (context.leaves_cache_emitFile _ _)).bind fun emission =>
        leaves_find?_settle elsewhere emission

/-- A compilation does not touch what the cache knows of other files, or of the same file under
other targets. -/
theorem leaves_find?_compileFile (keeps : context.KeepsCache) (force : Bool) :
    Leaves (fun session : Session => session.cache.find? key) (context.compileFile path force) := by
  unfold compileFile
  split
  · refine Leaves.bind (leaves_find?_modifyCache fun cache => ?_) fun _ =>
      leaves_find?_recompile elsewhere keeps
    simp [Cache.markStale, Cache.find?_modify, elsewhere]
  · refine Leaves.bind (fun _ => rfl) fun workspace => ?_
    split
    · exact leaves_find?_recompile elsewhere keeps
    · exact Leaves.pure _

end Elsewhere

end Context

end Recast.Build
