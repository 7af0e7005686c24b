import Recast.Proofs.Build.Contexts
import Recast.Proofs.Build.Frame
import Recast.Proofs.Build.Phases
import Recast.Proofs.Build.UpToDate
import Recast.Proofs.Files.Writing

/-! # What a compilation of a file touches

A compilation that succeeds ends in one of three ways. It is served from the cache and changes
nothing at all; it has no output, and leaves the files and the outputs that the cache holds where
they are; or its outputs replace those in the cache and, if the target writes, are written. What the
cache holds under other keys stays in any case.

This is so where callbacks only read (`Context.OnlyReads`). Transformers cannot do anything else:
all that they reach is the journal.
-/

namespace Recast.Build

open Recast.Emit Recast.Files

/-- The files of a workspace, whatever watches them. -/
def Workspace.files (workspace : Workspace) : System := workspace.system.unwatched

/-- No generator runs in the context, and its processors touch neither the cache nor files. -/
structure Context.OnlyReads (context : Context) : Prop where
  generators : context.generators = []
  cache : ∀ processor ∈ context.processors, ∀ path source,
    Leaves Session.cache (processor context.toScope path source)
  files : ∀ processor ∈ context.processors, ∀ path source,
    Leaves (fun session => session.workspace.files) (processor context.toScope path source)

/-- What may have been recorded for a key while its outputs, all other entries and the files stayed
as they were. -/
structure Workspace.Spared (key : CacheKey) (before after : Workspace) : Prop where
  elsewhere : ∀ other : CacheKey, other.same key = false →
    after.cache.find? other = before.cache.find? other
  outputs : (after.cache.get key.path key.target).outputs =
    (before.cache.get key.path key.target).outputs
  files : after.files = before.files

namespace Workspace.Spared

variable {key : CacheKey} {a b c : Workspace}

theorem of_eq (cache : b.cache = a.cache) (files : b.files = a.files) : Spared key a b :=
  ⟨fun _ _ => by rw [cache], by rw [cache], files⟩

theorem trans (first : Spared key a b) (second : Spared key b c) : Spared key a c :=
  ⟨fun other apart => (second.elsewhere other apart).trans (first.elsewhere other apart),
    second.outputs.trans first.outputs, second.files.trans first.files⟩

/-- A change of an entry that keeps its outputs. -/
theorem modify {f : CacheEntry → CacheEntry} (kept : ∀ entry, (f entry).outputs = entry.outputs)
    (session : Session) (path : Path) (target : String) :
    Spared ⟨path, target⟩ session.workspace (session.mapCache (·.modify path target f)).workspace
    where
  elsewhere other apart := by
    change (session.cache.modify path target f).find? other = _
    rw [Cache.find?_modify, apart, if_neg Bool.false_ne_true]
  outputs := by
    change (((session.cache.modify path target f).find? ⟨path, target⟩).getD {}).outputs =
      ((session.cache.find? ⟨path, target⟩).getD {}).outputs
    rw [Cache.find?_modify, CacheKey.same_self, if_pos rfl]
    cases session.cache.find? ⟨path, target⟩ with
    | none => rfl
    | some entry => exact kept entry
  files := rfl

theorem update (session : Session) (path : Path) (target source text : String) :
    Spared ⟨path, target⟩ session.workspace
      (session.mapCache (·.update path target source text)).workspace where
  elsewhere other apart := by
    change (session.cache.update path target source text).find? other = _
    rw [Cache.find?_update, apart, if_neg Bool.false_ne_true]
  outputs := by
    change (((session.cache.update path target source text).find? ⟨path, target⟩).getD {}).outputs =
      ((session.cache.find? ⟨path, target⟩).getD {}).outputs
    rw [Cache.find?_update, CacheKey.same_self, if_pos rfl, Option.getD_some,
      CacheEntry.update_outputs]
  files := rfl

end Workspace.Spared

/-- A compilation that was not served from the cache, by what it did to the entry of its file and
to the files. -/
structure Context.Touched (context : Context) (path : Path) (emission : Emission)
    (before after : Workspace) : Prop where
  elsewhere : ∀ key : CacheKey, key.same ⟨path, context.target⟩ = false →
    after.cache.find? key = before.cache.find? key
  skipped : emission.skipped = true →
    (after.cache.get path context.target).outputs =
        (before.cache.get path context.target).outputs ∧
      after.files = before.files
  emitted : emission.skipped = false →
    (after.cache.get path context.target).outputs = emission.files
  written : emission.skipped = false → context.writesFiles = true →
    System.Written before.files emission.files after.files
  unwritten : emission.skipped = false → context.writesFiles = false →
    after.files = before.files

namespace Step

/-- Files that are all written are written one after the other. -/
theorem written_of_forM_write {files : List OutputFile} {session later : Session}
    (ran : (files.forM fun file => write file.name file.diskText) session = .ok () later) :
    System.Written session.workspace.files files later.workspace.files ∧
      later.cache = session.cache := by
  induction files generalizing session with
  | nil =>
    cases ran
    exact ⟨.nil _, rfl⟩
  | cons file files ih =>
    obtain ⟨⟨⟩, middle, first, rest⟩ := exists_of_bind_eq_ok ran
    obtain ⟨written, rfl⟩ := write_eq_ok first
    obtain ⟨others, cache⟩ := ih rest
    have same := session.workspace.system.write_unwatched file.name file.diskText
    refine ⟨.cons ((congrArg Prod.snd same).trans written) ?_, cache⟩
    rw [show session.workspace.files.write file.name file.diskText = _ from same]
    exact others

end Step

namespace Context

variable {context : Context} {path : Path} {emission : Emission}

namespace Touched

variable {before after : Workspace}

/-- What is recorded first does not count as long as it spares files and outputs. -/
theorem behind {first : Workspace} (touched : context.Touched path emission before after)
    (spared : first.Spared ⟨path, context.target⟩ before) :
    context.Touched path emission first after where
  elsewhere key apart := (touched.elsewhere key apart).trans (spared.elsewhere key apart)
  skipped skips :=
    ⟨(touched.skipped skips).1.trans spared.outputs, (touched.skipped skips).2.trans spared.files⟩
  emitted := touched.emitted
  written emits writes := spared.files ▸ touched.written emits writes
  unwritten emits quiet := (touched.unwritten emits quiet).trans spared.files

theorem of_skipped (skips : emission.skipped = true)
    (spared : before.Spared ⟨path, context.target⟩ after) :
    context.Touched path emission before after := by
  have never {P : Prop} (emits : emission.skipped = false) : P := by
    rw [skips] at emits
    cases emits
  exact ⟨spared.elsewhere, fun _ => ⟨spared.outputs, spared.files⟩, never, never, never⟩

end Touched

/-- The end of a compilation of which the entry is there. -/
theorem touched_settle {made : Emission} {session later : Session}
    (known : (session.cache.find? ⟨path, context.target⟩).isSome)
    (ran : context.settle path made session = .ok emission later) :
    context.Touched path emission session.workspace later.workspace := by
  cases lacks : lacksOutput made with
  | true =>
    rw [run_settle_of_lacksOutput lacks] at ran
    cases ran
    exact .of_skipped rfl (.modify (f := (·.withoutOutput)) (fun _ => rfl) session path _)
  | false =>
    have elsewhere (key : CacheKey) (apart : key.same ⟨path, context.target⟩ = false) :
        later.cache.find? key = session.cache.find? key := by
      have left := leaves_find?_settle apart made session
      rwa [ran] at left
    have outputs : ((session.mapCache (·.setOutputs path context.target made.files)).cache.get path
        context.target).outputs = made.files := by
      obtain ⟨entry, found⟩ := Option.isSome_iff_exists.mp known
      change (((session.cache.modify path context.target (·.withOutputs made.files)).find?
        ⟨path, context.target⟩).getD {}).outputs = _
      rw [Cache.find?_modify, CacheKey.same_self, if_pos rfl, found]
      rfl
    rw [run_settle_of_not_lacksOutput lacks] at ran
    obtain ⟨⟨⟩, middle, written, ended⟩ := exists_of_bind_eq_ok ran
    cases ended
    cases writes : context.writesFiles with
    | true =>
      rw [writes, if_pos rfl] at written
      obtain ⟨written, cache⟩ := Step.written_of_forM_write written
      refine ⟨elsewhere, nofun, fun _ => ?_, fun _ _ => written, fun _ quiet => ?_⟩
      · exact (congrArg (fun cache => (cache.get path context.target).outputs) cache).trans outputs
      · rw [writes] at quiet
        cases quiet
    | false =>
      rw [writes] at written
      cases written
      refine ⟨elsewhere, nofun, fun _ => outputs, fun _ quiet => ?_, fun _ _ => rfl⟩
      rw [writes] at quiet
      cases quiet

/-- Files and cache are not touched when a file is emitted. -/
theorem leaves_files_emitFile (context : Context) (path : Path) (text : String) :
    Leaves (fun session : Session => session.workspace.files) (context.emitFile path text) :=
  leaves_iff_follows.mpr (follows_emitFile
    ⟨fun _ _ _ system _ _ => congrArg System.unwatched system.symm⟩ context path text)

/-- Neither does what runs on a source, if it only reads. -/
theorem OnlyReads.leaves_prepare {γ : Type} {observe : Session → γ} (reads : context.OnlyReads)
    (processors : ∀ processor ∈ context.processors, ∀ path source,
      Leaves observe (processor context.toScope path source)) (path : Path) (source : String) :
    Leaves observe (context.prepare path source) := by
  have prepares : context.PreparesIn (InvImage Eq observe) := by
    refine ⟨fun generator member => ?_, fun processor member path source =>
      leaves_iff_follows.mp (processors processor member path source)⟩
    rw [reads.generators] at member
    cases member
  exact leaves_iff_follows.mpr (follows_prepare prepares path source)

theorem touched_compileSource (reads : context.OnlyReads) {source : String}
    {session later : Session}
    (ran : context.compileSource path source session = .ok emission later) :
    context.Touched path emission session.workspace later.workspace := by
  have cache := reads.leaves_prepare reads.cache path source session
  have files := reads.leaves_prepare reads.files path source session
  rw [run_compileSource] at ran
  cases prepared : context.prepare path source session with
  | error failure next =>
    rw [prepared] at ran
    cases ran
  | ok text next =>
    rw [prepared] at ran cache files
    have prepares : session.workspace.Spared ⟨path, context.target⟩ next.workspace :=
      .of_eq cache files
    have records := Workspace.Spared.update next path context.target source text
    have cache := context.leaves_cache_emitFile path text
      (next.mapCache (·.update path context.target source text))
    have files := context.leaves_files_emitFile path text
      (next.mapCache (·.update path context.target source text))
    dsimp only at ran
    cases emitted : context.emitFile path text
        (next.mapCache (·.update path context.target source text)) with
    | error failure last =>
      rw [emitted] at ran
      cases ran
    | ok made last =>
      rw [emitted] at ran cache files
      have known : (last.cache.find? ⟨path, context.target⟩).isSome := by
        rw [show last.cache = _ from cache]
        change ((next.cache.update path context.target source text).find? _).isSome
        rw [Cache.find?_update, CacheKey.same_self]
        rfl
      exact (touched_settle known ran).behind
        ((prepares.trans records).trans (.of_eq cache files))

theorem touched_recompile (reads : context.OnlyReads) {session later : Session}
    (ran : context.recompile path session = .ok emission later) :
    context.Touched path emission session.workspace later.workspace := by
  rw [run_recompile] at ran
  cases read : session.workspace.system.read path with
  | error error =>
    rw [read] at ran
    cases ran
    exact .of_skipped rfl (.of_eq rfl rfl)
  | ok source =>
    rw [read] at ran
    exact touched_compileSource reads ran

/-- A compilation is served from the cache and changes nothing, or it touches the entry of its file
and the places of its outputs only. -/
theorem compileFile_spec (reads : context.OnlyReads) {force : Bool} {session later : Session}
    (ran : context.compileFile path force session = .ok emission later) :
    if force = false ∧
        session.cache.hasChanged session.workspace.system path context.target = false then
      later = session ∧ emission = { files := (session.cache.get path context.target).outputs }
    else context.Touched path emission session.workspace later.workspace := by
  cases force with
  | true =>
    rw [run_compileFile_force] at ran
    exact (touched_recompile reads ran).behind
      (.modify (f := (·.stale)) (fun _ => rfl) session path _)
  | false =>
    rw [run_compileFile] at ran
    cases changed : session.cache.hasChanged session.workspace.system path context.target with
    | true =>
      rw [show session.workspace.cache.hasChanged _ _ _ = true from changed] at ran
      exact touched_recompile reads ran
    | false =>
      rw [show session.workspace.cache.hasChanged _ _ _ = false from changed] at ran
      cases ran
      exact ⟨rfl, rfl⟩

end Context

/-- An addon leaves the cache alone when it is activated, and what it registers only reads. -/
structure Addon.OnlyReads (addon : Addon) : Prop where
  cache : Leaves (fun activation : Activation => activation.workspace.cache) addon.activate
  context : Preserves (fun activation : Activation => activation.context.OnlyReads) addon.activate

theorem governs_onlyReads :
    Governs Cache.Stays Addon.OnlyReads fun _ context => context.OnlyReads where
  cache _ reads := reads.cache
  bare _ _ _ _ := ⟨rfl, by simp, by simp⟩
  activated _ reads _ activation := reads.context activation
  withRoots _ _ _ reads := ⟨reads.generators, reads.cache, reads.files⟩

namespace Compiler

variable {compiler : Compiler} {target : String} {context : Context}

/-- A step that changes neither the workspace nor the root files of its context changes nothing, if
there is one context for each target. -/
theorem absorb_self (distinct : (compiler.contexts.map (·.1)).Nodup)
    (known : compiler.context? target = some context) :
    compiler.absorb target ⟨compiler.workspace, context.roots⟩ = compiler := by
  have only (entry : String × Context) (member : entry ∈ compiler.contexts)
      (here : entry.1 = target) : entry.2 = context := by
    obtain ⟨before, behind, spelled, fresh⟩ := List.lookup_eq_some_iff.mp known
    rw [spelled, List.map_append, List.map_cons] at distinct
    have behindOnly := (List.nodup_cons.mp (List.nodup_append.mp distinct).2.1).1
    rw [spelled] at member
    rcases List.mem_append.mp member with earlier | later
    · exact absurd here.symm (by simpa using fresh entry earlier)
    · rcases List.mem_cons.mp later with rfl | later
      · rfl
      · have named := List.mem_map_of_mem (f := (·.1)) later
        rw [here] at named
        exact absurd named behindOnly
  have same : updateContext compiler.contexts target
      (fun other => { other with roots := context.roots }) = compiler.contexts := by
    refine (List.map_congr_left fun entry member => ?_).trans (List.map_id _)
    split
    · next here => exact Prod.ext rfl (by rw [id_eq, only entry member here])
    · rfl
  unfold absorb
  rw [same]

end Compiler

/-- What a compilation of a file may change, whatever a compiler lived through, where callbacks only
read. Served from the cache it changes nothing at all. Otherwise it leaves all other entries of the
cache alone. Without output it leaves the files and the outputs of its entry alone too. With output
these become the outputs of the entry, and what is written if the target writes. -/
theorem compileFile_touches (system : System) (limit : Nat) (actions : List Action) :
    let start : Compiler := { Compiler.ofSystem system with rootLimit := limit }
    let compiler := start.runAll actions
    let workspace := compiler.workspace
    ∀ target context, compiler.context? target = some context → context.OnlyReads →
      ∀ path force emission next,
        Compiler.compileFile target path force compiler = .ok emission next →
          if force = false ∧
              workspace.cache.hasChanged workspace.system path context.target = false then
            next = compiler ∧
              emission = { files := (workspace.cache.get path context.target).outputs }
          else context.Touched path emission workspace next.workspace := by
  intro start compiler workspace target context known reads path force emission next ran
  have distinct : (compiler.contexts.map (·.1)).Nodup := by
    have fits := bare_or_orderly_runAll (.inl (Compiler.bare_ofSystem system limit)) actions
    rcases fits with bare | ordered
    · exact bare.consistent.distinct
    · exact ordered.choose_spec.distinct
  obtain ⟨_, session, known', compiled, rfl⟩ := Compiler.exists_of_inContext_eq_ok ran
  cases known.symm.trans known'
  have spec := context.compileFile_spec reads compiled
  by_cases served : force = false ∧
      workspace.cache.hasChanged workspace.system path context.target = false
  · rw [if_pos served] at spec ⊢
    obtain ⟨rfl, answer⟩ := spec
    exact ⟨Compiler.absorb_self distinct known, answer⟩
  · rw [if_neg served] at spec ⊢
    exact spec

section Marking

def markedPath : Path := ⟨true, ["a.ts"]⟩

/-- An addon that puts a line in front of every source. -/
def headingAddon : Addon where
  name := "heading"
  activate := Activation.registerProcessor fun _ _ source => return "// heading\n" ++ source

theorem onlyReads_headingAddon : headingAddon.OnlyReads where
  cache _ := rfl
  context activation reads := by
    have each {γ : Type} {observe : Session → γ}
        (others : ∀ processor ∈ activation.context.processors, ∀ path source,
          Leaves observe (processor activation.context.toScope path source)) :
        ∀ processor ∈ (endState (headingAddon.activate activation)).context.processors,
          ∀ path source, Leaves observe (processor activation.context.toScope path source) := by
      intro processor member path source
      rcases List.mem_append.mp member with known | heading
      · exact others processor known path source
      · rw [List.mem_singleton.mp heading]
        exact .pure _
    exact ⟨reads.generators, each reads.cache, each reads.files⟩

def markingSetup : Setup where
  projectRoot := ⟨true, []⟩
  project := { files := [markedPath], options := { emitBom := some true } }
  transpileOnly := true
  registry :=
    { explicit := [], project? := none, resolve := fun _ _ _ => .error .notConfigured,
      entries := [("heading", .loaded headingAddon)] }

theorem all_onlyReads_marking : markingSetup.registry.All Addon.OnlyReads :=
  .of_only onlyReads_headingAddon rfl fun _ _ _ _ => nofun

def markingTree : MemoryTree :=
  (MemoryTree.new ⟨true, []⟩ true).write markedPath "let a = 1;\n"

def markingActions : List Action := [.configure markingSetup, .ensureContexts]

/-- A compiler that has not compiled its root file, and marks what it writes. -/
def markingCompiler : Compiler :=
  { Compiler.ofSystem (.memory markingTree) with rootLimit := 9 }.runAll markingActions

/-- Whether an emission had output, and its files. -/
def emittedBy (result : EStateM.Result Failure Compiler Emission) :
    Option (Bool × List OutputFile) :=
  match result with
  | .ok emission _ => some (emission.skipped, emission.files)
  | .error _ _ => none

/-- The output lies where the file names it, behind a byte order mark. -/
theorem compileFile_touches_marked :
    ∃ context emission next, markingCompiler.context? "*" = some context ∧ context.OnlyReads ∧
      Compiler.compileFile "*" markedPath false markingCompiler = .ok emission next ∧
      context.Touched markedPath emission markingCompiler.workspace next.workspace ∧
      next.workspace.files.stored? ⟨true, ["a.js"]⟩ =
        some "\ufeff// heading\nlet a = 1;\n".toUTF8 := by
  have emitted : emittedBy (Compiler.compileFile "*" markedPath false markingCompiler) =
      some (false, [⟨⟨true, ["a.js"]⟩, "// heading\nlet a = 1;\n", true⟩]) := by decide +kernel
  have isSome : (markingCompiler.context? "*").isSome = true := by decide +kernel
  have writing : (markingCompiler.context? "*").map (·.writesFiles) = some true := by
    decide +kernel
  have empty : markingCompiler.workspace.cache.entries.length = 0 := by decide +kernel
  have changed (target : String) : markingCompiler.workspace.cache.hasChanged
      markingCompiler.workspace.system markedPath target = true := by
    rw [Cache.hasChanged, Cache.get?, List.length_eq_zero_iff.mp empty, Cache.lookup]
  obtain ⟨context, known⟩ := Option.isSome_iff_exists.mp isSome
  rw [known] at writing
  have brings : ∀ action ∈ markingActions, action.Brings Addon.OnlyReads := by
    simpa [markingActions, Action.Brings] using all_onlyReads_marking
  have holds : markingCompiler.Holds Addon.OnlyReads fun _ context => context.OnlyReads :=
    .runAll governs_onlyReads brings
      ((Compiler.Holds.ofSystem (.memory markingTree)).of_eq rfl rfl)
  have reads : context.OnlyReads := holds.context known
  cases ran : Compiler.compileFile "*" markedPath false markingCompiler with
  | error failure next =>
    rw [ran] at emitted
    cases emitted
  | ok emission next =>
    rw [ran] at emitted
    obtain ⟨skips, files⟩ := Prod.mk.inj (Option.some.inj emitted)
    have touched :=
      compileFile_touches (.memory markingTree) 9 markingActions "*" context known reads _ _ _ _ ran
    rw [if_neg] at touched
    · refine ⟨context, emission, next, known, reads, rfl, touched, ?_⟩
      have written := touched.written skips (Option.some.inj writing)
      exact written.there [] _ [] files fun _ member => absurd member List.not_mem_nil
    · rintro ⟨_, served⟩
      cases (changed _).symm.trans served

end Marking

end Recast.Build
