import Recast.Proofs.Build.Quiet

/-! # Compilations in pure contexts

In a pure context and on files in memory, a compilation only changes the cache, the language service
and the files, and how it does so is an equation (`run_recompile_of_pure`). A clean compilation is
what it would give with nothing known (`clean`).
-/

namespace Recast.Files.MemoryTree

/-- The tree with output files written into it. -/
def writeAll (tree : MemoryTree) (files : List OutputFile) : MemoryTree :=
  files.foldl (fun tree file => tree.write file.name file.diskText) tree

theorem writeAll_frame (tree : MemoryTree) (files : List OutputFile) :
    (tree.writeAll files).current = tree.current ∧
      (tree.writeAll files).supportsWatch = tree.supportsWatch := by
  induction files generalizing tree with
  | nil => exact ⟨rfl, rfl⟩
  | cons file files ih => exact ih _

theorem read_write (tree : MemoryTree) (p q : Path) (text : String) :
    (tree.write p text).read q = if (tree.resolve q).same (tree.resolve p) then .ok text
      else tree.read q := by
  have found := PathMap.get?_insert tree.files (tree.resolve q) (tree.resolve p) text
  have resolved : (tree.write p text).resolve q = tree.resolve q := rfl
  have files : (tree.write p text).files = tree.files.insert (tree.resolve p) text := rfl
  rw [read, file?, resolved, files, found]
  cases (tree.resolve q).same (tree.resolve p) <;> rfl

theorem read_remove (tree : MemoryTree) (p q : Path) :
    (tree.remove p).read q =
      if (tree.resolve q).same (tree.resolve p) then .error (.notFound (tree.resolve q))
        else tree.read q := by
  have found := PathMap.get?_erase tree.files (tree.resolve q) (tree.resolve p)
  have resolved : (tree.remove p).resolve q = tree.resolve q := rfl
  have files : (tree.remove p).files = tree.files.erase (tree.resolve p) := rfl
  rw [read, file?, resolved, files, found]
  cases (tree.resolve q).same (tree.resolve p) <;> rfl

/-- Outputs that are written elsewhere leave a file as it is. -/
theorem read_writeAll {tree : MemoryTree} {files : List OutputFile} {q : Path}
    (apart : ∀ file ∈ files, (tree.resolve q).same (tree.resolve file.name) = false) :
    (tree.writeAll files).read q = tree.read q := by
  induction files generalizing tree with
  | nil => rfl
  | cons file files ih =>
    have first := read_write tree file.name q file.diskText
    rw [apart file (List.mem_cons_self ..), if_neg Bool.false_ne_true] at first
    have rest : ((tree.write file.name file.diskText).writeAll files).read q =
        (tree.write file.name file.diskText).read q :=
      ih fun other member => apart other (List.mem_cons_of_mem _ member)
    exact rest.trans first

end Recast.Files.MemoryTree

namespace Recast.Build

open Recast.Emit Recast.Script Recast.Files

namespace Step

variable {session : Session} {tree : MemoryTree}

theorem run_write (memory : session.workspace.system = .memory tree) (path : Path) (text : String) :
    write path text session = .ok () (session.withSystem (.memory (tree.write path text))) := by
  unfold write
  rw [run_bind_ok (run_workspace session), memory]
  rfl

theorem run_writeAll (memory : session.workspace.system = .memory tree) (files : List OutputFile) :
    (files.forM fun file => write file.name file.diskText) session =
      .ok () (session.withSystem (.memory (tree.writeAll files))) := by
  induction files generalizing session tree with
  | nil =>
    change EStateM.Result.ok () session = _
    rw [MemoryTree.writeAll, List.foldl_nil, ← memory]
    rfl
  | cons file files ih =>
    exact (run_bind_ok (f := fun _ => files.forM fun file => write file.name file.diskText)
      (run_write memory file.name file.diskText)).trans (ih rfl)

theorem run_journaled_of_quiet {α : Type} [Inhabited α] {step : Journaled α} (quiet : Quiet step)
    (session : Session) :
    journaled step session = .ok (answer step) session := by
  unfold journaled
  rw [quiet.run]

end Step

namespace Context

variable {context : Context} {path : Path} {session : Session} {tree : MemoryTree}
    {texts : Path → String → Prop}

/-- The emission of a file by a service that may take the tree of another text. -/
def emissionWith (context : Context) (path : Path) (text : String) (tree : Tree) : Emission :=
  answer (if context.transpileOnly then
      transpileFile path text context.options context.projectRoot context.transformers
    else context.emitsTree path text tree)

/-- The outputs of a service that takes another tree for a file are those of the file, or those of
the other text under the path that it belongs to. -/
theorem files_emissionWith (context : Context) {spelled : Path} (text other : String)
    (same : path.same spelled = true) :
    (context.emissionWith path text (Tree.parse spelled other)).files =
        (context.emission path text).files ∨
      (context.emissionWith path text (Tree.parse spelled other)).files =
        (context.emission spelled other).files := by
  unfold emission emits emissionWith
  cases context.transpileOnly with
  | true => exact .inl rfl
  | false =>
    have json : path.isJson = spelled.isJson := by
      unfold Path.isJson Path.hasExtension
      rw [Path.extension?_congr same]
    simp only [Bool.false_eq_true, ↓reduceIte]
    unfold emitsTree
    cases context.options.wantsNoEmit with
    | true => exact .inl rfl
    | false =>
      rw [← json]
      cases path.isJson with
      | true => exact .inl rfl
      | false => exact .inr rfl

/-- The cache and the files behind an emission. -/
def settled (context : Context) (path : Path) (emission : Emission) (cache : Cache)
    (tree : MemoryTree) :
    Cache × MemoryTree :=
  if lacksOutput emission then (cache.markFailed path context.target, tree)
  else (cache.setOutputs path context.target emission.files,
    if context.writesFiles then tree.writeAll emission.files else tree)

theorem find?_settled (context : Context) (path : Path) (source text : String) (emission : Emission)
    (cache : Cache) (tree : MemoryTree) (key : CacheKey) :
    (context.settled path emission (cache.update path context.target source text) tree).1.find?
      key =
      if key.same ⟨path, context.target⟩ then
        some (settledEntry emission (((cache.find? key).getD {}).update source text))
      else cache.find? key := by
  unfold settled settledEntry
  cases lacksOutput emission <;> cases alike : key.same ⟨path, context.target⟩ <;>
    simp [Cache.markFailed, Cache.setOutputs, Cache.find?_modify, Cache.find?_update, alike]

theorem settled_frame (context : Context) (path : Path) (emission : Emission) (cache : Cache)
    (tree : MemoryTree) :
    (context.settled path emission cache tree).2.current = tree.current ∧
      (context.settled path emission cache tree).2.supportsWatch = tree.supportsWatch := by
  unfold settled
  split
  · exact ⟨rfl, rfl⟩
  · dsimp only
    split
    · exact tree.writeAll_frame _
    · exact ⟨rfl, rfl⟩

/-- Outputs that are written elsewhere leave a file as it is. -/
theorem read_settled {emission : Emission} {tree : MemoryTree} {q : Path}
    (apart : ∀ file ∈ emission.files, (tree.resolve q).same (tree.resolve file.name) = false)
    (context : Context) (path : Path) (cache : Cache) :
    (context.settled path emission cache tree).2.read q = tree.read q := by
  unfold settled
  split
  · rfl
  · dsimp only
    split
    · exact MemoryTree.read_writeAll apart
    · rfl

theorem run_settle (memory : session.workspace.system = .memory tree) (context : Context)
    (path : Path) (emission : Emission) :
    context.settle path emission session =
      .ok { emission with skipped := lacksOutput emission }
        ((session.mapCache fun cache => (context.settled path emission cache tree).1).withSystem
          (.memory (context.settled path emission session.workspace.cache tree).2)) := by
  unfold settled
  cases lacks : lacksOutput emission with
  | true =>
    rw [run_settle_of_lacksOutput lacks]
    simp only [↓reduceIte]
    rw [← memory]
    rfl
  | false =>
    rw [run_settle_of_not_lacksOutput lacks]
    simp only [Bool.false_eq_true, ↓reduceIte]
    cases context.writesFiles with
    | true =>
      have placed :
          (session.mapCache (·.setOutputs path context.target emission.files)).workspace.system =
          .memory tree := memory
      exact run_bind_ok (Step.run_writeAll placed emission.files)
    | false =>
      simp only [Bool.false_eq_true, ↓reduceIte]
      rw [← memory]
      rfl

/-- In a pure context, what is made of a source is recorded and settled. The service may take the
tree of another text for it, and stays faithful. -/
theorem run_compileSource_of_pure (pure : context.IsPure)
    (faithful : session.workspace.service.Faithful texts) {source : String}
    (listed : texts path (context.processed path source)) :
    ∃ spelled other service, path.same spelled = true ∧ texts spelled other ∧
      Digest.of other = Digest.of (context.processed path source) ∧ service.Faithful texts ∧
      let text := context.processed path source
      context.compileSource path source session =
        context.settle path (context.emissionWith path text (Tree.parse spelled other))
          ((session.mapCache (·.update path context.target source text)).withService service) := by
  let text := context.processed path source
  let recorded := session.mapCache (·.update path context.target source text)
  have known : (recorded.workspace.cache.get path context.target).snapshot = some text :=
    Cache.snapshot_get_update ..
  obtain ⟨spelled, other, service, same, known', digests, kept, emitted⟩ :=
    run_emitFile known (show recorded.workspace.service.Faithful texts from faithful) listed
  refine ⟨spelled, other, service, same, known', digests, kept, ?_⟩
  have quiet : Quiet (if context.transpileOnly then
      transpileFile path text context.options context.projectRoot context.transformers
    else context.emitsTree path text (Tree.parse spelled other)) := by
    split
    · exact composes_quiet.transpileFile (TransformerSet.quiet_run pure.transformers) path _ text _
    · exact pure.quiet_emitsTree path text _
  rw [Step.run_journaled_of_quiet quiet] at emitted
  have prepared : context.prepare path source session = .ok text session :=
    (pure.quiet_prepare path source).run session
  rw [run_compileSource, prepared]
  dsimp only [recorded] at emitted ⊢
  rw [emitted]
  rfl

/-- A compilation of a file that can be read, in a pure context and on files in memory. -/
theorem run_recompile_of_pure (pure : context.IsPure)
    (memory : session.workspace.system = .memory tree)
    (faithful : session.workspace.service.Faithful texts) {source : String}
    (read : tree.read path = .ok source) (listed : texts path (context.processed path source)) :
    ∃ spelled other service, path.same spelled = true ∧ texts spelled other ∧
      Digest.of other = Digest.of (context.processed path source) ∧ service.Faithful texts ∧
      let text := context.processed path source
      let emission := context.emissionWith path text (Tree.parse spelled other)
      let cache := session.workspace.cache.update path context.target source text
      context.recompile path session =
        .ok { emission with skipped := lacksOutput emission }
          { session with workspace :=
            { session.workspace with
              service := service
              cache := (context.settled path emission cache tree).1
              system := .memory (context.settled path emission cache tree).2 } } := by
  obtain ⟨spelled, other, service, same, known, digests, kept, settled⟩ :=
    run_compileSource_of_pure pure faithful listed
  refine ⟨spelled, other, service, same, known, digests, kept, ?_⟩
  have system : session.workspace.system.read path = .ok source := by rw [memory]; exact read
  rw [run_recompile, system]
  dsimp only
  rw [settled]
  exact @run_settle ((session.mapCache _).withService service) _ memory context path _

/-- What compiling a file gives when nothing is known. -/
def clean (context : Context) (system : System) (path : Path) : Emission :=
  match system.read path with
  | .error error => { diagnostics := [unreadable path error], skipped := true }
  | .ok source =>
    let emission := context.emission path (context.processed path source)
    { emission with skipped := lacksOutput emission }

end Context

end Recast.Build
