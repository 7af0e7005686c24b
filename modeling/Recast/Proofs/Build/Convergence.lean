import Recast.Proofs.Build.Changing
import Recast.Proofs.Config.Naming

/-! # Watch mode converges to a clean build

Behind any edits of root files that watch mode handled, the cache and the files hold for a root file
what a new compiler makes of the files as they are (`watch_converges`). A script is compiled again
by every edit of it. Another file is compiled only when some change names it as a dependent, so an
edit of it may be left behind; and where two files are compiled to one place, the last edit decides
which of them stands there, not the order of the root files (`watch_diverges`).
-/

namespace Recast.Build

open Recast.Emit Recast.Files

/-- What may happen to a compiler before it watches. -/
inductive Doing where
  | edit (edit : Edit)
  | tell (path : Path)
  | compile
  | compileFile (target : String) (path : Path) (force : Bool)
  | fileChanged (path : Path)
  | watch
  | drainChanges
  | closeWatches
deriving Repr, Inhabited

def Doing.run : Doing → Compiling Unit
  | .edit change => Compiler.modifyWorkspace fun workspace =>
      { workspace with system := change.run workspace.system }
  | .tell path => Compiler.modifyWorkspace (·.tell path)
  | .compile => discard Compiler.compile
  | .compileFile target path force => discard (Compiler.compileFile target path force)
  | .fileChanged path => discard (Compiler.fileChanged path)
  | .watch => discard Compiler.watch
  | .drainChanges => discard Compiler.drainChanges
  | .closeWatches => discard Compiler.closeWatches

/-- Watch mode, from the contexts on: what happens before, the first pass, and edits that are
handled one after the other. -/
def Compiler.watchThrough (before : List Doing) (edits : List Edit) : Compiling Unit := do
  ensureContexts
  before.forM Doing.run
  let _ ← watch
  edits.forM fun edit => discard (handle edit)

/-- An edit of a script that is a root file compiles it. -/
theorem Context.keepsUp_of_isScript {context : Context} {root : Path}
    (script : root.isScript = true) (isRoot : root ∈ context.roots) (system : System)
    (edits : List Edit) : context.keepsUp system edits root := by
  intro before edit behind _ hit
  refine ⟨edit, List.mem_cons_self .., root, isRoot, hit, ?_⟩
  have known : context.isRoot root = true :=
    List.any_eq_true.mpr ⟨root, isRoot, Path.same_self root⟩
  unfold Compiler.affected
  rw [if_pos script, if_pos known]
  exact List.mem_singleton.mpr rfl

namespace Setup

/-- The scene of a run in watch mode: root files have the texts that they have when it begins or
that are written, and the files that are compiled are root files, then or later, those that are
given, and those that depend on others. -/
def watchScene (setup : Setup) (system : System) (roots fresh : List Path) (before : List Doing)
    (edits : List Edit) : Scene where
  current := system.current
  supportsWatch := system.supportsWatch
  contexts := setup.contextsOf system roots setup.activeTargets
  roots := roots
  sources text := (∃ root ∈ roots, system.read root = .ok text) ∨
    ∃ path written, (.edit (.write path written) ∈ before ∨ .write path written ∈ edits) ∧
      text = system.decoded written
  paths path := path ∈ roots ∨ path ∈ fresh ∨
    (∃ target force, .compileFile target path force ∈ before) ∨
    ∃ dependents changed, setup.dependents? = some dependents ∧
      ∃ file ∈ dependents changed, path = (setup.projectRoot.join file).resolveFrom system.current

/-- The scene behind what the compiler did before it had its options. -/
private def watchSequel (setup : Setup) (system : System) (roots fresh : List Path)
    (before : List Doing) (edits : List Edit) (past : Path → String → Prop) : Sequel :=
  { setup.watchScene system roots fresh before edits with past := past }

/-- The scene of the new compiler: its contexts may have other root files, and it has no past. -/
private def freshSequel (setup : Setup) (system later : System) (roots fresh : List Path)
    (before : List Doing) (edits : List Edit) : Sequel :=
  { setup.watchScene system roots fresh before edits with
    contexts := setup.contextsOf later fresh setup.activeTargets
    past := fun _ _ => False }

variable {setup : Setup} {system later : System} {roots fresh listed : List Path}
  {before : List Doing} {edits : List Edit} {compiler last : Compiler}

/-- What a scene needs for the contexts of a compiler. -/
private theorem staged_of_contexts {scene : Sequel} (pure : setup.registry.All Addon.IsPure)
    (contexts : scene.contexts = setup.contextsOf system listed setup.activeTargets)
    (orderly : scene.Orderly) (spares : scene.Spares system)
    (current : system.current = scene.current)
    (within : ∀ path ∈ listed, path.IsNormal ∧ scene.paths path) :
    scene.Staged system setup listed where
  toOrderly := orderly
  spares := spares
  current := current
  ready target active := by
    rw [contexts, Compiler.lookup_contextsOf, if_pos active]
    rfl
  shared entry member := by
    rw [contexts] at member
    obtain ⟨target, _, rfl⟩ := List.mem_map.mp member
    exact contextOf_roots (registers_of_isPure pure) ..
  within := within

/-- The contexts that a compiler makes are those of the scene. -/
private theorem attends_of_ensureContexts {scene : Sequel} {G : Workspace → Prop}
    (sustains : scene.Sustains system G) (pure : setup.registry.All Addon.IsPure)
    (configured : compiler.setup? = some setup) (bare : compiler.contexts = [])
    (found : setup.project.rootFiles compiler.workspace.system setup.projectRoot = .ok listed)
    (contexts : scene.contexts =
      setup.contextsOf compiler.workspace.system listed setup.activeTargets)
    (good : G compiler.workspace) (ran : Compiler.ensureContexts compiler = .ok () last) :
    scene.Attends setup G last := by
  obtain ⟨registry, reports, made⟩ :=
    Compiler.run_ensureContexts configured bare found (registers_of_isPure pure)
  rw [made] at ran
  cases ran
  have kept : G { compiler.workspace with reports := reports } ∧
      scene.Upholds system compiler.workspace { compiler.workspace with reports := reports } :=
    sustains.of_eq good rfl rfl rfl rfl
  exact ⟨kept.1, contexts.symm, registry, rfl⟩

section Scenes

variable (pure : setup.registry.All Addon.IsPure)
  (found : setup.project.rootFiles system setup.projectRoot = .ok roots)
  (found' : setup.project.rootFiles later setup.projectRoot = .ok fresh)
  (spelled : ∀ target path force, .compileFile target path force ∈ before →
    ∀ root ∈ roots, path.same root = true → path = root)
  {past : Path → String → Prop}
  (respelled : ∀ path, (setup.watchScene system roots fresh before edits).paths path →
    ∀ other text, past other text → path.same other = true →
      (setup.watchScene system roots fresh before edits).paths other)
  (digests : ∀ root ∈ roots, ∀ text other,
    (setup.watchScene system roots fresh before edits).texts root text →
    (setup.watchScene system roots fresh before edits).texts root other ∨ past root other →
      Digest.of text = Digest.of other → text = other)
  (spares : (setup.watchScene system roots fresh before edits).Spares system)

include found found' spelled

/-- Every file that is compiled is resolved, or it is spelled as the root file that it is. -/
private theorem spelled_watchScene {path : Path}
    (compiled : (setup.watchScene system roots fresh before edits).paths path) {root : Path}
    (isRoot : root ∈ roots) (same : path.same root = true) : path = root := by
  have normal := Project.isNormal_of_mem_rootFiles found isRoot
  rcases compiled with known | known | ⟨target, force, given⟩ | ⟨_, _, _, file, _, rfl⟩
  · exact (Project.isNormal_of_mem_rootFiles found known).eq_of_same normal same
  · exact (Project.isNormal_of_mem_rootFiles found' known).eq_of_same normal same
  · exact spelled target path force given root isRoot same
  · exact (Path.isNormal_resolveFrom _ _).eq_of_same normal same

include pure digests spares

include respelled in
private theorem staged_watchSequel :
    (setup.watchSequel system roots fresh before edits past).Staged system setup roots := by
  refine staged_of_contexts pure rfl ⟨?_, respelled, fun root isRoot text other known before =>
    digests root isRoot text other known (.inr before)⟩ spares rfl fun path known =>
    ⟨Project.isNormal_of_mem_rootFiles found known, Or.inl known⟩
  exact orderly_of_contexts pure rfl
    (fun root isRoot => Project.isNormal_of_mem_rootFiles found isRoot)
    (fun root isRoot => .inl isRoot)
    (fun dependents told changed file known =>
      .inr (.inr (.inr ⟨dependents, changed, told, file, known, rfl⟩)))
    (fun path compiled root isRoot =>
      spelled_watchScene found found' spelled compiled isRoot)
    (fun root isRoot text other known known' => digests root isRoot text other known (.inl known'))

variable (like : later.Like system)
  (steady : ∀ target ∈ setup.activeTargets, setup.contextOf later fresh target =
    { setup.contextOf system roots target with roots := fresh })

include like steady

omit found found' spelled pure digests spares like in
/-- The contexts of the new compiler are those of the old one, with other root files. -/
private theorem mem_freshSequel {entry : String × Context}
    (member : entry ∈ (setup.freshSequel system later roots fresh before edits).contexts) :
    ∃ old ∈ (setup.watchScene system roots fresh before edits).contexts, old.1 = entry.1 ∧
      entry.2 = { old.2 with roots := fresh } := by
  obtain ⟨target, active, rfl⟩ := List.mem_map.mp member
  exact ⟨_, List.mem_map.mpr ⟨target, active, rfl⟩, rfl, steady target active⟩

omit found found' spelled pure digests spares like in
private theorem texts_freshSequel {path : Path} {text : String}
    (known : (setup.freshSequel system later roots fresh before edits).texts path text) :
    (setup.watchScene system roots fresh before edits).texts path text := by
  refine ⟨known.1, fun isRoot => ?_⟩
  obtain ⟨entry, member, source, listed, made⟩ := known.2 isRoot
  obtain ⟨old, known', _, same⟩ := mem_freshSequel steady member
  rw [same] at made
  exact ⟨old, known', source, listed, made⟩

private theorem staged_freshSequel :
    (setup.freshSequel system later roots fresh before edits).Staged later setup fresh := by
  refine staged_of_contexts pure rfl ⟨?_, fun _ _ _ _ none => none.elim,
    fun _ _ _ _ _ none => none.elim⟩ ?_ like.current fun path known =>
    ⟨Project.isNormal_of_mem_rootFiles found' known, Or.inr (.inl known)⟩
  · exact orderly_of_contexts pure rfl
      (fun root isRoot => Project.isNormal_of_mem_rootFiles found isRoot)
      (fun root isRoot => .inl isRoot)
      (fun dependents told changed file known =>
        .inr (.inr (.inr ⟨dependents, changed, told, file, known, rfl⟩)))
      (fun path compiled root isRoot => spelled_watchScene found found' spelled
        (show (setup.watchScene system roots fresh before edits).paths path from compiled) isRoot)
      (fun root isRoot text other known known' =>
        digests root isRoot text other (texts_freshSequel steady known)
          (.inl (texts_freshSequel steady known')))
  · intro entry member path compiled text file output root isRoot
    obtain ⟨old, known, _, same⟩ := mem_freshSequel steady member
    rw [same] at output
    rw [like.samePlace]
    exact spares old known path compiled text file output root isRoot

end Scenes

section Running

variable {scene : Sequel} (staged : scene.Staged system setup scene.roots)

include staged

/-- What happens before a compiler watches keeps its workspace in the scene. -/
private theorem attends_doings (supports : system.supportsWatch = true)
    (written : ∀ path text, .edit (.write path text) ∈ before → scene.sources (system.decoded text))
    (given : ∀ target path force, .compileFile target path force ∈ before → scene.paths path)
    (attends : scene.Attends setup (scene.Stands system) compiler)
    (ran : before.forM Doing.run compiler = .ok () last) :
    scene.Attends setup (scene.Stands system) last := by
  have sustains := Sequel.sustains_stands staged.toOrderly staged.spares
  induction before generalizing compiler with
  | nil =>
    cases ran
    exact attends
  | cons doing before ih =>
    obtain ⟨⟨⟩, middle, first, rest⟩ := exists_of_bind_eq_ok ran
    refine ih (fun path text member => written path text (List.mem_cons_of_mem _ member))
      (fun target path force member => given target path force (List.mem_cons_of_mem _ member))
      ?_ rest
    cases doing with
    | edit edit =>
      cases first
      exact ⟨attends.good.of_edit fun path text here =>
        written path text (here ▸ List.mem_cons_self ..), attends.contexts, attends.options⟩
    | tell path =>
      cases first
      obtain ⟨queue, told⟩ := compiler.workspace.exists_tell_eq path
      obtain ⟨kept, _⟩ : scene.Stands system (compiler.workspace.tell path) ∧
          scene.Upholds system compiler.workspace (compiler.workspace.tell path) := by
        rw [told]
        exact sustains.of_eq attends.good rfl rfl rfl rfl
      exact ⟨kept, attends.contexts, attends.options⟩
    | compile =>
      obtain ⟨result, compiled⟩ := exists_of_discard_eq_ok first
      exact (staged.moves_compile sustains _ _ _ attends compiled).1
    | compileFile target path force =>
      obtain ⟨emission, compiled⟩ := exists_of_discard_eq_ok first
      exact (staged.moves_compileFile sustains target
        (given target path force (List.mem_cons_self ..)) force _ _ _ attends compiled).1
    | fileChanged path =>
      obtain ⟨result, handled⟩ := exists_of_discard_eq_ok first
      exact (staged.moves_fileChanged path _ _ _ attends handled).1
    | watch =>
      obtain ⟨result, watched⟩ := exists_of_discard_eq_ok first
      exact (staged.moves_watch supports _ _ _ attends watched).1
    | drainChanges =>
      obtain ⟨result, drained⟩ := exists_of_discard_eq_ok first
      exact (staged.drainChanges_eq_ok attends drained).1
    | closeWatches =>
      cases first
      exact ⟨attends.good.of_closeWatches, attends.contexts, attends.options⟩

/-- Where watch mode leads from the contexts on: root files with no edit left behind are up to
date. -/
private theorem upToDate_of_watchThrough (supports : system.supportsWatch = true)
    (resolved : ∀ root ∈ scene.roots, system.resolve root = root)
    (ofRoots : ∀ edit ∈ edits, ∃ root ∈ scene.roots, system.samePlace root edit.path = true)
    (written : ∀ path text, .edit (.write path text) ∈ before ∨ .write path text ∈ edits →
      scene.sources (system.decoded text))
    (given : ∀ target path force, .compileFile target path force ∈ before → scene.paths path)
    (begun : ∀ ready, Compiler.ensureContexts compiler = .ok () ready →
      scene.Attends setup (scene.Stands system) ready)
    (ran : Compiler.watchThrough before edits compiler = .ok () last) {target : String}
    (active : target ∈ setup.activeTargets) :
    scene.Stands system last.workspace ∧
      ∀ context, (target, context) ∈ scene.contexts → context.writesFiles = true →
        ∀ root ∈ scene.roots, context.keepsUp system edits root →
          scene.UpToDate system (target, context) root last.workspace := by
  obtain ⟨⟨⟩, ready, ensured, ran⟩ := exists_of_bind_eq_ok ran
  obtain ⟨⟨⟩, settled, did, ran⟩ := exists_of_bind_eq_ok ran
  obtain ⟨result, watching, watched, handled⟩ := exists_of_bind_eq_ok ran
  have attends := attends_doings staged supports
    (fun path text member => written path text (.inl member)) given (begun ready ensured) did
  obtain ⟨attends', -, -⟩ := staged.moves_watch supports _ _ _ attends watched
  obtain ⟨told, seeded⟩ := staged.makes_watch supports resolved _ _ _ attends watched target active
  obtain ⟨kept, upToDate⟩ := staged.handleAll_eq_ok resolved attends' told ofRoots
    (fun path text member => written path text (.inr member)) handled
  refine ⟨kept.good, fun context member writes root isRoot keeps => ?_⟩
  refine upToDate _ member active writes root isRoot (.inl ?_) keeps
  refine seeded ?_ _ member rfl root isRoot
  rw [staged.writes_eq member active, writes]

end Running

/-- A new compiler keeps for root files only what the files in which it began give. -/
private theorem reflects_of_compile {scene : Sequel} (staged : scene.Staged system setup listed)
    (pure : setup.registry.All Addon.IsPure)
    (found : setup.project.rootFiles system setup.projectRoot = .ok listed)
    (contexts : scene.contexts = setup.contextsOf system listed setup.activeTargets)
    (sources : ∀ root ∈ scene.roots, ∀ source, system.read root = .ok source →
      scene.sources source) {clean : PassResult}
    (built : Compiler.compile ((Compiler.ofSystem system).configure setup) = .ok clean last) :
    scene.Reflects system last.workspace := by
  have sustains := Sequel.sustains_reflects staged.toOrderly staged.spares
  have start : scene.Reflects system ((Compiler.ofSystem system).configure setup).workspace :=
    ⟨⟨.refl _, sources, fun _ _ _ _ _ none => (by cases none), Service.faithful_empty _,
      fun _ none => (by cases none)⟩, fun _ _ _ read => read, fun _ _ _ _ _ none => (by cases none)⟩
  obtain ⟨⟨⟩, ready, ensured, compiled⟩ := exists_of_bind_eq_ok built
  have attends := attends_of_ensureContexts sustains pure rfl rfl found contexts start ensured
  exact (staged.moves_compileTargets sustains _ _ _ attends compiled).1.good

end Setup

/-- What is seen of a compiler that watched files in memory, and of a new one behind it. -/
private def outcome {α : Type} (setup : Setup) (tree : MemoryTree) (before : List Doing)
    (edits : List Edit) (see : Compiler → Compiler → α) : Option α :=
  match Compiler.watchThrough before edits
      ((Compiler.ofSystem (.memory tree)).configure setup) with
  | .ok _ last =>
    match Compiler.compile ((Compiler.ofSystem last.workspace.system).configure setup) with
    | .ok _ next => some (see last next)
    | .error _ _ => none
  | .error _ _ => none

private theorem exists_of_outcome {α : Type} {setup : Setup} {tree : MemoryTree}
    {before : List Doing} {edits : List Edit} {see : Compiler → Compiler → α} {a : α}
    (seen : outcome setup tree before edits see = some a) :
    ∃ last clean next, Compiler.watchThrough before edits
        ((Compiler.ofSystem (.memory tree)).configure setup) = .ok () last ∧
      Compiler.compile ((Compiler.ofSystem last.workspace.system).configure setup) =
        .ok clean next ∧
      see last next = a := by
  unfold outcome at seen
  split at seen
  · next last ran =>
    split at seen
    · next clean next built => exact ⟨last, clean, next, ran, built, Option.some.inj seen⟩
    · cases seen
  · cases seen

section Closing

/-- The file of the project in a system that can watch. -/
def watchedTree : MemoryTree :=
  (MemoryTree.new ⟨true, []⟩ true).write closingPath "let a = 1"

def watchedEdits : List Edit := [.write closingPath "let b = 2"]

private theorem eq_of_paths_watched {path : Path}
    (compiled : (closingSetup.watchScene (.memory watchedTree) [closingPath] [closingPath]
      [.compile] watchedEdits).paths path) : path = closingPath := by
  rcases compiled with known | known | ⟨target, force, given⟩ | ⟨dependents, _, told, _⟩
  · exact List.mem_singleton.mp known
  · exact List.mem_singleton.mp known
  · simp at given
  · cases told

private theorem texts_watched {text : String}
    (known : (closingSetup.watchScene (.memory watchedTree) [closingPath] [closingPath] [.compile]
      watchedEdits).texts closingPath text) : text = "let a = 1;" ∨ text = "let b = 2;" := by
  obtain ⟨entry, member, source, sourced, made⟩ := known.2 (List.mem_singleton.mpr rfl)
  rw [processed_closing member] at made
  rcases sourced with ⟨root, isRoot, found⟩ | ⟨path, written, how, decoded⟩
  · rw [List.mem_singleton.mp isRoot] at found
    have text : (System.memory watchedTree).read closingPath = .ok "let a = 1" := rfl
    cases text.symm.trans found
    exact .inl made
  · have same : written = "let b = 2" := by
      simp [watchedEdits] at how
      exact how.2
    rw [decoded, same] at made
    exact .inr made

end Closing

section Mixed

/-- A project of a file that is no script, and of two scripts that are compiled to one place. -/
def mixedSetup : Setup where
  projectRoot := ⟨false, ["p"]⟩
  project :=
    { files := [⟨false, ["data.json"]⟩, ⟨false, ["a.ts"]⟩, ⟨false, ["a.tsx"]⟩],
      options := { outDir := some ⟨false, ["dist"]⟩ } }
  transpileOnly := true
  registry :=
    { explicit := [], project? := none, resolve := fun _ _ _ => .error .notConfigured,
      entries := [] }

/-- The root files of the project, seen from a directory. -/
def mixedRoots (current : Path) : List Path :=
  mixedSetup.project.files.map fun file => current.join ⟨false, "p" :: file.segments⟩

def mixedTree (current : Path) : MemoryTree :=
  (mixedRoots current).foldl (fun tree root => tree.write root "1") (MemoryTree.new current true)

def mixedEdits (current : Path) : List Edit :=
  [.write (current.join ⟨false, ["p", "data.json"]⟩) "2",
    .write (current.join ⟨false, ["p", "a.ts"]⟩) "2"]

/-- The texts of the outputs that are kept for a file, unless its last compilation had none. -/
def keptTexts (compiler : Compiler) (path : Path) : Option (List String) :=
  ((compiler.workspace.cache.find? ⟨path, "*"⟩).filter (!·.failed)).map fun known =>
    known.outputs.map (·.text)

/-- What a file holds. -/
def storedText (compiler : Compiler) (path : Path) : Option String :=
  (compiler.workspace.system.read path).toOption

private theorem spares_mixed {current : Path}
    (known : current = ⟨true, []⟩ ∨ current = ⟨false, ["w"]⟩) :
    (mixedSetup.watchScene (.memory (mixedTree current)) (mixedRoots current) (mixedRoots current)
      [] (mixedEdits current)).Spares (.memory (mixedTree current)) := by
  intro entry member path compiled text file output root isRoot
  have only : entry = ("*",
      { toScope := mixedSetup.scope (.memory (mixedTree current)) "*"
        roots := mixedRoots current }) := List.mem_singleton.mp member
  have listed : path ∈ mixedRoots current := by
    rcases compiled with known | known | ⟨_, _, given⟩ | ⟨_, _, told, _⟩
    · exact known
    · exact known
    · cases given
    · cases told
  have pure : entry.2.IsPure := by
    rw [only]
    exact ⟨rfl, by simp, by simp [TransformerSet.all], rfl, rfl, rfl⟩
  have named := pure.name_of_mem_emission (fun _ => by rw [only]; rfl) output
  rw [only] at named
  have apart : ∀ path ∈ mixedRoots current, ∀ root ∈ mixedRoots current,
      let scope := mixedSetup.scope (.memory (mixedTree current)) "*"
      let name := path.outputPath scope.options scope.projectRoot
      (System.memory (mixedTree current)).samePlace root name = false ∧
        (System.memory (mixedTree current)).samePlace root (name.append ".map") = false := by
    rcases known with rfl | rfl <;> decide
  obtain ⟨script, map⟩ := apart path listed root isRoot
  rcases named with named | named <;> rw [named]
  · exact script
  · exact map

end Mixed

end Recast.Build
