import Recast.Proofs.Build.Moves
import Recast.Proofs.Build.Passes
import Recast.Proofs.Files.Places

/-! # Files that are up to date

A root file is up to date under a target if the cache holds the outputs of its text as it is, and
the places that are its own hold them too. What a compilation does to that is said once
(`Context.Recompiled`), on files in memory and on a disk: the file that is compiled becomes up to
date (`makes_compileFile`), and all others stay so (`moves_compileFile`).
-/

namespace Recast.Build

open Recast.Emit Recast.Script Recast.Files

/-- A watcher that the system has under its number. A disk does not number its watchers; their paths
are resolved. -/
def OpenWatch.IsKnown (watch : OpenWatch) : System → Prop
  | .memory tree => tree.watchers[watch.number]? = some ⟨watch.path, true⟩
  | .disk _ => watch.path.IsNormal

/-- What it does to write files one after the other. -/
structure Wrote (before : System) (files : List OutputFile) (after : System) : Prop where
  like : after.Like before
  watchers : ∀ watch : OpenWatch, watch.IsKnown before → watch.IsKnown after
  elsewhere : ∀ p, (∀ file ∈ files, before.samePlace p file.name = false) →
    after.stored? p = before.stored? p
  there : ∀ file ∈ files, (∀ other ∈ files, before.samePlace file.name other.name = true →
    other = file) → after.stored? file.name = some file.diskText.toUTF8

theorem OpenWatch.IsKnown.write {watch : OpenWatch} {system : System} (known : watch.IsKnown system)
    (path : Path) (text : String) : watch.IsKnown (system.write path text).1 := by
  cases system <;> exact known

/-- Sessions in workspaces with some property, whose root files are as listed. -/
def Within (G : Workspace → Prop) (listed : List Path) (session : Session) : Prop :=
  G session.workspace ∧ session.roots = listed

namespace Step

theorem write_eq_ok {path : Path} {text : String} {session later : Session}
    (ran : write path text session = .ok () later) :
    (session.workspace.system.write path text).2 = none ∧
      later = session.withSystem (session.workspace.system.write path text).1 := by
  unfold write at ran
  rw [run_bind_ok (run_workspace session)] at ran
  cases failed : (session.workspace.system.write path text).2 with
  | none =>
    simp only [failed] at ran
    cases ran
    exact ⟨rfl, rfl⟩
  | some error =>
    simp only [failed] at ran
    cases ran

/-- All files were written, if that succeeds. -/
theorem writeAll_eq_ok {files : List OutputFile} {session later : Session}
    (ran : (files.forM fun file => write file.name file.diskText) session = .ok () later) :
    ∃ system, later = session.withSystem system ∧ Wrote session.workspace.system files system := by
  induction files generalizing session with
  | nil =>
    cases ran
    exact ⟨_, rfl, .refl _, fun _ known => known, fun _ _ => rfl, by simp⟩
  | cons file files ih =>
    obtain ⟨⟨⟩, middle, first, rest⟩ := exists_of_bind_eq_ok ran
    obtain ⟨written, rfl⟩ := write_eq_ok first
    obtain ⟨system, rfl, wrote⟩ := ih rest
    have like := session.workspace.system.like_write file.name file.diskText
    have placed : (session.withSystem (session.workspace.system.write file.name
        file.diskText).1).workspace.system =
      (session.workspace.system.write file.name file.diskText).1 := rfl
    rw [placed] at wrote
    refine ⟨system, rfl, wrote.like.trans like, fun watch known =>
      wrote.watchers watch (known.write _ _), fun p apart => ?_, fun other member alone => ?_⟩
    · rw [wrote.elsewhere p fun next member => by
        rw [like.samePlace]; exact apart next (List.mem_cons_of_mem _ member)]
      exact System.stored?_write_of_apart _ _ (apart file (List.mem_cons_self ..))
    · by_cases again : other ∈ files
      · exact wrote.there other again fun next member same =>
          alone next (List.mem_cons_of_mem _ member) (like.samePlace ▸ same)
      · obtain rfl := (List.mem_cons.mp member).resolve_right again
        rw [wrote.elsewhere other.name fun next member => ?_]
        · exact System.stored?_write written
        · rw [like.samePlace, Bool.eq_false_iff]
          intro same
          exact again (alone next (List.mem_cons_of_mem _ member) same ▸ member)

end Step

namespace Context

variable {context : Context} {path : Path} {session later : Session}
    {texts : Path → String → Prop}

/-- What a compilation of a source does, when it makes some emission. -/
structure Recompiled (context : Context) (texts : Path → String → Prop) (path : Path)
    (source : String) (made : Emission) (session later : Session) : Prop where
  roots : later.roots = session.roots
  watches : later.workspace.watches = session.workspace.watches
  service : later.workspace.service.Faithful texts
  entries : ∀ key, later.workspace.cache.find? key =
    if key.same ⟨path, context.target⟩ then
      some (settledEntry made (((session.workspace.cache.find? key).getD {}).update source
        (context.processed path source)))
    else session.workspace.cache.find? key
  files : Wrote session.workspace.system (context.placed made) later.workspace.system
  made : ∃ spelled other, path.same spelled = true ∧ texts spelled other ∧
    Digest.of other = Digest.of (context.processed path source) ∧
    made = context.emissionWith path (context.processed path source) (Tree.parse spelled other)

/-- The end of a compilation: what is recorded and written for an emission. -/
theorem settle_eq_ok {made emission : Emission}
    (ran : context.settle path made session = .ok emission later) :
    ∃ system, Wrote session.workspace.system (context.placed made) system ∧
      later = (session.mapCache fun cache =>
        (context.settled path made cache default).1).withSystem system := by
  have cache (cache : Cache) : (context.settled path made cache default).1 =
      cache.modify path context.target (settledEntry made) := by
    unfold settled settledEntry
    cases lacksOutput made <;> rfl
  rw [settle_eq, run_bind_ok (Step.run_modifyCache _ session)] at ran
  obtain ⟨⟨⟩, middle, written, ended⟩ := exists_of_bind_eq_ok ran
  cases ended
  obtain ⟨system, rfl, wrote⟩ := Step.writeAll_eq_ok written
  exact ⟨system, wrote, by rw [funext cache]⟩

theorem recompile_eq_ok (pure : context.IsPure)
    (faithful : session.workspace.service.Faithful texts) {source : String}
    (read : session.workspace.system.read path = .ok source)
    (listed : texts path (context.processed path source)) {emission : Emission}
    (ran : context.recompile path session = .ok emission later) :
    ∃ made, context.Recompiled texts path source made session later := by
  obtain ⟨spelled, other, service, same, known, digests, kept, settled⟩ :=
    run_compileSource_of_pure pure faithful listed
  rw [run_recompile, read] at ran
  obtain ⟨system, wrote, rfl⟩ := settle_eq_ok (settled.symm.trans ran)
  exact ⟨_, rfl, rfl, kept, fun key => find?_settled .., wrote, spelled, other, same, known,
    digests, rfl⟩

end Context

namespace Scene

/-- No output is written at the place of a root file. -/
def Spares (scene : Scene) (system : System) : Prop :=
  ∀ entry ∈ scene.contexts, ∀ path, scene.paths path → ∀ text,
    ∀ file ∈ (entry.2.emission path text).files, ∀ root ∈ scene.roots,
      system.samePlace root file.name = false

/-- Whatever is written at a place is the output of that name of one root file under one target. -/
def Owns (scene : Scene) (system : System) (entry : String × Context) (root place : Path) : Prop :=
  ∀ other ∈ scene.contexts, other.2.writesFiles = true → ∀ path, scene.paths path → ∀ text,
    ∀ file ∈ (other.2.emission path text).files, system.samePlace place file.name = true →
      other.1 = entry.1 ∧ path = root ∧ file.name = place

end Scene

/-- A scene behind a past: the texts of which the language service may know trees from before. -/
structure Sequel extends Scene where
  past : Path → String → Prop

namespace Sequel

/-- The texts of which the language service may know trees. -/
def parses (scene : Sequel) (path : Path) (text : String) : Prop :=
  scene.texts path text ∨ scene.past path text

/-- The files that are compiled were spelled so before, and digests tell the texts of a root file
from those that it had. -/
structure Orderly (scene : Sequel) : Prop extends base : scene.toScene.Orderly where
  respelled : ∀ path, scene.paths path → ∀ spelled text, scene.past spelled text →
    path.same spelled = true → scene.paths spelled
  rewritten : ∀ root ∈ scene.roots, ∀ text other, scene.texts root text → scene.past root other →
    Digest.of text = Digest.of other → text = other

/-- A workspace in which root files have texts of the scene, what is recorded for them was made of
such texts, every parsed tree is one of a text that belongs there, and the system knows all open
watchers. -/
structure Stands (scene : Sequel) (system : System) (workspace : Workspace) : Prop where
  like : workspace.system.Like system
  sources : ∀ root ∈ scene.roots, ∀ source, workspace.system.read root = .ok source →
    scene.sources source
  recorded : ∀ entry ∈ scene.contexts, ∀ root ∈ scene.roots, ∀ known,
    workspace.cache.find? ⟨root, entry.1⟩ = some known → ∀ text, known.snapshot = some text →
      ∃ source, scene.sources source ∧ text = entry.2.processed root source
  service : workspace.service.Faithful scene.parses
  watches : ∀ watch ∈ workspace.watches, watch.IsKnown workspace.system

/-- A root file of which, if it can be read and a clean compilation has output, the cache holds that
output, and so do the places of its own if the target writes. -/
def UpToDate (scene : Sequel) (system : System) (entry : String × Context) (root : Path)
    (workspace : Workspace) : Prop :=
  ∀ source, workspace.system.read root = .ok source →
    lacksOutput (entry.2.emission root (entry.2.processed root source)) = false →
    let files := (entry.2.emission root (entry.2.processed root source)).files
    (∃ known, workspace.cache.find? ⟨root, entry.1⟩ = some known ∧ known.failed = false ∧
      known.outputs = files) ∧
    (entry.2.writesFiles = true → ∀ file ∈ files, scene.Owns system entry root file.name →
      workspace.system.stored? file.name = some file.diskText.toUTF8)

/-- What is up to date stays so, and what is watched stays watched. -/
structure Upholds (scene : Sequel) (system : System) (before after : Workspace) : Prop where
  upToDate : ∀ entry ∈ scene.contexts, ∀ root ∈ scene.roots,
    scene.UpToDate system entry root before → scene.UpToDate system entry root after
  watched : ∀ path, (before.watches.any (·.path.same path)) = true →
    (after.watches.any (·.path.same path)) = true

variable {scene : Sequel} {system : System} {entry : String × Context} {path : Path}
    {session later : Session}

/-- The files that are written for a file are named as those of its own emission are, or as those
of another spelling. -/
theorem mem_placed {text other : String} {spelled : Path} (same : path.same spelled = true)
    (listed : scene.paths path) (known : scene.paths spelled) {file : OutputFile}
    (member : file ∈ entry.2.placed (entry.2.emissionWith path text (Tree.parse spelled other))) :
    entry.2.writesFiles = true ∧ ∃ named, scene.paths named ∧ path.same named = true ∧
      ∃ text, file ∈ (entry.2.emission named text).files := by
  obtain ⟨writes, member⟩ := Context.mem_of_mem_placed member
  refine ⟨writes, ?_⟩
  obtain files | files := entry.2.files_emissionWith text other same <;> rw [files] at member
  · exact ⟨path, listed, Path.same_self path, text, member⟩
  · exact ⟨spelled, known, same, other, member⟩

/-- A tree that is taken for a file is that of a spelling that is compiled. -/
theorem Orderly.paths_of_parses (orderly : scene.Orderly) (listed : scene.paths path)
    {spelled : Path} {text : String} (known : scene.parses spelled text)
    (same : path.same spelled = true) : scene.paths spelled :=
  known.elim (·.1) fun before => orderly.respelled path listed spelled text before same

/-- A tree that is taken for a root file is that of its text. -/
theorem Orderly.eq_of_parses (orderly : scene.Orderly) (isRoot : path ∈ scene.roots)
    {spelled : Path} {text other : String} (listed : scene.texts path text)
    (known : scene.parses spelled other) (same : path.same spelled = true)
    (digests : Digest.of other = Digest.of text) : spelled = path ∧ other = text := by
  obtain rfl : spelled = path := orderly.spelled spelled
    (orderly.paths_of_parses listed.1 known same) path isRoot (Path.same_symm same)
  exact ⟨rfl, known.elim
    (fun here => (orderly.digests spelled isRoot text other listed here digests.symm).symm)
    fun before => (orderly.rewritten spelled isRoot text other listed before digests.symm).symm⟩

/-- The text that a file is compiled to belongs to the scene. -/
theorem Stands.texts_processed (stands : scene.Stands system session.workspace)
    (member : entry ∈ scene.contexts) (compiled : scene.paths path) {source : String}
    (read : session.workspace.system.read path = .ok source) :
    scene.texts path (entry.2.processed path source) :=
  ⟨compiled, fun isRoot => ⟨entry, member, source, stands.sources path isRoot source read, rfl⟩⟩

section Recompiled

variable {source : String} {made : Emission}

/-- A compilation does not change what is stored for root files. -/
theorem stored?_of_recompiled (orderly : scene.Orderly) (spares : scene.Spares system)
    (member : entry ∈ scene.contexts) (listed : scene.paths path)
    (stands : scene.Stands system session.workspace)
    (recompiled : entry.2.Recompiled scene.parses path source made session later)
    {root : Path} (isRoot : root ∈ scene.roots) :
    later.workspace.system.stored? root = session.workspace.system.stored? root := by
  obtain ⟨spelled, other, same, known, _, rfl⟩ := recompiled.made
  refine recompiled.files.elsewhere root fun file written => ?_
  obtain ⟨_, named, compiled, _, text, output⟩ :=
    mem_placed same listed (orderly.paths_of_parses listed known same) written
  rw [stands.like.samePlace]
  exact spares entry member named compiled text file output root isRoot

theorem read_of_recompiled (orderly : scene.Orderly) (spares : scene.Spares system)
    (member : entry ∈ scene.contexts) (listed : scene.paths path)
    (stands : scene.Stands system session.workspace)
    (recompiled : entry.2.Recompiled scene.parses path source made session later)
    {root : Path} (isRoot : root ∈ scene.roots) {text : String} :
    later.workspace.system.read root = .ok text ↔
      session.workspace.system.read root = .ok text :=
  System.read_congr recompiled.files.like
    (stored?_of_recompiled orderly spares member listed stands recompiled isRoot)

theorem Stands.of_recompiled (orderly : scene.Orderly) (spares : scene.Spares system)
    (member : entry ∈ scene.contexts) (listed : scene.paths path)
    (stands : scene.Stands system session.workspace)
    (read : session.workspace.system.read path = .ok source)
    (recompiled : entry.2.Recompiled scene.parses path source made session later) :
    scene.Stands system later.workspace := by
  refine ⟨recompiled.files.like.trans stands.like, fun root isRoot text found => ?_,
    fun other member' root isRoot known found text recorded => ?_, recompiled.service,
    fun watch opened => ?_⟩
  · exact stands.sources root isRoot text
      ((read_of_recompiled orderly spares member listed stands recompiled isRoot).mp found)
  · rw [recompiled.entries] at found
    split at found
    · next alike =>
      obtain ⟨rfl, here⟩ := orderly.same_key member listed member' isRoot alike
      cases found
      refine ⟨source, stands.sources path isRoot source read, ?_⟩
      rw [Context.settledEntry_snapshot, CacheEntry.update_snapshot] at recorded
      rw [here]
      exact (Option.some.inj recorded).symm
    · exact stands.recorded other member' root isRoot known found text recorded
  · rw [recompiled.watches] at opened
    exact recompiled.files.watchers watch (stands.watches watch opened)

/-- The emission of a root file is that of a service without trees. -/
theorem Orderly.made_eq_emission (orderly : scene.Orderly) (isRoot : path ∈ scene.roots)
    (parsed : scene.texts path (entry.2.processed path source))
    (recompiled : entry.2.Recompiled scene.parses path source made session later) :
    made = entry.2.emission path (entry.2.processed path source) := by
  obtain ⟨spelled, other, same, known, digests, clean⟩ := recompiled.made
  obtain ⟨here, there⟩ := orderly.eq_of_parses isRoot parsed known same digests
  rw [here, there] at clean
  exact clean

/-- A file that was compiled is up to date. -/
theorem UpToDate.of_recompiled (orderly : scene.Orderly) (spares : scene.Spares system)
    (member : entry ∈ scene.contexts) (isRoot : path ∈ scene.roots)
    (stands : scene.Stands system session.workspace)
    (read : session.workspace.system.read path = .ok source)
    (parsed : scene.texts path (entry.2.processed path source))
    (recompiled : entry.2.Recompiled scene.parses path source made session later) :
    scene.UpToDate system entry path later.workspace := by
  obtain rfl := orderly.made_eq_emission isRoot parsed recompiled
  intro now found lacks files
  have reads := (read_of_recompiled orderly spares member (orderly.compiled path isRoot) stands
    recompiled isRoot).mp found
  obtain rfl : source = now := Except.ok.inj (read.symm.trans reads)
  refine ⟨⟨_, (recompiled.entries _).trans (if_pos ?_), ?_, ?_⟩, fun writes file output owns => ?_⟩
  · rw [orderly.target entry member]
    exact CacheKey.same_self _
  · exact (Context.settledEntry_failed ..).trans lacks
  · exact Context.settledEntry_outputs lacks _
  · have placed : entry.2.placed (entry.2.emission path (entry.2.processed path source)) =
        files := by
      unfold Context.placed
      rw [writes, lacks]
      rfl
    have there := recompiled.files.there
    rw [placed] at there
    refine there file output fun next output' alike => ?_
    rw [stands.like.samePlace] at alike
    have named := (owns entry member writes path (orderly.compiled path isRoot) _ next output'
      alike).2.2
    exact (orderly.pure entry member).eq_of_name_eq output' output named

/-- What is up to date stays so when a file is compiled. -/
theorem UpToDate.kept_by_recompiled (orderly : scene.Orderly) (spares : scene.Spares system)
    (member : entry ∈ scene.contexts) (listed : scene.paths path)
    (stands : scene.Stands system session.workspace)
    (read : session.workspace.system.read path = .ok source)
    (parsed : scene.texts path (entry.2.processed path source))
    (recompiled : entry.2.Recompiled scene.parses path source made session later)
    {other : String × Context} (member' : other ∈ scene.contexts) {root : Path}
    (isRoot : root ∈ scene.roots)
    (upToDate : scene.UpToDate system other root session.workspace) :
    scene.UpToDate system other root later.workspace := by
  cases alike : (⟨root, other.1⟩ : CacheKey).same ⟨path, entry.2.target⟩ with
  | true =>
    obtain ⟨rfl, here⟩ := orderly.same_key member listed member' isRoot alike
    have named := (CacheKey.same_iff.mp alike).2.trans (orderly.target entry member)
    rw [show other = entry from Prod.ext named here]
    exact .of_recompiled orderly spares member isRoot stands read parsed recompiled
  | false =>
    intro now found lacks files
    obtain ⟨⟨known, cached, counts, outputs⟩, written⟩ := upToDate now
      ((read_of_recompiled orderly spares member listed stands recompiled isRoot).mp found) lacks
    refine ⟨⟨known, ?_, counts, outputs⟩, fun writes file output owns => ?_⟩
    · rw [recompiled.entries, alike]
      exact cached
    · rw [recompiled.files.elsewhere file.name fun next placed => ?_]
      · exact written writes file output owns
      -- A file that is written at an owned place is that of the key that was not compiled.
      obtain ⟨spelled, text, same, known', _, rfl⟩ := recompiled.made
      obtain ⟨writes', named, compiled, alike', text, output'⟩ :=
        mem_placed same listed (orderly.paths_of_parses listed known' same) placed
      rw [stands.like.samePlace, Bool.eq_false_iff]
      intro here
      obtain ⟨target, rfl, _⟩ := owns entry member writes' named compiled text next output' here
      refine Bool.eq_false_iff.mp alike (CacheKey.same_iff.mpr ⟨Path.same_symm alike', ?_⟩)
      rw [orderly.target entry member]
      exact target.symm

end Recompiled

theorem Upholds.refl (workspace : Workspace) : scene.Upholds system workspace workspace :=
  ⟨fun _ _ _ _ upToDate => upToDate, fun _ watched => watched⟩

theorem Upholds.trans {first middle last : Workspace}
    (before : scene.Upholds system first middle) (behind : scene.Upholds system middle last) :
    scene.Upholds system first last :=
  ⟨fun entry member root isRoot upToDate =>
      behind.upToDate entry member root isRoot (before.upToDate entry member root isRoot upToDate),
    fun path watched => behind.watched path (before.watched path watched)⟩

instance : Std.Refl (scene.Upholds system) := ⟨.refl⟩

instance : IsTrans Workspace (scene.Upholds system) := ⟨fun _ _ _ => .trans⟩

/-- A workspace with the same files, entries and trees stands as well, and nothing gets out of
date. -/
theorem Stands.upholds_of_eq {workspace other : Workspace}
    (stands : scene.Stands system workspace) (like : other.system.Like workspace.system)
    (stored : other.system.stored? = workspace.system.stored?)
    (cache : other.cache = workspace.cache) (service : other.service.Faithful scene.parses)
    (known : ∀ watch ∈ other.watches, watch.IsKnown other.system)
    (watched : ∀ watch ∈ workspace.watches, watch ∈ other.watches) :
    scene.Stands system other ∧ scene.Upholds system workspace other := by
  have reads {path : Path} {text : String} :
      other.system.read path = .ok text ↔ workspace.system.read path = .ok text :=
    System.read_congr like (congrFun stored path)
  refine ⟨⟨like.trans stands.like, fun root isRoot text found =>
    stands.sources root isRoot text (reads.mp found), cache ▸ stands.recorded, service, known⟩,
    fun entry _ root _ upToDate => ?_, fun path isOpen => ?_⟩
  · intro now found lacks files
    rw [cache, stored]
    exact upToDate now (reads.mp found) lacks
  · obtain ⟨watch, member, same⟩ := List.any_eq_true.mp isOpen
    exact List.any_eq_true.mpr ⟨watch, watched watch member, same⟩

/-- A property of workspaces that stand. It is not about queue, reports and the like, and survives
compilations. -/
structure Sustains (scene : Sequel) (system : System) (G : Workspace → Prop) : Prop where
  stands : ∀ workspace, G workspace → scene.Stands system workspace
  kept : ∀ workspace other : Workspace, G workspace → other.system = workspace.system →
    other.cache = workspace.cache → other.service.Faithful scene.parses →
    other.watches = workspace.watches → G other
  stale : ∀ (workspace : Workspace) path target, G workspace →
    G { workspace with cache := workspace.cache.markStale path target }
  recompiled : ∀ entry ∈ scene.contexts, ∀ path, scene.paths path → ∀ source made session later,
    G session.workspace → session.workspace.system.read path = .ok source →
    entry.2.Recompiled scene.parses path source made session later → G later.workspace

theorem sustains_stands (orderly : scene.Orderly) (spares : scene.Spares system) :
    scene.Sustains system (scene.Stands system) where
  stands _ stands := stands
  kept workspace other stands same cache service watches := by
    refine (stands.upholds_of_eq (same ▸ .refl _) (by rw [same]) cache service
      (fun watch isOpen => ?_) fun watch isOpen => watches ▸ isOpen).1
    rw [same]
    exact stands.watches watch (watches ▸ isOpen)
  stale workspace path target stands := by
    refine ⟨stands.like, stands.sources, fun entry member root isRoot known cached text recorded =>
      ?_, stands.service, stands.watches⟩
    have found := Cache.find?_modify workspace.cache path target (·.stale) ⟨root, entry.1⟩
    rw [show workspace.cache.markStale path target =
      workspace.cache.modify path target (·.stale) from rfl, found] at cached
    split at cached
    · obtain ⟨old, _, rfl⟩ := Option.map_eq_some_iff.mp cached
      cases recorded
    · exact stands.recorded entry member root isRoot known cached text recorded
  recompiled entry member path compiled source made session later stands read recompiled :=
    stands.of_recompiled orderly spares member compiled read recompiled

/-- A workspace in which every output that is kept for a root file is that of the text that the file
has in a system. -/
structure Reflects (scene : Sequel) (system : System) (workspace : Workspace) : Prop
    extends scene.Stands system workspace where
  reads : ∀ root ∈ scene.roots, ∀ source, workspace.system.read root = .ok source →
    system.read root = .ok source
  entries : ∀ entry ∈ scene.contexts, ∀ root ∈ scene.roots, ∀ known,
    workspace.cache.find? ⟨root, entry.1⟩ = some known → known.failed = false →
      ∃ source, system.read root = .ok source ∧
        lacksOutput (entry.2.emission root (entry.2.processed root source)) = false ∧
        known.outputs = (entry.2.emission root (entry.2.processed root source)).files

theorem sustains_reflects (orderly : scene.Orderly) (spares : scene.Spares system) :
    scene.Sustains system (scene.Reflects system) where
  stands _ reflects := reflects.toStands
  kept workspace other reflects same cache service watches :=
    ⟨(sustains_stands orderly spares).kept workspace other reflects.toStands same cache service
      watches, same ▸ reflects.reads, cache ▸ reflects.entries⟩
  stale workspace path target reflects := by
    refine ⟨(sustains_stands orderly spares).stale workspace path target reflects.toStands,
      reflects.reads, fun entry member root isRoot known cached counts => ?_⟩
    have found := Cache.find?_modify workspace.cache path target (·.stale) ⟨root, entry.1⟩
    rw [show workspace.cache.markStale path target =
      workspace.cache.modify path target (·.stale) from rfl, found] at cached
    split at cached
    · obtain ⟨old, before, rfl⟩ := Option.map_eq_some_iff.mp cached
      exact reflects.entries entry member root isRoot old before counts
    · exact reflects.entries entry member root isRoot known cached counts
  recompiled entry member path compiled source made session later reflects read recompiled := by
    have stands := reflects.toStands
    refine ⟨stands.of_recompiled orderly spares member compiled read recompiled,
      fun root isRoot text found => ?_, fun other member' root isRoot known found counts => ?_⟩
    · exact reflects.reads root isRoot text
        ((read_of_recompiled orderly spares member compiled stands recompiled isRoot).mp found)
    · rw [recompiled.entries] at found
      split at found
      · next alike =>
        obtain ⟨rfl, here⟩ := orderly.same_key member compiled member' isRoot alike
        have parsed := stands.texts_processed member compiled read
        have clean := orderly.made_eq_emission isRoot parsed recompiled
        subst clean
        rw [here]
        refine ⟨source, reflects.reads path isRoot source read, ?_⟩
        cases found
        rw [Context.settledEntry_failed] at counts
        exact ⟨counts, Context.settledEntry_outputs counts _⟩
      · exact reflects.entries other member' root isRoot known found counts

section Passing

variable {G : Workspace → Prop} {listed : List Path}

/-- Steps of sessions that keep a property of workspaces and what is up to date. -/
abbrev MovesOn (scene : Sequel) (system : System) (G : Workspace → Prop) (listed : List Path)
    {α : Type} (A : α → Prop) (step : Step α) : Prop :=
  Moves (Within G listed) (InvImage (scene.Upholds system) Session.workspace) A step

/-- A compilation finds no text, or is one of the text that the file has. -/
private theorem Stands.recompile_eq_ok (orderly : scene.Orderly)
    (stands : scene.Stands system session.workspace) (member : entry ∈ scene.contexts)
    (compiled : scene.paths path) {emission : Emission}
    (ran : entry.2.recompile path session = .ok emission later) :
    (∀ source, session.workspace.system.read path ≠ .ok source) ∧ later = session ∨
      ∃ source made, session.workspace.system.read path = .ok source ∧
        scene.texts path (entry.2.processed path source) ∧
        entry.2.Recompiled scene.parses path source made session later := by
  cases read : session.workspace.system.read path with
  | error error =>
    rw [Context.run_recompile, read] at ran
    cases ran
    exact .inl ⟨fun _ => nofun, rfl⟩
  | ok source =>
    have parsed := stands.texts_processed member compiled read
    obtain ⟨made, recompiled⟩ :=
      Context.recompile_eq_ok (orderly.pure entry member) stands.service read (.inl parsed) ran
    exact .inr ⟨source, made, rfl, parsed, recompiled⟩

theorem moves_recompile (orderly : scene.Orderly) (spares : scene.Spares system)
    (sustains : scene.Sustains system G) (member : entry ∈ scene.contexts)
    (compiled : scene.paths path) :
    scene.MovesOn system G listed (fun _ => True) (entry.2.recompile path) := by
  rintro session emission later ⟨good, roots⟩ ran
  have stands := sustains.stands _ good
  obtain ⟨-, rfl⟩ | ⟨source, made, read, parsed, recompiled⟩ :=
    stands.recompile_eq_ok orderly member compiled ran
  · exact ⟨⟨good, roots⟩, .refl _, trivial⟩
  · refine ⟨⟨sustains.recompiled entry member path compiled source made session later good read
      recompiled, recompiled.roots.trans roots⟩, ⟨fun other member' root isRoot upToDate => ?_,
      fun path isOpen => ?_⟩, trivial⟩
    · exact upToDate.kept_by_recompiled orderly spares member compiled stands read parsed recompiled
        member' isRoot
    · rw [recompiled.watches]
      exact isOpen

theorem makes_recompile (orderly : scene.Orderly) (spares : scene.Spares system)
    (sustains : scene.Sustains system G) (member : entry ∈ scene.contexts)
    (isRoot : path ∈ scene.roots) :
    Makes (Within G listed) (fun session => scene.UpToDate system entry path session.workspace)
      (entry.2.recompile path) := by
  rintro session emission later ⟨good, roots⟩ ran
  have stands := sustains.stands _ good
  obtain ⟨unread, rfl⟩ | ⟨source, made, read, parsed, recompiled⟩ :=
    stands.recompile_eq_ok orderly member (orderly.compiled path isRoot) ran
  · exact fun now found => absurd found (unread now)
  · exact .of_recompiled orderly spares member isRoot stands read parsed recompiled

/-- Dropping a snapshot touches nothing that is compared. -/
theorem moves_markStale (sustains : scene.Sustains system G) (path : Path) (target : String) :
    scene.MovesOn system G listed (fun _ => True) (Step.modifyCache (·.markStale path target)) := by
  refine Moves.modify fun session ⟨good, roots⟩ => ⟨⟨sustains.stale _ path target good, roots⟩,
    fun entry member root isRoot upToDate => ?_, fun _ isOpen => isOpen⟩
  intro now read lacks files
  obtain ⟨⟨known, cached, counts, outputs⟩, written⟩ := upToDate now read lacks
  refine ⟨?_, written⟩
  have found := Cache.find?_modify session.workspace.cache path target (·.stale) ⟨root, entry.1⟩
  change ∃ known, (session.workspace.cache.modify path target (·.stale)).find? _ = _ ∧ _
  rw [found]
  split
  · exact ⟨known.stale, by rw [cached]; rfl, counts, outputs⟩
  · exact ⟨known, cached, counts, outputs⟩

theorem moves_compileFile (orderly : scene.Orderly) (spares : scene.Spares system)
    (sustains : scene.Sustains system G) (member : entry ∈ scene.contexts)
    (compiled : scene.paths path) (force : Bool) :
    scene.MovesOn system G listed (fun _ => True) (entry.2.compileFile path force) := by
  cases force with
  | true =>
    exact (moves_markStale sustains path entry.2.target).bind fun _ _ =>
      moves_recompile orderly spares sustains member compiled
  | false =>
    intro session emission later good ran
    rw [Context.run_compileFile] at ran
    split at ran
    · exact moves_recompile orderly spares sustains member compiled session emission later good ran
    · cases ran
      exact ⟨good, .refl _, trivial⟩

/-- A file that is compiled whatever the cache knows becomes up to date. -/
theorem makes_compileFile (orderly : scene.Orderly) (spares : scene.Spares system)
    (sustains : scene.Sustains system G) (member : entry ∈ scene.contexts)
    (isRoot : path ∈ scene.roots) :
    Makes (Within G listed) (fun session => scene.UpToDate system entry path session.workspace)
      (entry.2.compileFile path true) :=
  Makes.bind (moves_markStale sustains path entry.2.target) fun _ _ =>
    makes_recompile orderly spares sustains member isRoot

/-- The end of a pass over files that are compiled in the scene. -/
theorem moves_finish (orderly : scene.Orderly) (sustains : scene.Sustains system G)
    (member : entry ∈ scene.contexts) {progress : Context.Progress}
    (compiled : ∀ path ∈ progress.compiled, scene.paths path) :
    scene.MovesOn system G listed (fun _ => True) (entry.2.finish progress) := by
  rintro session result later ⟨good, roots⟩ ran
  have stands := sustains.stands _ good
  have parsed : ∀ path ∈ progress.compiled, ∀ text,
      entry.2.snapshot? session path = some text → scene.parses path text := by
    intro path known text recorded
    refine .inl ⟨compiled path known, fun isRoot => ?_⟩
    unfold Context.snapshot? Cache.get at recorded
    rw [Cache.get?_eq_find?, orderly.target entry member] at recorded
    cases found : session.workspace.cache.find? ⟨path, entry.1⟩ with
    | none => simp [found] at recorded
    | some known =>
      rw [found] at recorded
      obtain ⟨source, listed, made⟩ :=
        stands.recorded entry member path isRoot known found text recorded
      exact ⟨entry, member, source, listed, made⟩
  obtain ⟨result', service, reports, finished, faithful, _⟩ :=
    Context.run_finish (orderly.pure entry member) stands.service parsed
  rw [finished] at ran
  cases ran
  refine ⟨⟨sustains.kept _ _ good rfl rfl faithful rfl, roots⟩, ?_, trivial⟩
  have kept :
      scene.Stands system { session.workspace with service := service, reports := reports } ∧
      scene.Upholds system session.workspace
        { session.workspace with service := service, reports := reports } :=
    stands.upholds_of_eq (System.Like.refl _) rfl rfl faithful stands.watches fun _ isOpen => isOpen
  exact kept.2

section Rooting

variable {context : Context} {compileRoot : Path → Step Emission}

/-- A pass over root files from an index on. -/
theorem moves_compileRootsFrom (within : ∀ path ∈ listed, scene.paths path) (fuel index : Nat)
    (each : ∀ path ∈ listed.drop index,
      scene.MovesOn system G listed (fun _ => True) (compileRoot path))
    {progress : Context.Progress} (compiled : ∀ path ∈ progress.compiled, scene.paths path) :
    scene.MovesOn system G listed (fun progress => ∀ path ∈ progress.compiled, scene.paths path)
      (context.compileRootsFrom compileRoot fuel index progress) := by
  intro session result later good ran
  induction fuel, index, progress, session, ran using Context.compileRootsFrom_induction with
  | ended => exact ⟨good, refl _, compiled⟩
  | @compiled _ index progress session path emission middle found here _ ih =>
    rw [good.2] at found
    obtain ⟨inside, rfl⟩ := List.getElem?_eq_some_iff.mp found
    rw [List.drop_eq_getElem_cons inside] at each
    obtain ⟨good', upholds, _⟩ := each _ (List.mem_cons_self ..) session emission middle good here
    obtain ⟨last, upholds', answer⟩ := ih (fun path member => each path
      (List.mem_cons_of_mem _ member)) (List.forall_mem_append.mpr ⟨compiled,
        List.forall_mem_singleton.mpr (within _ (List.getElem_mem inside))⟩) good'
    exact ⟨last, IsTrans.trans _ _ _ upholds upholds', answer⟩

theorem makes_compileRootsFrom {Q : Path → Session → Prop}
    (within : ∀ path ∈ listed, scene.paths path)
    (each : ∀ path ∈ listed, scene.MovesOn system G listed (fun _ => True) (compileRoot path))
    (makes : ∀ path ∈ listed, Makes (Within G listed) (Q path) (compileRoot path))
    (kept : ∀ path ∈ listed, ∀ session later : Session,
      scene.Upholds system session.workspace later.workspace → Q path session → Q path later)
    (fuel index : Nat) {progress : Context.Progress}
    (compiled : ∀ path ∈ progress.compiled, scene.paths path) :
    Makes (Within G listed) (fun session => ∀ path ∈ listed.drop index, Q path session)
      (context.compileRootsFrom compileRoot fuel index progress) := by
  intro session result later good ran
  induction fuel, index, progress, session, ran using Context.compileRootsFrom_induction with
  | ended short =>
    rw [good.2] at short
    rw [List.drop_eq_nil_of_le (List.getElem?_eq_none_iff.mp short)]
    exact fun _ none => absurd none List.not_mem_nil
  | @compiled fuel index progress session path emission middle found here rest ih =>
    rw [good.2] at found
    obtain ⟨inside, rfl⟩ := List.getElem?_eq_some_iff.mp found
    have isRoot := List.getElem_mem inside
    have more : ∀ path ∈ (progress.add listed[index] emission).compiled, scene.paths path :=
      List.forall_mem_append.mpr ⟨compiled, List.forall_mem_singleton.mpr (within _ isRoot)⟩
    obtain ⟨good', _⟩ := each _ isRoot session emission middle good here
    rw [List.drop_eq_getElem_cons inside]
    intro path member
    rcases List.mem_cons.mp member with rfl | member
    · -- What the first compilation makes true is kept by the others.
      have others := moves_compileRootsFrom within fuel (index + 1)
        (fun path member => each path (List.mem_of_mem_drop member)) more middle result later
          good' rest
      exact kept _ isRoot middle later others.2.1
        (makes _ isRoot session emission middle good here)
    · exact ih more good' path member

end Rooting

theorem moves_compileAll (orderly : scene.Orderly) (spares : scene.Spares system)
    (sustains : scene.Sustains system G) (member : entry ∈ scene.contexts)
    (within : ∀ path ∈ listed, scene.paths path) (limit : Nat) (force : Bool) :
    scene.MovesOn system G listed (fun _ => True) (entry.2.compileAll limit force) :=
  Moves.get_bind fun session _ =>
    (moves_compileRootsFrom within _ 0 (fun path known => moves_compileFile orderly spares sustains
      member (within path (List.mem_of_mem_drop known)) force) (by simp)).bind fun _ compiled =>
        moves_finish orderly sustains member compiled

/-- After a forced pass over all root files they are up to date. -/
theorem makes_compileAll (orderly : scene.Orderly) (spares : scene.Spares system)
    (sustains : scene.Sustains system G) (member : entry ∈ scene.contexts) (limit : Nat) :
    Makes (Within G scene.roots)
      (fun session => ∀ root ∈ scene.roots, scene.UpToDate system entry root session.workspace)
      (entry.2.compileAll limit true) := by
  have each : ∀ root ∈ scene.roots,
      scene.MovesOn system G scene.roots (fun _ => True) (entry.2.compileFile root true) :=
    fun root isRoot =>
      moves_compileFile orderly spares sustains member (orderly.compiled root isRoot) true
  refine Makes.get_bind fun session _ => Makes.bind_left
    (moves_compileRootsFrom orderly.compiled _ 0
      (fun root known => each root (List.mem_of_mem_drop known)) (by simp))
    (makes_compileRootsFrom orderly.compiled each
      (fun root isRoot => makes_compileFile orderly spares sustains member isRoot)
      (fun root isRoot session later upholds => upholds.upToDate entry member root isRoot) _ 0
      (by simp))
    (fun _ compiled => moves_finish orderly sustains member compiled)
    fun session later _ upholds known root isRoot =>
      upholds.upToDate entry member root isRoot (known root isRoot)

end Passing

end Sequel

end Recast.Build
