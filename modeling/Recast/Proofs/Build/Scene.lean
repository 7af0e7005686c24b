import Recast.Proofs.Build.Clean

/-! # What incremental compilation relies on

A scene lists what a run of a compiler is about. A workspace is sound for it when every entry of a
root file holds what a clean compilation of its source gives, and every parsed tree is one of a text
that belongs there. Every compilation keeps a sound workspace sound and gives the outputs of a clean
one (`compileFile_spec`).
-/

namespace Recast.Build

open Recast.Emit Recast.Script Recast.Files

/-- The contexts of a compiler and their root files, the texts that root files may have, and the
files that are compiled, on files in memory. -/
structure Scene where
  current : Path
  supportsWatch : Bool
  contexts : List (String × Context)
  roots : List Path
  sources : String → Prop
  paths : Path → Prop

namespace Scene

/-- The texts that are parsed for a path: for a root file, what a context makes of one of its
texts. -/
def texts (scene : Scene) (path : Path) (text : String) : Prop :=
  scene.paths path ∧ (path ∈ scene.roots →
    ∃ entry ∈ scene.contexts, ∃ source, scene.sources source ∧ text = entry.2.processed path source)

/-- Contexts are pure, a root file is compiled under its own spelling only, and digests tell its
texts apart. -/
structure Orderly (scene : Scene) : Prop where
  unique : ∀ entry ∈ scene.contexts, ∀ other ∈ scene.contexts, entry.1 = other.1 → entry.2 = other.2
  target : ∀ entry ∈ scene.contexts, entry.2.target = entry.1
  pure : ∀ entry ∈ scene.contexts, entry.2.IsPure
  keeps : ∀ entry ∈ scene.contexts, entry.2.KeepsCache
  normal : ∀ root ∈ scene.roots, root.IsNormal
  compiled : ∀ root ∈ scene.roots, scene.paths root
  dependents : ∀ entry ∈ scene.contexts, ∀ dependents, entry.2.dependents? = some dependents →
    ∀ path, ∀ file ∈ dependents path,
      scene.paths ((entry.2.projectRoot.join file).resolveFrom scene.current)
  spelled : ∀ path, scene.paths path → ∀ root ∈ scene.roots, path.same root = true → path = root
  digests : ∀ root ∈ scene.roots, ∀ text other, scene.texts root text → scene.texts root other →
    Digest.of text = Digest.of other → text = other

/-- Contexts have one set of root files, and no output is written to one in memory. -/
structure Fair (scene : Scene) : Prop extends scene.Orderly where
  roots : ∀ entry ∈ scene.contexts, entry.2.roots = scene.roots
  apart : ∀ entry ∈ scene.contexts, ∀ path, scene.paths path → ∀ text,
    ∀ file ∈ (entry.2.emission path text).files, ∀ root ∈ scene.roots,
    (root.resolveFrom scene.current).same (file.name.resolveFrom scene.current) = false

/-- An entry holds what the context makes of its source: the text, and the outputs if it is
settled. -/
structure Agrees (scene : Scene) (context : Context) (root : Path) (entry : CacheEntry) : Prop where
  recorded : ∀ text, entry.snapshot = some text →
    scene.sources entry.source ∧ text = context.processed root entry.source
  settled : entry.isSettled = true →
    lacksOutput (context.emission root (context.processed root entry.source)) = false ∧
      entry.outputs = (context.emission root (context.processed root entry.source)).files

/-- A workspace in which everything that is known about root files is what a clean compilation would
find. -/
structure Sound (scene : Scene) (workspace : Workspace) : Prop where
  memory : ∃ tree, workspace.system = .memory tree ∧ tree.current = scene.current ∧
    tree.supportsWatch = scene.supportsWatch
  sources : ∀ root ∈ scene.roots, ∀ source, workspace.system.read root = .ok source →
    scene.sources source
  entries : ∀ entry ∈ scene.contexts, ∀ root ∈ scene.roots, ∀ known,
    workspace.cache.find? ⟨root, entry.1⟩ = some known → scene.Agrees entry.2 root known
  service : workspace.service.Faithful scene.texts

variable {scene : Scene} {entry : String × Context} {path : Path} {session later : Session}

/-- Digests tell the texts of a root file from those of every file that is compiled. -/
theorem Orderly.tellsApart (orderly : scene.Orderly) (root : path ∈ scene.roots) {text : String}
    (listed : scene.texts path text) :
    Service.TellsApart scene.texts path text := by
  intro spelled other same known digests
  have here := orderly.spelled spelled known.1 path root (Path.same_symm same)
  subst here
  exact ⟨rfl, orderly.digests spelled root other text known listed digests⟩

/-- No output of a file that is compiled hits a root file, whichever tree the service takes for
it. -/
theorem Fair.emissionWith_apart (fair : scene.Fair) (member : entry ∈ scene.contexts)
    {spelled : Path} {text other : String} (listed : scene.texts path text)
    (known : scene.texts spelled other) (same : path.same spelled = true) :
    ∀ file ∈ (entry.2.emissionWith path text (Tree.parse spelled other)).files,
      ∀ root ∈ scene.roots, (root.resolveFrom scene.current).same
      (file.name.resolveFrom scene.current) = false := by
  obtain files | files := entry.2.files_emissionWith text other same <;> rw [files]
  · exact fair.apart entry member path listed.1 text
  · exact fair.apart entry member spelled known.1 other

theorem agrees_settledEntry {context : Context} {root : Path} {source : String}
    (listed : scene.sources source) (entry : CacheEntry) :
    scene.Agrees context root
      (Context.settledEntry (context.emission root (context.processed root source))
        (entry.update source (context.processed root source))) := by
  refine ⟨fun text known => ?_, fun settled => ?_⟩
  · rw [Context.settledEntry_snapshot, CacheEntry.update_snapshot] at known
    rw [Context.settledEntry_source, CacheEntry.update_source]
    exact ⟨listed, (Option.some.inj known).symm⟩
  · rw [CacheEntry.isSettled, Context.settledEntry_failed, Bool.and_eq_true,
      Bool.not_eq_eq_eq_not, Bool.not_true] at settled
    obtain ⟨-, has⟩ := settled
    rw [Context.settledEntry_source, CacheEntry.update_source, Context.settledEntry_outputs has]
    exact ⟨has, rfl⟩

theorem Agrees.stale {context : Context} {root : Path} (known : CacheEntry) :
    scene.Agrees context root known.stale :=
  ⟨by simp [CacheEntry.stale], by simp [CacheEntry.stale, CacheEntry.isSettled]⟩

/-- A step that keeps a workspace sound, the root files listed, and their texts as they are. -/
structure Follows (scene : Scene) (session later : Session) : Prop where
  sound : scene.Sound later.workspace
  roots : later.roots = session.roots
  reads : ∀ root ∈ scene.roots, later.workspace.system.read root =
    session.workspace.system.read root

theorem Follows.refl (sound : scene.Sound session.workspace) : scene.Follows session session :=
  ⟨sound, rfl, fun _ _ => rfl⟩

theorem Follows.trans {last : Session} (first : scene.Follows session later)
    (second : scene.Follows later last) :
    scene.Follows session last :=
  ⟨second.sound, second.roots.trans first.roots,
    fun root member => (second.reads root member).trans (first.reads root member)⟩

/-- An answer about a root file with the outputs of a clean compilation; unless it is skipped, no
error is in it and the text of the file is recorded. -/
structure IsClean (context : Context) (session later : Session) (path : Path)
    (emission : Emission) : Prop where
  files : emission.files = (context.clean session.workspace.system path).files
  skipped : emission.skipped = (context.clean session.workspace.system path).skipped
  faultless : emission.skipped = false → Diagnostic.anyError emission.diagnostics = false
  recorded : emission.skipped = false →
    context.snapshot? later path = (session.workspace.system.read path).toOption.map
      (context.processed path)

/-- A new cache keeps a workspace sound if its entries agree. -/
theorem Sound.withCache (sound : scene.Sound session.workspace) {f : Cache → Cache}
    (agrees : ∀ entry ∈ scene.contexts, ∀ root ∈ scene.roots, ∀ known,
      (f session.workspace.cache).find? ⟨root, entry.1⟩ = some known →
        scene.Agrees entry.2 root known) :
    scene.Sound (session.mapCache f).workspace :=
  ⟨sound.memory, sound.sources, agrees, sound.service⟩

/-- The key of a file under a context, seen from the keys of root files. -/
theorem Orderly.same_key (orderly : scene.Orderly) (member : entry ∈ scene.contexts)
    (listed : scene.paths path) {other : String × Context} (member' : other ∈ scene.contexts)
    {root : Path} (isRoot : root ∈ scene.roots)
    (same : (⟨root, other.1⟩ : CacheKey).same ⟨path, entry.2.target⟩ = true) :
    path = root ∧ other.2 = entry.2 := by
  obtain ⟨paths, targets⟩ := CacheKey.same_iff.mp same
  refine ⟨orderly.spelled path listed root isRoot (Path.same_symm paths), ?_⟩
  exact orderly.unique other member' entry member (targets.trans (orderly.target entry member))

theorem recompile_spec (fair : scene.Fair) (member : entry ∈ scene.contexts)
    (listed : scene.paths path) (sound : scene.Sound session.workspace) :
    ∃ emission later, entry.2.recompile path session = .ok emission later ∧
      scene.Follows session later ∧
      (path ∈ scene.roots → IsClean entry.2 session later path emission) := by
  obtain ⟨tree, memory, current, watches⟩ := sound.memory
  cases read : tree.read path with
  | error error =>
    have unread : session.workspace.system.read path = .error error := by rw [memory]; exact read
    refine ⟨{ diagnostics := [unreadable path error], skipped := true }, session, ?_, .refl sound,
      fun _ => ?_⟩
    · rw [Context.run_recompile, unread]
    · constructor <;> simp [Context.clean, unread]
  | ok source =>
    have was : session.workspace.system.read path = .ok source := by rw [memory]; exact read
    have parsed : scene.texts path (entry.2.processed path source) :=
      ⟨listed, fun root => ⟨entry, member, source, sound.sources path root source was, rfl⟩⟩
    obtain ⟨spelled, other, service, same, known, digests, faithful, ran⟩ :=
      Context.run_recompile_of_pure (fair.pure entry member) memory sound.service read parsed
    dsimp only at ran
    have outside := fair.emissionWith_apart member parsed known same
    have reads (root : Path) (isRoot : root ∈ scene.roots) (cache : Cache) :
        (entry.2.settled path (entry.2.emissionWith path (entry.2.processed path source)
          (Tree.parse spelled other))
          cache tree).2.read root = session.workspace.system.read root := by
      rw [memory]
      refine Context.read_settled (fun file written => ?_) _ _ _
      unfold MemoryTree.resolve
      rw [current]
      exact outside file written root isRoot
    have exact (isRoot : path ∈ scene.roots) :
        entry.2.emissionWith path (entry.2.processed path source) (Tree.parse spelled other) =
          entry.2.emission path (entry.2.processed path source) := by
      obtain ⟨rfl, rfl⟩ := fair.tellsApart isRoot parsed spelled other same known digests
      rfl
    refine ⟨_, _, ran, ⟨⟨⟨_, rfl, ?_, ?_⟩, fun root isRoot text now => ?_,
      fun next member' root isRoot known found => ?_, faithful⟩, rfl,
      fun root isRoot => reads root isRoot _⟩, fun isRoot => ?_⟩
    · rw [(Context.settled_frame ..).1, current]
    · rw [(Context.settled_frame ..).2, watches]
    · exact sound.sources root isRoot text ((reads root isRoot _).symm.trans now)
    · dsimp only at found
      rw [Context.find?_settled] at found
      split at found
      · next alike =>
        obtain ⟨rfl, here⟩ := fair.same_key member listed member' isRoot alike
        rw [exact isRoot] at found
        cases found
        rw [here]
        exact agrees_settledEntry (sound.sources path isRoot source was) _
      · exact sound.entries next member' root isRoot known found
    · have clean : entry.2.clean session.workspace.system path =
          { entry.2.emission path (entry.2.processed path source) with
            skipped := lacksOutput (entry.2.emission path (entry.2.processed path source)) } := by
        unfold Context.clean
        rw [was]
      rw [exact isRoot] at *
      refine ⟨by rw [clean], by rw [clean], fun counts => ?_, fun _ => ?_⟩
      · dsimp only at counts ⊢
        unfold lacksOutput at counts
        exact (Bool.or_eq_false_iff.mp counts).2
      · rw [was]
        unfold Context.snapshot? Cache.get
        dsimp only
        rw [Cache.get?_eq_find?, Context.find?_settled, CacheKey.same_self]
        rw [if_pos rfl, Option.getD_some, Context.settledEntry_snapshot]
        exact CacheEntry.update_snapshot ..

/-- Dropping the snapshot of an entry keeps a workspace sound. -/
private theorem Sound.markStale (sound : scene.Sound session.workspace) (path : Path)
    (target : String) :
    scene.Sound (session.mapCache (·.markStale path target)).workspace := by
  refine sound.withCache fun entry member root isRoot known found => ?_
  unfold Cache.markStale at found
  rw [Cache.find?_modify] at found
  split at found
  · obtain ⟨old, _, rfl⟩ := Option.map_eq_some_iff.mp found
    exact .stale old
  · exact sound.entries entry member root isRoot known found

/-- Every compilation keeps a sound workspace sound, and gives the outputs of a clean one for root
files. -/
theorem compileFile_spec (fair : scene.Fair) (member : entry ∈ scene.contexts)
    (listed : scene.paths path) (sound : scene.Sound session.workspace) (force : Bool) :
    ∃ emission later, entry.2.compileFile path force session = .ok emission later ∧
      scene.Follows session later ∧
      (path ∈ scene.roots → IsClean entry.2 session later path emission) := by
  cases force with
  | true =>
    rw [Context.run_compileFile_force]
    obtain ⟨emission, later, ran, follows, clean⟩ :=
      recompile_spec fair member listed (sound.markStale path entry.2.target)
    refine ⟨emission, later, ran, ⟨follows.sound, follows.roots, follows.reads⟩, fun isRoot => ?_⟩
    obtain ⟨files, skipped, faultless, recorded⟩ := clean isRoot
    exact ⟨files, skipped, faultless, recorded⟩
  | false =>
    rw [Context.run_compileFile]
    cases changed : session.workspace.cache.hasChanged session.workspace.system path
      entry.2.target with
    | true => exact recompile_spec fair member listed sound
    | false =>
      refine ⟨_, session, rfl, .refl sound, fun isRoot => ?_⟩
      obtain ⟨known, found, settled, read⟩ := Cache.hasChanged_eq_false_iff.mp changed
      have agrees := sound.entries entry member path isRoot known
        (by rw [← fair.target entry member]; exact found)
      obtain ⟨counts, outputs⟩ := agrees.settled settled
      have answer : (session.workspace.cache.get path entry.2.target) = known := by
        unfold Cache.get
        rw [Cache.get?_eq_find?, found]
        rfl
      have clean : entry.2.clean session.workspace.system path =
          { entry.2.emission path (entry.2.processed path known.source) with
            skipped := false } := by
        unfold Context.clean
        rw [read]
        dsimp only
        rw [counts]
      rw [answer]
      refine ⟨by rw [clean]; exact outputs, by rw [clean], fun _ => rfl, fun _ => ?_⟩
      unfold Context.snapshot?
      rw [answer, read]
      cases text : known.snapshot with
      | none => simp [CacheEntry.isSettled, text] at settled
      | some text' => exact congrArg some (agrees.recorded text' text).2

/-- A compilation leaves the recorded texts of other root files alone. -/
theorem snapshot?_compileFile (fair : scene.Fair) (member : entry ∈ scene.contexts)
    (listed : scene.paths path) {root : Path} (isRoot : root ∈ scene.roots) (other : path ≠ root)
    (force : Bool) (session : Session) :
    entry.2.snapshot? (endState (entry.2.compileFile path force session)) root =
      entry.2.snapshot? session root := by
  have elsewhere : (⟨root, entry.2.target⟩ : CacheKey).same ⟨path, entry.2.target⟩ = false := by
    rw [Bool.eq_false_iff]
    intro same
    exact other (fair.spelled path listed root isRoot
      (Path.same_symm (CacheKey.same_iff.mp same).1))
  have left := Context.leaves_find?_compileFile elsewhere (fair.keeps entry member) force session
  exact congrArg (fun known : Option CacheEntry => (known.getD {}).snapshot) left

/-- Recorded texts are among those that are parsed. -/
theorem Sound.texts_snapshot? (fair : scene.Fair) (member : entry ∈ scene.contexts)
    (listed : scene.paths path) (sound : scene.Sound session.workspace) {text : String}
    (recorded : entry.2.snapshot? session path = some text) :
    scene.texts path text := by
  refine ⟨listed, fun isRoot => ?_⟩
  unfold Context.snapshot? Cache.get at recorded
  rw [Cache.get?_eq_find?, fair.target entry member] at recorded
  cases found : session.workspace.cache.find? ⟨path, entry.1⟩ with
  | none => simp [found] at recorded
  | some known =>
    rw [found] at recorded
    obtain ⟨source, made⟩ := (sound.entries entry member path isRoot known found).recorded
      text recorded
    exact ⟨entry, member, known.source, source, made⟩

end Scene

end Recast.Build
