import Recast.Proofs.Build.Watching

/-! # Changes that watch mode handles

An edit of a root file is told by the watchers at its place. When the queued changes were handled,
what one of them compiles is up to date (`Staged.drainChanges_eq_ok`), so behind an edit a root file
is up to date if its changes compiled it, or if it was before and the edit did not hit it
(`Staged.handle_eq_ok`).
-/

namespace Recast.Build

open Recast.Emit Recast.Files

/-- The workspace after the watchers of a file were told of a change. A watcher on a disk tells the
path that it watches. -/
def Workspace.tell (workspace : Workspace) (path : Path) : Workspace :=
  match workspace.system with
  | .memory tree => workspace.notify (tree.resolve path) (tree.notified path)
  | .disk tree =>
    let told := workspace.watches.filter fun watch =>
      LocalTree.names watch.path = LocalTree.names (tree.resolve path)
    { workspace with queue := workspace.queue ++ told.map (·.path) }

/-- Telling of a change only queues paths. -/
theorem Workspace.exists_tell_eq (workspace : Workspace) (path : Path) :
    ∃ queue, workspace.tell path = { workspace with queue := queue } := by
  unfold tell
  split <;> exact ⟨_, rfl⟩

/-- Whether the changes of an edit compile a root file. The watchers of all root files at its place
tell of it. -/
def Context.refreshedBy (context : Context) (system : System) (edit : Edit) (root : Path) : Prop :=
  ∃ changed ∈ context.roots, system.samePlace changed edit.path = true ∧
    root ∈ Compiler.affected context { system := system } changed

/-- Whether no edit of a root file is left behind: each is one that compiles the file, or is
followed by one. -/
def Context.keepsUp (context : Context) (system : System) (edits : List Edit) (root : Path) :
    Prop :=
  ∀ before edit behind, edits = before ++ edit :: behind →
    system.samePlace root edit.path = true →
      ∃ next ∈ edit :: behind, context.refreshedBy system next root

namespace Compiler

/-- An edit of a file, which the watchers of the file tell of and the compiler handles. -/
def handle (edit : Edit) : Compiling PassResult := do
  modifyWorkspace fun workspace => { workspace with system := edit.run workspace.system }
  modifyWorkspace (·.tell edit.path)
  drainChanges

end Compiler

/-- Every change that was queued is taken, under some spelling. -/
theorem Settling.exists_take {queue : List Path} {path : Path} (member : path ∈ queue) :
    ∃ key ∈ (queue.foldl Settling.add {}).take.1, path.same key = true := by
  have kept (queue : List Path) (settling : Settling)
      (known : path ∈ queue ∨ (settling.pending.get? path).isSome) :
      ((queue.foldl Settling.add settling).pending.get? path).isSome := by
    induction queue generalizing settling with
    | nil => exact known.resolve_left List.not_mem_nil
    | cons first queue ih =>
      refine ih _ (known.elim (fun member => ?_) fun pending => .inr ?_)
      · refine (List.mem_cons.mp member).symm.imp_right ?_
        rintro rfl
        change ((settling.pending.insert path ()).get? path).isSome
        rw [PathMap.get?_insert, Path.same_self]
        rfl
      · change ((settling.pending.insert first ()).get? path).isSome
        rw [PathMap.get?_insert]
        split
        · rfl
        · exact pending
  exact PathMap.exists_key_of_get? (kept queue {} (.inl member))

namespace Sequel

variable {scene : Sequel} {system : System} {entry : String × Context} {path : Path}
  {listed : List Path}

section Refreshing

private theorem not_read_of_missing {workspace : Workspace}
    (missing : workspace.system.fileExists path = false) (source : String) :
    workspace.system.read path ≠ .ok source := by
  intro read
  obtain ⟨text, stored, _⟩ := System.read_eq_ok_iff.mp read
  rw [System.fileExists_eq, stored] at missing
  cases missing

/-- Entries of files that are gone can be dropped. -/
private theorem Stands.of_remove (orderly : scene.Orderly) {workspace : Workspace}
    (member : entry ∈ scene.contexts) (compiled : scene.paths path)
    (stands : scene.Stands system workspace)
    (missing : workspace.system.fileExists path = false) :
    scene.Stands system { workspace with cache := workspace.cache.remove path entry.2.target } ∧
      scene.Upholds system workspace
        { workspace with cache := workspace.cache.remove path entry.2.target } := by
  have found (key : CacheKey) := Cache.find?_remove workspace.cache path entry.2.target key
  refine ⟨⟨stands.like, stands.sources, fun other member' root isRoot known cached => ?_,
    stands.service, stands.watches⟩, fun other member' root isRoot upToDate => ?_,
    fun _ isOpen => isOpen⟩
  · rw [found] at cached
    split at cached
    · cases cached
    · exact stands.recorded other member' root isRoot known cached
  · intro now read lacks files
    obtain ⟨⟨known, cached, counts, outputs⟩, written⟩ := upToDate now read lacks
    refine ⟨⟨known, ?_, counts, outputs⟩, written⟩
    rw [found]
    split
    · next alike =>
      obtain ⟨rfl, _⟩ := orderly.same_key member compiled member' isRoot alike
      exact absurd read (not_read_of_missing missing now)
    · exact cached

variable (orderly : scene.Orderly) (spares : scene.Spares system) (member : entry ∈ scene.contexts)

include orderly spares member

theorem moves_refresh (compiled : scene.paths path) {progress : Context.Progress}
    (others : ∀ path ∈ progress.compiled, scene.paths path) :
    scene.MovesOn system (scene.Stands system) listed
      (fun progress => ∀ path ∈ progress.compiled, scene.paths path)
      (Compiler.refresh entry.2 progress path) := by
  intro session result later good ran
  rw [Compiler.run_refresh] at ran
  cases missing : session.workspace.system.fileExists path with
  | true =>
    rw [missing, if_pos rfl] at ran
    have more (emission : Emission) :
        ∀ other ∈ (progress.add path emission).compiled, scene.paths other := by
      intro other known
      rcases List.mem_append.mp known with before | last
      · exact others other before
      · rw [List.mem_singleton.mp last]
        exact compiled
    exact Moves.bind (B := fun progress => ∀ path ∈ progress.compiled, scene.paths path)
      (moves_compileFile orderly spares (sustains_stands orderly spares) member compiled true)
      (fun emission _ => .pure (more emission)) session result later good ran
  | false =>
    rw [missing] at ran
    cases ran
    obtain ⟨stands, upholds⟩ := good.1.of_remove orderly member compiled missing
    exact ⟨⟨stands, good.2⟩, upholds, others⟩

theorem makes_refresh (isRoot : path ∈ scene.roots) (progress : Context.Progress) :
    Makes (Within (scene.Stands system) listed)
      (fun session => scene.UpToDate system entry path session.workspace)
      (Compiler.refresh entry.2 progress path) := by
  intro session result later good ran
  rw [Compiler.run_refresh] at ran
  cases missing : session.workspace.system.fileExists path with
  | true =>
    rw [missing, if_pos rfl] at ran
    have sustains := sustains_stands orderly spares
    exact Makes.bind_left
      (moves_compileFile orderly spares sustains member (orderly.compiled path isRoot) true)
      (makes_compileFile orderly spares sustains member isRoot)
      (fun emission _ => Moves.pure (A := fun _ => True) trivial)
      (fun session later _ upholds => upholds.upToDate entry member path isRoot)
      session result later good ran
  | false =>
    rw [missing] at ran
    cases ran
    exact fun now read => absurd read (not_read_of_missing missing now)

variable (within : ∀ path ∈ listed, scene.paths path)

include within

/-- What is left to do when files were compiled again: no root file was added. -/
private theorem moves_refreshRest (limit : Nat) {progress : Context.Progress}
    (compiled : ∀ path ∈ progress.compiled, scene.paths path) :
    scene.MovesOn system (scene.Stands system) listed (fun _ => True) (do
      let added := (← get).roots.length - listed.length
      entry.2.finish (← entry.2.compileRootsFrom (Compiler.adopt entry.2) (added + limit)
        listed.length progress)) :=
  Moves.get_bind fun _ _ =>
    (moves_compileRootsFrom within _ listed.length (by simp) compiled).bind fun _ compiled =>
      moves_finish orderly (sustains_stands orderly spares) member compiled

theorem moves_refreshAll (limit : Nat) {files : List Path}
    (compiled : ∀ file ∈ files, scene.paths file) :
    scene.MovesOn system (scene.Stands system) listed (fun _ => True)
      (Compiler.refreshAll entry.2 limit files) := by
  refine Moves.get_bind fun session ⟨_, roots⟩ => ?_
  rw [roots]
  exact (Moves.foldlM (fun progress others path known =>
    moves_refresh orderly spares member (compiled path known) others) (by simp)).bind
      fun progress compiled => moves_refreshRest orderly spares member within limit compiled

/-- All root files among those that are compiled again are up to date. -/
theorem makes_refreshAll (limit : Nat) {files : List Path}
    (compiled : ∀ file ∈ files, scene.paths file) :
    Makes (Within (scene.Stands system) listed)
      (fun session => ∀ root ∈ files, root ∈ scene.roots →
        scene.UpToDate system entry root session.workspace)
      (Compiler.refreshAll entry.2 limit files) := by
  have each (progress : Context.Progress) (others : ∀ path ∈ progress.compiled, scene.paths path)
      (path : Path) (known : path ∈ files) :
      scene.MovesOn system (scene.Stands system) listed
        (fun progress => ∀ path ∈ progress.compiled, scene.paths path)
        (Compiler.refresh entry.2 progress path) :=
    moves_refresh orderly spares member (compiled path known) others
  refine Makes.get_bind fun session ⟨_, roots⟩ => ?_
  rw [roots]
  exact Makes.bind_left (Moves.foldlM each (by simp))
    (Makes.foldlM each
      (fun progress _ path _ => fun session result later good ran isRoot =>
        makes_refresh orderly spares member isRoot progress session result later good ran)
      (fun path session later _ upholds made isRoot =>
        upholds.upToDate entry member path isRoot (made isRoot)) (by simp))
    (fun progress compiled => moves_refreshRest orderly spares member within limit compiled)
    fun session later _ upholds made root known isRoot =>
      upholds.upToDate entry member root isRoot (made root known isRoot)

end Refreshing

section Handling

variable {setup : Setup} {G : Workspace → Prop} {compiler : Compiler} {target : String}

/-- The root files under a target that a change of a resolved path compiles, up to date. -/
def Refreshed (scene : Sequel) (system : System) (target : String) (changed : Path)
    (workspace : Workspace) : Prop :=
  ∀ entry ∈ scene.contexts, entry.1 = target → ∀ root ∈ scene.roots,
    root ∈ Compiler.affected entry.2 { system := system } changed →
      scene.UpToDate system entry root workspace

theorem Upholds.refreshed {changed : Path} {workspace other : Workspace}
    (upholds : scene.Upholds system workspace other)
    (refreshed : scene.Refreshed system target changed workspace) :
    scene.Refreshed system target changed other :=
  fun entry member named root isRoot affected =>
    upholds.upToDate entry member root isRoot (refreshed entry member named root isRoot affected)

namespace Staged

section Changing

variable (staged : scene.Staged system setup scene.roots)

include staged

/-- Which files a change compiles depends on the system only where paths lead. -/
private theorem affected_eq (member : entry ∈ scene.contexts) {workspace : Workspace}
    (like : workspace.system.Like system) (changed : Path) :
    Compiler.affected entry.2 workspace changed =
      Compiler.affected entry.2 { system := system } changed := by
  unfold Compiler.affected Context.dependents
  rw [(staged.pure entry member).resolvers]
  dsimp only
  simp only [like.resolve]
  rfl

private theorem paths_of_affected (member : entry ∈ scene.contexts) {workspace : Workspace}
    (like : workspace.system.Like system) {changed : Path} (normal : changed.IsNormal) :
    ∀ path ∈ Compiler.affected entry.2 workspace changed, scene.paths path :=
  staged.toOrderly.paths_of_affected member (staged.shared entry member ▸ staged.within)
    (like.current.trans staged.current) normal

theorem moves_targetChanged {changed : Path} (normal : changed.IsNormal) (result : PassResult)
    (target : String) :
    scene.MovesIn system setup (scene.Stands system) (fun _ => True)
      (Compiler.targetChanged changed result target) := by
  intro compiler pass later attends ran
  rw [Compiler.run_targetChanged] at ran
  cases known : compiler.context? target with
  | none =>
    rw [known] at ran
    cases ran
  | some context =>
    rw [known] at ran
    dsimp only at ran
    split at ran
    · cases ran
      exact ⟨attends, .refl _, trivial⟩
    · have compiled := staged.paths_of_affected (attends.mem_of_context? known) attends.good.like
        normal
      exact ((staged.moves_inContext fun _ member =>
        moves_refreshAll staged.toOrderly staged.spares member
          (fun path known => (staged.within path known).2) _ compiled).bind fun pass _ =>
            Moves.pure (A := fun _ => True) trivial) compiler pass later attends ran

theorem makes_targetChanged {changed : Path} (normal : changed.IsNormal) (result : PassResult)
    (target : String) :
    Makes (scene.Attends setup (scene.Stands system))
      (fun compiler => scene.Refreshed system target changed compiler.workspace)
      (Compiler.targetChanged changed result target) := by
  intro compiler pass later attends ran entry member named root isRoot affected
  obtain ⟨context, known, outcome⟩ := Compiler.exists_of_targetChanged_eq_ok ran
  obtain rfl := staged.unique entry member _ (attends.mem_of_context? known) named
  rw [← staged.affected_eq member attends.good.like] at affected
  obtain ⟨idle, -, rfl⟩ | ⟨_, pass', session, refreshed, -, rfl⟩ := outcome
  · simp [List.isEmpty_iff.mp idle] at affected
  · exact makes_refreshAll staged.toOrderly staged.spares member
      (fun path known => (staged.within path known).2) _
      (staged.paths_of_affected member attends.good.like normal) _ _ _
      ⟨attends.good, staged.shared entry member⟩ refreshed root affected isRoot

theorem moves_fileChanged (path : Path) :
    scene.MovesIn system setup (scene.Stands system) (fun _ => True)
      (Compiler.fileChanged path) := by
  have sustains := sustains_stands staged.toOrderly staged.spares
  refine Moves.get_bind fun compiler _ => (moves_status sustains _).bind fun _ _ =>
    moves_writingTargets.bind fun targets _ => ?_
  exact (Moves.foldlM (B := fun _ => True) (fun result _ target _ =>
    staged.moves_targetChanged (Path.isNormal_resolveFrom _ _) result target) trivial).bind
      fun result _ => (moves_status sustains _).bind fun _ _ => .pure trivial

/-- The root files that a change compiles are up to date when it was handled, under all targets that
write. -/
theorem makes_fileChanged (path : Path) :
    Makes (scene.Attends setup (scene.Stands system))
      (fun compiler => ∀ target ∈ setup.activeTargets, scene.writes target = true →
        scene.Refreshed system target (system.resolve path) compiler.workspace)
      (Compiler.fileChanged path) := by
  have sustains := sustains_stands staged.toOrderly staged.spares
  have said (message : String) : scene.MovesIn system setup (scene.Stands system) (fun _ => True)
      (Compiler.status message) := moves_status sustains message
  have asked : scene.MovesIn system setup (scene.Stands system)
      (· = setup.activeTargets.filter scene.writes) Compiler.writingTargets := moves_writingTargets
  have normal : (system.resolve path).IsNormal := Path.isNormal_resolveFrom _ _
  refine Makes.get_bind fun compiler attends => Makes.bind (said _) fun _ _ =>
    Makes.bind asked fun targets same => ?_
  rw [attends.good.like.resolve]
  have each (result : PassResult) (target : String) :=
    staged.moves_targetChanged normal result target
  intro compiler result later attends ran target active writes
  refine Makes.bind_left (Q := fun compiler => ∀ target ∈ targets,
      scene.Refreshed system target (system.resolve path) compiler.workspace)
    (Moves.foldlM (B := fun _ => True) (fun result _ target _ => each result target) trivial)
    (Makes.foldlM (B := fun _ => True)
      (Q := fun target compiler =>
        scene.Refreshed system target (system.resolve path) compiler.workspace)
      (fun result _ target _ => each result target)
      (fun result _ target _ => staged.makes_targetChanged normal result target)
      (fun target _ _ _ upholds => upholds.refreshed) trivial)
    (fun result _ => (said _).bind fun _ _ => Moves.pure (A := fun _ => True) trivial)
    (fun _ _ _ upholds refreshed target member => upholds.refreshed (refreshed target member))
    compiler result later attends ran target (same ▸ List.mem_filter.mpr ⟨active, writes⟩)

/-- When the queued changes were handled, what one of them compiles is up to date. -/
theorem drainChanges_eq_ok {result : PassResult} {later : Compiler}
    (attends : scene.Attends setup (scene.Stands system) compiler)
    (ran : Compiler.drainChanges compiler = .ok result later) :
    scene.Attends setup (scene.Stands system) later ∧
      scene.Upholds system compiler.workspace later.workspace ∧
      ∀ changed ∈ compiler.workspace.queue, ∀ target ∈ setup.activeTargets,
        scene.writes target = true →
          scene.Refreshed system target (system.resolve changed) later.workspace := by
  have sustains := sustains_stands staged.toOrderly staged.spares
  have each (result : PassResult) (path : Path) :
      scene.MovesIn system setup (scene.Stands system) (fun _ => True)
        (do return result.merge (← Compiler.fileChanged path)) :=
    (staged.moves_fileChanged path).bind fun _ _ => .pure trivial
  obtain ⟨good, upholds⟩ : scene.Stands system { compiler.workspace with queue := [] } ∧
      scene.Upholds system compiler.workspace { compiler.workspace with queue := [] } :=
    sustains.of_eq attends.good rfl rfl rfl rfl
  have emptied : scene.Attends setup (scene.Stands system)
      { compiler with workspace := { compiler.workspace with queue := [] } } :=
    ⟨good, attends.contexts, attends.options⟩
  change (List.foldlM (fun result path => do return result.merge (← Compiler.fileChanged path)) {}
    (compiler.workspace.queue.foldl Settling.add {}).take.1 : Compiling PassResult)
      { compiler with workspace := { compiler.workspace with queue := [] } } =
        .ok result later at ran
  obtain ⟨kept, upholds', _⟩ :=
    Moves.foldlM (B := fun _ => True) (fun result _ path _ => each result path) trivial
      _ _ _ emptied ran
  refine ⟨kept, upholds.trans upholds', fun changed queued target active writes => ?_⟩
  obtain ⟨key, member, same⟩ := Settling.exists_take queued
  rw [show system.resolve changed = system.resolve key from Path.resolveFrom_congr same _]
  exact Makes.foldlM (B := fun _ => True)
    (Q := fun path compiler => ∀ target ∈ setup.activeTargets, scene.writes target = true →
      scene.Refreshed system target (system.resolve path) compiler.workspace)
    (fun result _ path _ => each result path)
    (fun result _ path _ => Makes.bind_left (staged.moves_fileChanged path)
      (staged.makes_fileChanged path) (fun _ _ => Moves.pure (A := fun _ => True) trivial)
      fun _ _ _ upholds made target active writes => upholds.refreshed (made target active writes))
    (fun path _ _ _ upholds made target active writes =>
      upholds.refreshed (made target active writes))
    trivial _ _ _ emptied ran key member target active writes

end Changing

end Staged

section Editing

variable {edit : Edit} {workspace : Workspace}

/-- An edit brings texts that the scene knows, and closes no watcher. -/
theorem Stands.of_edit (stands : scene.Stands system workspace)
    (written : ∀ path text, edit = .write path text → scene.sources (system.decoded text)) :
    scene.Stands system { workspace with system := edit.run workspace.system } where
  like := (edit.like_run _).trans stands.like
  sources root isRoot source read := by
    rcases Edit.read_run read with before | ⟨path, text, wrote, rfl⟩
    · exact stands.sources root isRoot source before
    · rw [stands.like.decoded]
      exact written path text wrote
  recorded := stands.recorded
  service := stands.service
  watches watch isOpen := by
    have known := stands.watches watch isOpen
    revert known
    cases workspace.system <;> cases edit <;> exact id

/-- An edit of a root file leaves those up to date that it does not hit. -/
theorem UpToDate.of_edit (spares : scene.Spares system) (member : entry ∈ scene.contexts)
    (compiled : scene.paths path) (stands : scene.Stands system workspace)
    (upToDate : scene.UpToDate system entry path workspace)
    (ofRoot : ∃ root ∈ scene.roots, system.samePlace root edit.path = true)
    (apart : system.samePlace path edit.path = false) :
    scene.UpToDate system entry path
      { workspace with system := edit.run workspace.system } := by
  have stored {q : Path} (elsewhere : system.samePlace q edit.path = false) :
      (edit.run workspace.system).stored? q = workspace.system.stored? q :=
    edit.stored?_run_of_apart _ (by rw [stands.like.samePlace]; exact elsewhere)
  intro source read lacks files
  have before := (System.read_congr (edit.like_run _) (stored apart)).mp read
  obtain ⟨cached, written⟩ := upToDate source before lacks
  refine ⟨cached, fun writes file output owns => ?_⟩
  rw [← written writes file output owns]
  refine stored ?_
  obtain ⟨root, isRoot, hit⟩ := ofRoot
  rw [← System.samePlace_congr hit, System.samePlace_comm]
  exact spares entry member path compiled _ file output root isRoot

/-- The watcher of a root file tells of an edit at its place. -/
theorem Stands.mem_queue_tell (stands : scene.Stands system workspace)
    (watched : scene.Watched workspace) {root : Path} (isRoot : root ∈ scene.roots)
    (normal : root.IsNormal) (resolved : system.resolve root = root)
    (hit : system.samePlace root path = true) : root ∈ (workspace.tell path).queue := by
  obtain ⟨watch, isOpen, same⟩ := List.any_eq_true.mp (watched root isRoot)
  have known := stands.watches watch isOpen
  have here := stands.like.resolve root
  rw [resolved] at here
  rw [← stands.like.samePlace] at hit
  unfold Workspace.tell
  cases placed : workspace.system with
  | memory tree =>
    rw [placed] at known here hit
    have told : watch.path.same (tree.resolve path) = true := Path.same_trans same (here ▸ hit)
    have spelled : tree.resolve path = root :=
      ((Path.isNormal_resolveFrom _ _).eq_of_same normal
        (Path.same_trans (Path.same_symm told) same))
    have number : watch.number ∈ tree.notified path := by
      refine List.mem_map.mpr
        ⟨(⟨watch.path, true⟩, watch.number), List.mem_filter.mpr ⟨?_, ?_⟩, rfl⟩
      · exact List.mem_zipIdx_iff_getElem?.mpr known
      · exact told
    refine List.mem_append_right _ (List.mem_map.mpr ⟨watch.number, ?_, spelled⟩)
    exact List.mem_filter.mpr ⟨number, List.any_eq_true.mpr ⟨watch, isOpen, by simp⟩⟩
  | disk tree =>
    rw [placed] at known here hit
    have spelled : watch.path = root := known.eq_of_same normal same
    refine List.mem_append_right _ (List.mem_map.mpr ⟨watch, ?_, spelled⟩)
    refine List.mem_filter.mpr ⟨isOpen, decide_eq_true ?_⟩
    rw [spelled]
    have names := beq_iff_eq.mp hit
    rwa [here] at names

end Editing

namespace Staged

section Edits

variable (staged : scene.Staged system setup scene.roots)
  (resolved : ∀ root ∈ scene.roots, system.resolve root = root)

include staged

theorem writes_eq (member : entry ∈ scene.contexts) (active : entry.1 ∈ setup.activeTargets) :
    scene.writes entry.1 = entry.2.writesFiles := by
  obtain ⟨context, known⟩ := Option.isSome_iff_exists.mp (staged.ready entry.1 active)
  rw [writes, known, staged.unique entry member _ (mem_of_lookup known) rfl]
  rfl

include resolved

/-- When an edit was handled, a root file is up to date if the changes compiled it, or if it was
before and the edit did not hit it. -/
theorem handle_eq_ok {edit : Edit} {result : PassResult} {later : Compiler}
    (attends : scene.Attends setup (scene.Stands system) compiler)
    (watched : scene.Watched compiler.workspace)
    (ofRoot : ∃ root ∈ scene.roots, system.samePlace root edit.path = true)
    (written : ∀ path text, edit = .write path text → scene.sources (system.decoded text))
    (ran : Compiler.handle edit compiler = .ok result later) :
    scene.Attends setup (scene.Stands system) later ∧ scene.Watched later.workspace ∧
      ∀ entry ∈ scene.contexts, entry.1 ∈ setup.activeTargets → entry.2.writesFiles = true →
        ∀ root ∈ scene.roots, entry.2.refreshedBy system edit root ∨
            system.samePlace root edit.path = false ∧
              scene.UpToDate system entry root compiler.workspace →
          scene.UpToDate system entry root later.workspace := by
  have sustains := sustains_stands staged.toOrderly staged.spares
  let edited : Workspace :=
    { compiler.workspace with system := edit.run compiler.workspace.system }
  have stands : scene.Stands system edited := attends.good.of_edit written
  obtain ⟨queue, told⟩ := edited.exists_tell_eq edit.path
  obtain ⟨good, upholds⟩ : scene.Stands system (edited.tell edit.path) ∧
      scene.Upholds system edited (edited.tell edit.path) := by
    rw [told]
    exact sustains.of_eq stands rfl rfl rfl rfl
  have attending : scene.Attends setup (scene.Stands system)
      { compiler with workspace := edited.tell edit.path } :=
    ⟨good, attends.contexts, attends.options⟩
  obtain ⟨kept, upholds', refreshed⟩ := staged.drainChanges_eq_ok attending ran
  have both := upholds.trans upholds'
  refine ⟨kept, both.allWatched watched, fun entry member active writes root isRoot how => ?_⟩
  rcases how with ⟨changed, known, hit, affected⟩ | ⟨apart, upToDate⟩
  · rw [staged.shared entry member] at known
    have queued := stands.mem_queue_tell watched known (staged.within changed known).1
      (resolved changed known) hit
    refine refreshed changed queued entry.1 active ?_ entry member rfl root isRoot ?_
    · rw [staged.writes_eq member active, writes]
    · rwa [resolved changed known]
  · exact both.upToDate entry member root isRoot
      (upToDate.of_edit staged.spares member (staged.within root isRoot).2 attends.good ofRoot
        apart)

/-- Root files with no edit left behind are up to date when all edits were handled. -/
theorem handleAll_eq_ok {edits : List Edit} {later : Compiler}
    (attends : scene.Attends setup (scene.Stands system) compiler)
    (watched : scene.Watched compiler.workspace)
    (ofRoots : ∀ edit ∈ edits, ∃ root ∈ scene.roots, system.samePlace root edit.path = true)
    (written : ∀ path text, .write path text ∈ edits → scene.sources (system.decoded text))
    (ran : (edits.forM fun edit => discard (Compiler.handle edit)) compiler = .ok () later) :
    scene.Attends setup (scene.Stands system) later ∧
      ∀ entry ∈ scene.contexts, entry.1 ∈ setup.activeTargets → entry.2.writesFiles = true →
        ∀ root ∈ scene.roots, scene.UpToDate system entry root compiler.workspace ∨
            (∃ next ∈ edits, entry.2.refreshedBy system next root) →
          entry.2.keepsUp system edits root → scene.UpToDate system entry root later.workspace := by
  induction edits generalizing compiler with
  | nil =>
    cases ran
    refine ⟨attends, fun entry member active writes root isRoot how keeps => ?_⟩
    rcases how with upToDate | ⟨_, none, _⟩
    · exact upToDate
    · cases none
  | cons edit edits ih =>
    obtain ⟨⟨⟩, middle, first, rest⟩ := exists_of_bind_eq_ok ran
    obtain ⟨result, handled⟩ := exists_of_discard_eq_ok first
    obtain ⟨kept, watched', upToDate⟩ := staged.handle_eq_ok resolved attends watched
      (ofRoots edit (List.mem_cons_self ..))
      (fun path text here => written path text (here ▸ List.mem_cons_self ..)) handled
    obtain ⟨last, upToDate'⟩ := ih kept watched'
      (fun other member => ofRoots other (List.mem_cons_of_mem _ member))
      (fun path text member => written path text (List.mem_cons_of_mem _ member)) rest
    refine ⟨last, fun entry member active writes root isRoot how keeps => ?_⟩
    refine upToDate' entry member active writes root isRoot ?_ fun before other behind split =>
      keeps (edit :: before) other behind (congrArg _ split)
    by_cases behind : ∃ next ∈ edits, entry.2.refreshedBy system next root
    · exact .inr behind
    refine .inl (upToDate entry member active writes root isRoot ?_)
    by_cases here : entry.2.refreshedBy system edit root
    · exact .inl here
    -- No change compiles the file any more, so no edit may have hit it.
    have never : ¬∃ next ∈ edit :: edits, entry.2.refreshedBy system next root := by
      rintro ⟨next, known, refreshed⟩
      rcases List.mem_cons.mp known with rfl | known
      · exact here refreshed
      · exact behind ⟨next, known, refreshed⟩
    refine .inr ⟨Bool.eq_false_iff.mpr fun hit => ?_, how.resolve_right never⟩
    exact never (keeps [] edit edits rfl hit)

end Edits

end Staged

end Handling

end Sequel

end Recast.Build
