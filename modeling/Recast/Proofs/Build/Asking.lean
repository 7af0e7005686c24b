import Recast.Proofs.Build.Counting
import Recast.Proofs.Build.Growing
import Recast.Proofs.Build.Watching
import Recast.Proofs.Files.Watchers

/-! # Who asks for a watcher

Watchers are asked for by the compiler, for root files, and by callbacks, for any path. A request
opens a watcher of the place to which its path leads, unless a watcher is open whose place is
spelled as the path is (`ask`). So a file gets a second watcher exactly where it is asked for again
in a spelling that is not that of its place (`apart_foldl_ask_iff`). Whatever a compiler lives
through, its watchers are the open ones of the system (`Workspace.Tracks`): every one of them is
told of a change, and all are closed.

The main statement is `watched_once_iff`.
-/

namespace Recast.Build

section Requests

variable {current path : Path} {places paths : List Path}

/-- What is watched behind a request: the place to which the path leads too, unless a place is
watched that is spelled as the path is. -/
def ask (current : Path) (places : List Path) (path : Path) : List Path :=
  if places.any (·.same path) then places else places ++ [path.resolveFrom current]

theorem apart_ask_iff : Apart (ask current places path) ↔
    Apart places ∧ (places.any (·.same (path.resolveFrom current)) = true →
      places.any (·.same path) = true) := by
  unfold ask
  split
  · next covered => exact ⟨fun apart => ⟨apart, fun _ => covered⟩, And.left⟩
  · next uncovered =>
    have single : Apart [path.resolveFrom current] := List.pairwise_singleton ..
    have others : (∀ place ∈ places, ∀ new ∈ [path.resolveFrom current],
        new.same place = false) ↔
        ¬ places.any (·.same (path.resolveFrom current)) = true := by
      simp only [List.mem_singleton, forall_eq, List.any_eq_true, not_exists, not_and,
        Bool.not_eq_true]
      refine forall₂_congr fun place _ => ?_
      rw [← Bool.not_eq_true, ← Bool.not_eq_true]
      exact not_congr ⟨Path.same_symm, Path.same_symm⟩
    rw [Apart, List.pairwise_append, others]
    exact ⟨fun ⟨apart, _, new⟩ => ⟨apart, fun known => absurd known new⟩,
      fun ⟨apart, fits⟩ => ⟨apart, single, fun known => uncovered (fits known)⟩⟩

/-- Each request for a file that is watched already is spelled as a place that is watched. -/
def Fits (current : Path) (places paths : List Path) : Prop :=
  ∀ earlier path later, paths = earlier ++ path :: later →
    (earlier.foldl (ask current) places).any (·.same (path.resolveFrom current)) = true →
      (earlier.foldl (ask current) places).any (·.same path) = true

theorem fits_concat_iff : Fits current places (paths ++ [path]) ↔
    Fits current places paths ∧
      ((paths.foldl (ask current) places).any (·.same (path.resolveFrom current)) = true →
        (paths.foldl (ask current) places).any (·.same path) = true) := by
  constructor
  · intro fits
    refine ⟨fun earlier first later split => ?_, fits paths path [] rfl⟩
    exact fits earlier first (later ++ [path]) (by rw [split, List.append_assoc]; rfl)
  · rintro ⟨fits, last⟩ earlier first later split
    rcases List.eq_nil_or_concat later with rfl | ⟨later, final, rfl⟩
    · obtain ⟨rfl, same⟩ := List.append_inj' split rfl
      obtain ⟨rfl, -⟩ := List.cons.inj same
      exact last
    · rw [List.concat_eq_append, ← List.cons_append, ← List.append_assoc] at split
      exact fits earlier first later (List.append_inj' split rfl).1

/-- No two watchers are of one file just where that held before and all requests fit. -/
theorem apart_foldl_ask_iff : Apart (paths.foldl (ask current) places) ↔
    Apart places ∧ Fits current places paths := by
  induction paths using List.reverseRecOn with
  | nil =>
    refine ⟨fun apart => ⟨apart, fun earlier path later split => ?_⟩, And.left⟩
    cases earlier <;> cases split
  | append_singleton paths path ih =>
    rw [List.foldl_append, List.foldl_cons, List.foldl_nil, apart_ask_iff, ih, fits_concat_iff,
      and_assoc]

/-- Requests that are spelled as the places to which they lead all fit. -/
theorem fits_of_fixed (fixed : ∀ path ∈ paths, path.resolveFrom current = path) :
    Fits current places paths := by
  rintro earlier path later rfl known
  rwa [fixed path (by simp)] at known

/-- No two paths name the same just where no file is named twice. -/
theorem apart_iff_countP_le_one : Apart paths ↔ ∀ path, paths.countP (·.same path) ≤ 1 := by
  induction paths with
  | nil => simp
  | cons first paths ih =>
    have none : (∀ other ∈ paths, other.same first = false) ↔
        paths.countP (·.same first) = 0 := by
      simp only [List.countP_eq_zero, Bool.not_eq_true]
    rw [Apart, List.pairwise_cons, ← Apart, ih, none]
    simp only [List.countP_cons]
    constructor
    · rintro ⟨alone, once⟩ path
      split
      · next same =>
        have moved : paths.countP (·.same path) = paths.countP (·.same first) :=
          List.countP_congr fun other _ => by rw [Path.same_congr_right same other]
        rw [moved, alone]
      · exact once path
    · intro once
      refine ⟨?_, fun path => Nat.le_trans (Nat.le_add_right ..) (once path)⟩
      have first := once first
      rw [Path.same_self, if_pos rfl] at first
      omega

end Requests

namespace Workspace

/-- The places that the compiler watches. -/
def places (workspace : Workspace) : List Path :=
  workspace.watches.map (·.path)

/-- The watchers of the compiler are the open ones of its system, which can watch, and all of them
watch places seen from one directory. -/
structure Tracks (current : Path) (workspace : Workspace) : Prop where
  supports : workspace.system.supportsWatch = true
  current : workspace.system.current = current
  told : ∀ tree, workspace.system = .memory tree →
    tree.openWatchers = workspace.watches.map fun watch => (watch.number, watch.path)

/-- What callbacks do to watchers is asking for paths with a property. -/
inductive Asks (P : Path → Prop) : Workspace → Workspace → Prop where
  | aside {a b : Workspace} (system : a.system.SameWatchers b.system)
      (watches : b.watches = a.watches) : Asks P a b
  | request {a b : Workspace} {path : Path} (allowed : P path) (opened : a.watch path = .ok b) :
      Asks P a b
  | trans {a b c : Workspace} (first : Asks P a b) (second : Asks P b c) : Asks P a c

variable {current : Path} {P : Path → Prop} {a b workspace : Workspace}

theorem Tracks.of_same (tracks : a.Tracks current) (system : a.system.SameWatchers b.system)
    (watches : b.watches = a.watches) : b.Tracks current := by
  refine ⟨system.supportsWatch.trans tracks.supports, system.current.trans tracks.current,
    fun tree same => ?_⟩
  obtain ⟨old, same', watchers⟩ := system.watchers tree same
  rw [watches, ← tracks.told old same', Files.MemoryTree.openWatchers, watchers]
  rfl

/-- A request is granted, and its watcher is open in the system too. -/
theorem Tracks.exists_watch (tracks : workspace.Tracks current) (path : Path) :
    ∃ next, workspace.watch path = .ok next ∧ next.Tracks current ∧
      next.places = ask current workspace.places path ∧ next.queue = workspace.queue := by
  have covered : workspace.places.any (·.same path) = workspace.watches.any (·.path.same path) :=
    List.any_map
  unfold watch ask
  rw [covered]
  cases known : workspace.watches.any (·.path.same path) with
  | true => exact ⟨workspace, rfl, tracks, rfl, rfl⟩
  | false =>
    obtain ⟨number, next, opened, -, -⟩ := Build.exists_watch tracks.supports path
    obtain ⟨-, like, -⟩ := Files.System.watch_eq_ok opened
    rw [opened]
    refine ⟨_, rfl, ⟨like.supportsWatch.trans tracks.supports, like.current.trans tracks.current,
      fun tree same => ?_⟩, ?_, rfl⟩
    · cases before : workspace.system with
      | disk old =>
        rw [before] at opened
        cases opened
        cases same
      | memory old =>
        dsimp only at same
        rw [before, same] at opened
        rw [Files.System.openWatchers_watch opened, tracks.told old before, List.map_append]
        rfl
    · rw [places, List.map_append, ← tracks.current]
      rfl

/-- Whatever callbacks do, the compiler knows its watchers, and these come from what was asked. -/
theorem Asks.tracks (asks : Asks P a b) (tracks : a.Tracks current) :
    b.Tracks current ∧ ∃ paths : List Path, (∀ path ∈ paths, P path) ∧
      b.places = paths.foldl (ask current) a.places := by
  induction asks with
  | aside system watches =>
    exact ⟨tracks.of_same system watches, [], by simp, by rw [places, watches]; rfl⟩
  | @request a b path allowed opened =>
    obtain ⟨next, opened', tracks', grown, -⟩ := tracks.exists_watch path
    rw [opened] at opened'
    cases opened'
    exact ⟨tracks', [path], by simpa using allowed, grown⟩
  | trans _ _ ih ih' =>
    obtain ⟨tracks', paths, allowed, grown⟩ := ih tracks
    obtain ⟨tracks', more, allowed', grown'⟩ := ih' tracks'
    refine ⟨tracks', paths ++ more, fun path member => ?_, ?_⟩
    · exact (List.mem_append.mp member).elim (allowed path) (allowed' path)
    · rw [grown', grown, List.foldl_append]

theorem Tracks.watchRoot (tracks : workspace.Tracks current) (path : Path) :
    (workspace.watchRoot path).Tracks current ∧
      (workspace.watchRoot path).places = ask current workspace.places path := by
  obtain ⟨next, opened, tracks', grown, -⟩ := tracks.exists_watch path
  rw [Workspace.watchRoot, opened]
  exact ⟨tracks', grown⟩

/-- When the watchers are closed none is open in the system. -/
theorem Tracks.closeWatches (tracks : workspace.Tracks current) :
    workspace.closeWatches.Tracks current := by
  obtain ⟨like, -⟩ := workspace.system.closeAll_spec (workspace.watches.map (·.number))
  rw [List.foldl_map] at like
  refine ⟨like.supportsWatch.trans tracks.supports, like.current.trans tracks.current,
    fun tree same => ?_⟩
  have closed : (workspace.watches.map (·.number)).foldl Files.System.close workspace.system =
      .memory tree := by
    rw [List.foldl_map]
    exact same
  obtain ⟨old, before, left⟩ := Files.System.openWatchers_closeAll closed
  rw [left, tracks.told old before]
  refine List.filter_eq_nil_iff.mpr fun entry member => ?_
  obtain ⟨watch, known, rfl⟩ := List.mem_map.mp member
  simpa using ⟨watch, known, rfl⟩

/-- A change of a file tells each watcher of it, and queues the file once for each. -/
theorem Tracks.notify (tracks : workspace.Tracks current) {tree : Files.MemoryTree}
    (same : workspace.system = .memory tree) (path : Path) :
    tree.notified path = (workspace.watches.filter
        (·.path.same (path.resolveFrom current))).map (·.number) ∧
      (workspace.notify path (tree.notified path)).queue = workspace.queue ++
        List.replicate (workspace.places.countP (·.same (path.resolveFrom current))) path := by
  have leads : tree.resolve path = path.resolveFrom current := by
    rw [← tracks.current, same]
    rfl
  have told : tree.notified path = (workspace.watches.filter
      (·.path.same (path.resolveFrom current))).map (·.number) := by
    rw [tree.notified_eq, tracks.told tree same, leads, List.filter_map, List.map_map]
    rfl
  refine ⟨told, ?_⟩
  have heard : (tree.notified path).filter (fun number => workspace.watches.any
      (·.number = number)) = tree.notified path := by
    refine List.filter_eq_self.mpr fun number member => ?_
    rw [told] at member
    obtain ⟨watch, known, rfl⟩ := List.mem_map.mp member
    exact List.any_eq_true.mpr ⟨watch, (List.mem_filter.mp known).1, by simp⟩
  unfold Workspace.notify
  dsimp only
  rw [heard, told, List.map_const', List.length_map, places, List.countP_map,
    List.countP_eq_length_filter]
  rfl

end Workspace

/-- What callbacks do to a session where they ask for watchers: they add root files, and ask for
paths with a property. -/
structure Session.Attends (root : Path) (P : Path → Prop) (before after : Session) : Prop where
  grows : before.Grows root (fun _ => True) after
  asks : before.workspace.Asks P after.workspace

variable {root : Path} {P : Path → Prop}

theorem Session.Attends.refl (session : Session) : session.Attends root P session :=
  ⟨.refl _, .aside (.refl _) rfl⟩

instance : Std.Refl (Session.Attends root P) := ⟨.refl⟩

instance : IsTrans Session (Session.Attends root P) :=
  ⟨fun _ _ _ first second => ⟨first.grows.trans second.grows, first.asks.trans second.asks⟩⟩

theorem overlooks_attends (root : Path) (P : Path → Prop) :
    Overlooks (Session.Attends root P) where
  unseen a b roots system watches :=
    ⟨(overlooks_grows root _).unseen a b roots system watches, .aside (system ▸ .refl _) watches⟩
  written session path text :=
    ⟨(overlooks_grows root _).written session path text,
      .aside (session.workspace.system.sameWatchers_write path text) rfl⟩

/-- Callbacks that ask for watchers by the way that the compiler gives them. -/
structure Context.Asking (P : Path → Prop) (context : Context) : Prop where
  watch : ∀ watch, context.watch? = some watch →
    watch = fun path workspace => workspace.watch path
  prepares : context.PreparesIn (Session.Attends context.projectRoot P)
  finishes : context.FinishesIn (Session.Attends context.projectRoot P)

theorem Context.Asking.withRoots {context : Context} (asking : context.Asking P)
    (roots : List Path) : ({ context with roots := roots } : Context).Asking P :=
  ⟨asking.watch, ⟨asking.prepares.generators, asking.prepares.processors⟩,
    ⟨asking.finishes.resultProcessors, asking.finishes.postTransformers⟩⟩

/-- A context may get one more generator of this kind. -/
theorem Context.Asking.withGenerator {context : Context} (asking : context.Asking P)
    {generator : Generator} (attends : ∀ path source,
      Follows (Session.Attends context.projectRoot P)
        (generator context.toScope path source)) :
    ({ context with generators := context.generators ++ [generator] } : Context).Asking P :=
  ⟨asking.watch, asking.prepares.withGenerator attends,
    ⟨asking.finishes.resultProcessors, asking.finishes.postTransformers⟩⟩

/-- Asking for a path is what callbacks may do. -/
theorem Context.Asking.attends_watchFile {context : Context} (asking : context.Asking P)
    {path : Path} (allowed : P path) :
    Follows (Session.Attends root P) (context.toScope.watchFile path) := by
  refine Scope.follows_watchFile fun watch wanted session next opened => ?_
  rw [asking.watch watch wanted] at opened
  exact ⟨⟨Workspace.abides_watch opened, [], by simp, rfl⟩, .request allowed opened⟩

/-- An addon that does no more than this when it is activated, and registers callbacks of this kind
only. -/
def Addon.Asks (P : Path → Prop) (addon : Addon) : Prop :=
  ∀ activation,
    activation.session.Attends activation.context.projectRoot P
      (endState (addon.activate activation)).session ∧
    (activation.context.Asking P → (endState (addon.activate activation)).context.Asking P)

/-- Actions that leave the watchers of the system alone, and bring addons that ask for paths with a
property. -/
def Action.Attends (P : Path → Prop) : Action → Prop
  | edit change => ∀ system, Files.System.SameWatchers system (change system)
  | configure setup => setup.registry.All (Addon.Asks P)
  | _ => True

/-- Seen from an absolute directory, addons only ask for paths that are spelled as the places to
which they lead. -/
def Fixed (current : Path) (P : Path → Prop) : Prop :=
  current.rooted = true ∧ ∀ path, P path → path.resolveFrom current = path

/-- What is kept of watchers, and of the root files for which the compiler asks. -/
def asking (current : Path) (P : Path → Prop) : Regime where
  workspace workspace :=
    workspace.Tracks current ∧ (Fixed current P → Apart workspace.places)
  context _ context := context.Asking P ∧ Spread current context.roots
  addon := Addon.Asks P
  root root := current.rooted = true → root.resolveFrom current = root

section Asking

variable {current : Path}

theorem asking_foldl {places paths : List Path} (allowed : ∀ path ∈ paths, P path)
    (apart : Fixed current P → Apart places) (fixed : Fixed current P) :
    Apart (paths.foldl (ask current) places) :=
  apart_foldl_ask_iff.mpr ⟨apart fixed, fits_of_fixed fun path member =>
    fixed.2 path (allowed path member)⟩

theorem asking_asks {a b : Workspace} (asks : a.Asks P b)
    (kept : (asking current P).workspace a) : (asking current P).workspace b := by
  obtain ⟨tracks, paths, allowed, grown⟩ := asks.tracks kept.1
  exact ⟨tracks, fun fixed => grown ▸ asking_foldl allowed kept.2 fixed⟩

theorem preserves_within_asking {α : Type} {target : String} {context : Context} {step : Step α}
    (follows : context.Asking P → Follows (Session.Attends context.projectRoot P) step) :
    Preserves ((asking current P).Within target context) step := by
  intro session within
  obtain ⟨good, spread⟩ := within.context
  have attends := follows (good.withRoots context.roots) session
  have here : session.workspace.system.current = current := within.workspace.1.current
  have later := attends.grows.spread (here.symm ▸ spread)
  rw [attends.grows.system.current, here] at later
  exact ⟨asking_asks attends.asks within.workspace, good.withRoots _, later⟩

theorem lawful_asking (current : Path) (P : Path → Prop) : (asking current P).Lawful where
  compiled _ _ path force _ session within _ :=
    ⟨preserves_within_asking (fun good =>
      Context.follows_compileFile (overlooks_attends ..) good.prepares path force) session within,
      fun _ _ => trivial, fun _ _ _ => trivial⟩
  finished _ _ progress _ := preserves_within_asking fun good =>
    Context.follows_finish (overlooks_attends ..).disregards good.finishes progress
  roots _ _ _ _ _ := trivial
  rooted _ _ kept root member absolute := kept.2.fixed absolute root member
  resolved _ _ := trivial
  evicted _ _ kept := ⟨⟨kept.1.of_same (.refl _) rfl, kept.2⟩, trivial⟩
  watched workspace path isRoot kept := by
    obtain ⟨tracks, grown⟩ := kept.1.watchRoot path
    refine ⟨tracks, fun fixed => grown ▸ apart_ask_iff.mpr ⟨kept.2 fixed, fun known => ?_⟩⟩
    rwa [isRoot fixed.1] at known
  told _ _ _ kept := ⟨kept.1.of_same (.refl _) rfl, kept.2⟩

theorem lasting_asking (current : Path) (P : Path → Prop) : (asking current P).Lasting where
  toLawful := lawful_asking current P
  bare setup workspace target roots kept found := by
    refine ⟨⟨fun watch wanted => (Setup.watch?_scope wanted).2, Context.preparesIn_bare ..,
      Context.finishesIn_bare ..⟩, ⟨Project.apart_rootFiles found, fun file member => ?_⟩⟩
    rw [← kept.1.current]
    exact Project.resolved_of_mem_rootFiles found file member
  activated addon asks target activation := by
    rintro ⟨kept, good, spread⟩
    obtain ⟨attends, asking⟩ := asks activation
    have here : activation.workspace.system.current = current := kept.1.current
    have later := attends.grows.spread (here.symm ▸ spread)
    rw [attends.grows.system.current] at later
    exact ⟨asking_asks attends.asks kept, asking good, here ▸ later⟩
  closed workspace kept := ⟨kept.1.closeWatches, fun _ => .nil⟩
  cleared _ kept := ⟨kept.1.of_same (.refl _) rfl, kept.2⟩
  shown := trivial

end Asking

/-- A request for a watcher: for a root file, or by a callback for any file. -/
inductive Request where
  | root (path : Path)
  | file (path : Path)

namespace Request

def path : Request → Path
  | .root path | .file path => path

/-- The session behind a request. -/
def run (scope : Scope) (session : Session) : Request → Session
  | .root path => { session with workspace := session.workspace.watchRoot path }
  | .file path => endState (scope.watchFile path session)

end Request

/-- In a build that watches, a request is granted to the compiler and to callbacks alike. -/
theorem Workspace.Tracks.request {current : Path} {scope : Scope} {session : Session}
    (wired : scope.watch? = some fun path workspace => workspace.watch path)
    (tracks : session.workspace.Tracks current) (request : Request) :
    (request.run scope session).workspace.Tracks current ∧
      (request.run scope session).workspace.places =
        ask current session.workspace.places request.path := by
  cases request with
  | root path => exact tracks.watchRoot path
  | file path =>
    obtain ⟨next, opened, tracks', grown, -⟩ := tracks.exists_watch path
    have granted : scope.watchFile path session =
        .ok () { session with workspace := next } := by
      unfold Scope.watchFile
      rw [wired]
      dsimp only
      rw [run_bind_ok (Step.run_workspace session), opened]
      rfl
    rw [Request.run, granted]
    exact ⟨tracks', grown⟩

theorem Workspace.Tracks.requests {current : Path} {scope : Scope} (session : Session)
    (wired : scope.watch? = some fun path workspace => workspace.watch path)
    (tracks : session.workspace.Tracks current) (requests : List Request) :
    (requests.foldl (Request.run scope) session).workspace.Tracks current ∧
      (requests.foldl (Request.run scope) session).workspace.places =
        (requests.map Request.path).foldl (ask current) session.workspace.places := by
  induction requests generalizing session with
  | nil => exact ⟨tracks, rfl⟩
  | cons request requests ih =>
    obtain ⟨tracks', grown⟩ := tracks.request wired request
    rw [List.map_cons, List.foldl_cons, List.foldl_cons, ← grown]
    exact ih _ tracks'

/-- What is kept of watchers along a life on a system that can watch. -/
theorem Compiler.holds_asking {P : Path → Prop} {system : Files.System}
    (supports : system.supportsWatch = true)
    (fresh : ∀ tree, system = .memory tree → tree.openWatchers = []) {actions : List Action}
    (attends : ∀ action ∈ actions, action.Attends P) :
    (asking system.current P).Holds ((ofSystem system).runAll actions) := by
  have start : (asking system.current P).Holds (ofSystem system) :=
    ⟨⟨⟨supports, rfl, fresh⟩, fun _ => .nil⟩, by simp [ofSystem, context?], by simp [ofSystem]⟩
  refine (Regime.lives_history (lasting_asking system.current P) (fun action member => ?_) start
    fun _ _ => trivial).1
  have allowed := attends action member
  cases action with
  | edit change =>
    exact fun workspace kept => ⟨kept.1.of_same (allowed workspace.system) rfl, kept.2⟩
  | configure setup => exact allowed
  | _ => trivial

/-- For every compiler that lives on a system that can watch, and behind any requests of the
compiler and of callbacks: what is watched comes from one request after the other, and no file has
two watchers just where none had before and each request for a file that is watched already is
spelled as a watched place. This holds along the whole life where addons only ask for paths that are
spelled so. Every open watcher of a changed file is told of the change, once, and none is open
behind the closing of all. -/
theorem watched_once_iff {P : Path → Prop} {system : Files.System}
    (supports : system.supportsWatch = true)
    (fresh : ∀ tree, system = .memory tree → tree.openWatchers = []) {actions : List Action}
    (attends : ∀ action ∈ actions, action.Attends P) {scope : Scope}
    (wired : scope.watch? = some fun path workspace => workspace.watch path) (roots : List Path)
    (requests : List Request) :
    let current := system.current
    let workspace := ((Compiler.ofSystem system).runAll actions).workspace
    let later := (requests.foldl (Request.run scope) ⟨workspace, roots⟩).workspace
    later.places = (requests.map Request.path).foldl (ask current) workspace.places ∧
      (Apart later.places ↔
        Apart workspace.places ∧ Fits current workspace.places (requests.map Request.path)) ∧
      (Fixed current P → Apart workspace.places) ∧
      (Apart later.places ↔ ∀ path, later.places.countP (·.same path) ≤ 1) ∧
      (Apart later.places →
        later.watches.length = (distinct Path.same later.places).length) ∧
      (∀ tree, later.system = .memory tree → ∀ path,
        tree.notified path = (later.watches.filter
            (·.path.same (path.resolveFrom current))).map (·.number) ∧
          (later.notify path (tree.notified path)).queue = later.queue ++
            List.replicate (later.places.countP (·.same (path.resolveFrom current))) path) ∧
      ∀ tree, later.closeWatches.system = .memory tree → tree.activeCount = 0 := by
  intro current workspace later
  have kept := (Compiler.holds_asking supports fresh attends).workspace
  obtain ⟨tracks, grown⟩ :=
    Workspace.Tracks.requests ⟨workspace, roots⟩ wired kept.1 requests
  refine ⟨grown, ?_, kept.2, apart_iff_countP_le_one, fun apart => ?_,
    fun tree same path => tracks.notify same path, fun tree same => ?_⟩
  · rw [← apart_foldl_ask_iff, ← grown]
  · rw [distinct_of_pairwise apart, Workspace.places, List.length_map]
  · rw [tree.activeCount_eq, tracks.closeWatches.told tree same]
    rfl

section Asking

def scriptPath : Path := ⟨true, ["a.ts"]⟩

/-- A path that is not spelled as the place to which it leads. -/
def sheetPath : Path := ⟨false, ["s.css"]⟩

/-- An addon that asks for one file whenever a file is compiled. -/
def askingAddon : Addon where
  name := "asking"
  activate := Activation.registerGenerator fun scope _ _ => scope.watchFile sheetPath

def askingSetup : Setup where
  projectRoot := ⟨true, []⟩
  project := { files := [scriptPath] }
  transpileOnly := true
  watch := true
  registry :=
    { explicit := [], project? := none, resolve := fun _ _ _ => .error .notConfigured,
      entries := [("asking", .loaded askingAddon)] }

def askingSystem : Files.System :=
  .memory ((Files.MemoryTree.new ⟨true, []⟩ true).write scriptPath "let a = 1;")

/-- The file is compiled when watching begins, and once more. -/
def askingActions : List Action :=
  [.configure askingSetup, .watch, .fileChanged scriptPath]

private theorem asks_askingAddon : askingAddon.Asks fun _ => True := fun _ =>
  ⟨.refl _, fun asking => asking.withGenerator fun _ _ => asking.attends_watchFile trivial⟩

/-- A file that is asked for again, in a spelling that is not that of its place, is watched twice
and told of twice. -/
theorem sheet_watched_twice :
    let workspace := ((Compiler.ofSystem askingSystem).runAll askingActions).workspace
    workspace.places = [⟨true, ["s.css"]⟩, ⟨true, ["a.ts"]⟩, ⟨true, ["s.css"]⟩] ∧
      ¬ Apart workspace.places ∧
      ∀ tree, workspace.system = .memory tree →
        (workspace.notify sheetPath (tree.notified sheetPath)).queue =
          workspace.queue ++ [sheetPath, sheetPath] := by
  intro workspace
  have places : workspace.places =
      [⟨true, ["s.css"]⟩, ⟨true, ["a.ts"]⟩, ⟨true, ["s.css"]⟩] := by decide +kernel
  have attends : ∀ action ∈ askingActions, action.Attends fun _ => True := by
    simp only [askingActions, List.mem_cons, List.not_mem_nil, or_false, forall_eq_or_imp,
      forall_eq]
    exact ⟨Registry.All.of_only asks_askingAddon rfl fun _ _ _ _ => nofun, trivial, trivial⟩
  have supports : askingSystem.supportsWatch = true := rfl
  have fresh : ∀ tree, askingSystem = .memory tree → tree.openWatchers = [] := by
    rintro tree ⟨⟩
    rfl
  have wired : (askingSetup.scope askingSystem "*").watch? =
      some fun path workspace => workspace.watch path := rfl
  obtain ⟨_, _, _, once, _, told, _⟩ := watched_once_iff supports fresh attends wired [] []
  refine ⟨places, fun apart => ?_, fun tree same => ?_⟩
  · have count := once.mp apart ⟨true, ["s.css"]⟩
    change workspace.places.countP _ ≤ 1 at count
    rw [places] at count
    exact absurd count (by decide)
  · refine (told tree same sheetPath).2.trans (congrArg _ ?_)
    change List.replicate (workspace.places.countP _) sheetPath = _
    rw [places]
    rfl

end Asking

end Recast.Build
