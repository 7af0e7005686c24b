import Recast.Proofs.Build.Activating
import Recast.Proofs.Build.Counting
import Recast.Proofs.Build.Covering
import Recast.Proofs.Build.Rooted

/-! # How often a change compiles a file

When a change is handled, the targets that write take turns. A turn compiles what the change
affects, as far as it exists, and then the root files that were added meanwhile (`Turn.Compiles`).
What a change affects is told by resolvers. Each path that they tell of is taken once, as it is
spelled, and only then resolved, and it need not be a root file. So a turn may compile a file twice:
if it is told of in two spellings, or if it is told of before it is added as a root file. It does so
in no other case (`compiled_once_iff`).
-/

namespace Recast.Build

open Recast.Emit

section Sessions

variable {context : Context} {session : Session}

/-- Files that are refreshed are compiled in order, as far as they exist. -/
theorem Compiler.compiledPaths_refreshEvents_sublist (context : Context) (files : List Path)
    (session : Session) : (compiledPaths (refreshEvents context files session)).Sublist files := by
  induction files generalizing session with
  | nil => exact .slnil
  | cons path files ih =>
    have others : (compiledPaths (eventsBehind (refresh context {} path session) fun _ =>
        refreshEvents context files)).Sublist files := by
      cases refresh context {} path session with
      | ok progress next => exact ih next
      | error failure next => exact List.nil_sublist _
    rw [refreshEvents, compiledPaths_append]
    split
    · exact others.cons_cons path
    · exact others.cons path

/-- Files that are all refreshed, and found to exist, are all compiled. -/
theorem Compiler.compiledPaths_refreshEvents_eq {files : List Path}
    {progress last : Context.Progress} {later : Session}
    (ran : files.foldlM (refresh context) progress session = .ok last later)
    (found : ∀ key, .evicted key ∉ refreshEvents context files session) :
    compiledPaths (refreshEvents context files session) = files := by
  induction files generalizing progress session with
  | nil => rfl
  | cons path files ih =>
    rw [List.foldlM_cons] at ran
    obtain ⟨middle, next, refreshed, rest⟩ := exists_of_bind_eq_ok ran
    have same : eventsBehind (refresh context progress path session)
        (fun _ => refreshEvents context files) =
          eventsBehind (refresh context {} path session) fun _ => refreshEvents context files :=
      eventsBehind_refresh ..
    rw [refreshed] at same
    have events : refreshEvents context (path :: files) session =
        (if session.workspace.system.fileExists path then
          [.compiled ⟨context, path, true, session⟩]
          else [.evicted ⟨path, context.target⟩]) ++ refreshEvents context files next :=
      congrArg (_ ++ ·) same.symm
    rw [events] at found ⊢
    have others := ih rest fun key member => found key (List.mem_append_right _ member)
    split at found
    · next stands =>
      rw [if_pos stands, compiledPaths_append, others]
      rfl
    · exact absurd (List.mem_append_left _ (List.mem_singleton.mpr rfl)) (found _)

theorem Context.follows_compileRootsFrom {R : Session → Session → Prop} [Std.Refl R]
    [IsTrans Session R] (context : Context) {compileRoot : Path → Step Emission}
    (each : ∀ path, Follows R (compileRoot path)) (fuel index : Nat) (progress : Progress) :
    Follows R (context.compileRootsFrom compileRoot fuel index progress) := by
  induction fuel generalizing index progress with
  | zero =>
    unfold compileRootsFrom
    refine Follows.bind (fun session => refl session) fun session => ?_
    split
    · exact .pure _
    · exact fun session => refl session
  | succ fuel ih =>
    unfold compileRootsFrom
    refine Follows.bind (fun session => refl session) fun session => ?_
    split
    · exact .pure _
    · exact (each _).bind fun emission => ih (index + 1) _

/-- Root files are compiled in their order, from an index on and those that are added meanwhile
too. -/
theorem Context.compiledPaths_rootEvents_isPrefix {root : Path} {P : Path → Prop}
    {compileRoot : Path → Step Emission} {force : Bool}
    (grows : ∀ path, Follows (Session.Grows root P) (compileRoot path)) (fuel index : Nat)
    (progress : Progress) (session : Session) :
    compiledPaths (context.rootEvents compileRoot force fuel index session) <+:
      (endState (context.compileRootsFrom compileRoot fuel index progress session)).roots.drop
        index := by
  induction fuel generalizing index progress session with
  | zero =>
    rw [rootEvents_zero]
    exact List.nil_prefix
  | succ fuel ih =>
    cases found : session.roots[index]? with
    | none =>
      rw [rootEvents_of_end found]
      exact List.nil_prefix
    | some path =>
      have whole := (context.follows_compileRootsFrom grows (fuel + 1) index progress
        session).isPrefix
      rw [run_compileRootsFrom_succ found] at whole ⊢
      -- A root file keeps its place, for others are only added behind it.
      obtain ⟨inside, here⟩ := List.getElem?_eq_some_iff.mp found
      have still := (whole.getElem inside).symm.trans here
      rw [rootEvents_succ found, compiledPaths_compiled,
        List.drop_eq_getElem_cons (inside.trans_le whole.length_le), still,
        List.cons_prefix_cons]
      refine ⟨rfl, ?_⟩
      rw [run_bind]
      cases compiled : compileRoot path session with
      | error failure next => exact List.nil_prefix
      | ok emission next => exact ih (index + 1) (progress.add path emission) next

namespace Compiler

private theorem append_isPrefix {front back whole : List Path} (before : front <+: whole)
    (behind : back <+: whole.drop front.length) : front ++ back <+: whole := by
  obtain ⟨rest, rfl⟩ := before
  rw [List.drop_left] at behind
  exact (List.prefix_append_right_inj front).mpr behind

section Growing

variable (growing : context.Growing)
include growing

theorem grows_adopt (path : Path) :
    Follows (Session.Grows context.projectRoot fun _ => True) (adopt context path) := by
  refine (Context.follows_compileFile (overlooks_grows ..) growing.prepares path true).bind
    fun emission => Follows.bind (fun session => ?_) fun _ => .pure _
  refine ⟨?_, [], by simp, rfl⟩
  change session.workspace.system.Abides (if _ then _ else _ : Workspace).system
  split
  · exact Workspace.abides_watchRoot _ path
  · exact .refl _

theorem grows_refresh (progress : Context.Progress) (path : Path) :
    Follows (Session.Grows context.projectRoot fun _ => True)
      (refresh context progress path) := by
  have overlooks := overlooks_grows context.projectRoot fun _ => True
  refine Follows.bind overlooks.disregards.workspace fun workspace => ?_
  split
  · exact (Context.follows_compileFile overlooks growing.prepares path true).bind
      fun _ => .pure _
  · exact Follows.bind (overlooks.modifyCache _) fun _ => .pure _

/-- Behind the files that are refreshed come root files that were added since then. -/
theorem exists_adopted (limit : Nat) (files : List Path) (session : Session) :
    ∃ adopted, compiledPaths (refreshAllEvents context limit files session) =
        compiledPaths (refreshEvents context files session) ++ adopted ∧
      session.roots ++ adopted <+: (endState (refreshAll context limit files session)).roots := by
  have refreshes : Follows (Session.Grows context.projectRoot fun _ => True)
      (files.foldlM (refresh context) {}) :=
    .foldlM (fun progress path _ => grows_refresh growing progress path) {}
  have first := (refreshes session).isPrefix
  let known := session.roots.length
  have ran : refreshAll context limit files session =
      (files.foldlM (refresh context) {} >>= fun progress => get >>= fun later : Session =>
        context.compileRootsFrom (adopt context) (later.roots.length - known + limit) known
          progress >>= context.finish) session := rfl
  rw [ran, run_bind, refreshAllEvents, compiledPaths_append]
  cases refreshed : files.foldlM (refresh context) {} session with
  | error failure middle =>
    rw [refreshed] at first
    refine ⟨[], rfl, ?_⟩
    rw [List.append_nil]
    exact first
  | ok progress middle =>
    rw [refreshed] at first
    let fuel := middle.roots.length - known + limit
    let swept := context.compileRootsFrom (adopt context) fuel known progress
    have compiled : compiledPaths (context.rootEvents (adopt context) true fuel known middle) <+:
        (endState (swept middle)).roots.drop known :=
      Context.compiledPaths_rootEvents_isPrefix (grows_adopt growing) fuel known progress middle
    have second := (context.follows_compileRootsFrom (grows_adopt growing) fuel known progress
      middle).isPrefix
    have finishes (progress : Context.Progress) :=
      Context.follows_finish (overlooks_grows ..).disregards growing.finishes progress
    -- Those that run on results may add root files too, but these are not compiled any more.
    have third : (endState (swept middle)).roots <+:
        (endState ((swept >>= context.finish) middle)).roots := by
      rw [run_bind]
      cases swept middle with
      | ok progress last => exact (finishes progress last).isPrefix
      | error failure last => exact List.prefix_refl _
    exact ⟨_, rfl, (append_isPrefix (first.trans second) compiled).trans third⟩

end Growing

end Compiler

end Sessions

namespace Compiler

/-- The turn of a target when a change is handled: the file that changed, and the compiler that
comes to the target. -/
structure Turn where
  path : Path
  target : String
  compiler : Compiler

namespace Turn

variable (turn : Turn)

/-- The compiler behind a turn, whether it succeeded or failed. -/
def after : Compiler :=
  endState (targetChanged turn.path {} turn.target turn.compiler)

def events : List Event :=
  turn.compiler.targetChangedEvents turn.path turn.target

/-- The root files of the target before its turn. -/
def roots : List Path :=
  turn.compiler.rootsOf turn.target

/-- The files that the change affects, in any spelling in which they are told of. -/
def affected : List Path :=
  ((turn.compiler.context? turn.target).map fun context =>
    Compiler.affected context turn.compiler.workspace turn.path).getD []

/-- The files that a turn compiles, one after the other. -/
def compiled : List Path :=
  compiledPaths turn.events

/-- Those that it compiles because the change affects them. -/
def refreshed : List Path :=
  compiledPaths (turn.compiler.eventsInContext turn.target fun context =>
    refreshEvents context turn.affected)

/-- A turn that succeeds, and finds all affected files. -/
structure FindsAll : Prop where
  succeeds : ∃ result next,
    targetChanged turn.path {} turn.target turn.compiler = .ok result next
  found : ∀ key, .evicted key ∉ turn.events

/-- A turn compiles affected files, all of them if it finds all, and then some that were added as
root files; no two root files are the same. -/
structure Compiles (adopted : List Path) : Prop where
  paths : turn.compiled = turn.refreshed ++ adopted
  refreshed : turn.refreshed.Sublist turn.affected
  all : turn.FindsAll → turn.refreshed = turn.affected
  stands : turn.roots ++ adopted <+: turn.after.rootsOf turn.target
  apart : Apart (turn.after.rootsOf turn.target)

end Turn

/-- The turns of targets, one after the other up to the first failure. -/
def turnsFrom (path : Path) : List String → Compiler → List Turn
  | [], _ => []
  | target :: targets, compiler =>
    ⟨path, target, compiler⟩ :: match targetChanged path {} target compiler with
      | .ok _ next => turnsFrom path targets next
      | .error _ _ => []

/-- The turns in which a change is handled. -/
def turns (path : Path) (compiler : Compiler) : List Turn :=
  let path := compiler.workspace.system.resolve path
  match status ("File change detected: " ++ path.toString ++
      ". Starting incremental compilation...") compiler with
  | .ok _ started =>
    match writingTargets started with
    | .ok targets _ => turnsFrom path targets started
    | .error _ _ => []
  | .error _ _ => []

section Turns

variable {compiler next : Compiler} {path : Path} {targets : List String}

theorem targetsChangedEvents_eq (path : Path) (targets : List String) (compiler : Compiler) :
    targetsChangedEvents path targets compiler =
      (turnsFrom path targets compiler).flatMap Turn.events := by
  induction targets generalizing compiler with
  | nil => rfl
  | cons target targets ih =>
    rw [targetsChangedEvents, turnsFrom, List.flatMap_cons]
    refine congrArg (compiler.targetChangedEvents path target ++ ·) ?_
    cases targetChanged path {} target compiler with
    | ok result next => exact ih next
    | error failure next => rfl

/-- What holds before a change and survives turns holds before each of them. -/
theorem forall_mem_turnsFrom {P : Compiler → Prop}
    (kept : ∀ target, Preserves P (targetChanged path {} target)) (holds : P compiler) :
    ∀ turn ∈ turnsFrom path targets compiler, P turn.compiler := by
  induction targets generalizing compiler with
  | nil => exact fun _ member => absurd member List.not_mem_nil
  | cons target targets ih =>
    intro turn member
    rcases List.mem_cons.mp member with rfl | later
    · exact holds
    · have last := kept target compiler holds
      cases ran : targetChanged path {} target compiler with
      | ok result next =>
        rw [ran] at later last
        exact ih last turn later
      | error failure next =>
        rw [ran] at later
        cases later

theorem map_target_turnsFrom_isPrefix (path : Path) (targets : List String) (compiler : Compiler) :
    (turnsFrom path targets compiler).map Turn.target <+: targets := by
  induction targets generalizing compiler with
  | nil => exact List.nil_prefix
  | cons target targets ih =>
    rw [turnsFrom, List.map_cons, List.cons_prefix_cons]
    refine ⟨rfl, ?_⟩
    cases targetChanged path {} target compiler with
    | ok result next => exact ih next
    | error failure next => exact List.nil_prefix

/-- The targets that write are taken once each. -/
theorem nodup_of_writingTargets (ran : writingTargets compiler = .ok targets next) :
    targets.Nodup := by
  obtain ⟨setup, started, _, filtered⟩ := exists_of_bind_eq_ok ran
  have each (target : String) : Moves (· = started) Eq
      (· = (started.context? target).any (·.writesFiles))
      (context target >>= fun context => pure context.writesFiles) := by
    refine Moves.bind (A := fun context => started.context? target = some context) ?_
      fun context known => .pure (by rw [known]; rfl)
    rintro compiler context next rfl found
    obtain ⟨known, rfl⟩ := context_eq_ok_iff.mp found
    exact ⟨rfl, rfl, known⟩
  obtain ⟨_, _, same⟩ :=
    Moves.filterM (fun target _ => each target) started targets next rfl filtered
  rw [same]
  exact (nodup_activeTargets setup).filter _

/-- A change is told, and then handled in turns. -/
theorem exists_turns (path : Path) (compiler : Compiler) :
    ∃ reports, let resolved := compiler.workspace.system.resolve path
      let started : Compiler :=
        { compiler with workspace := { compiler.workspace with reports := reports } }
      compiler.turns path = [] ∧ compiler.fileChangedEvents path = [] ∨
        ∃ targets, targets.Nodup ∧ compiler.turns path = turnsFrom resolved targets started ∧
          compiler.fileChangedEvents path = targetsChangedEvents resolved targets started := by
  let resolved := compiler.workspace.system.resolve path
  obtain ⟨reports, told⟩ := run_status ("File change detected: " ++ resolved.toString ++
    ". Starting incremental compilation...") compiler
  refine ⟨reports, ?_⟩
  intro resolved started
  unfold turns fileChangedEvents
  dsimp only
  rw [told]
  dsimp only [eventsBehind]
  cases listed : writingTargets started with
  | error failure next => exact .inl ⟨rfl, rfl⟩
  | ok targets next =>
    obtain rfl := eq_of_writingTargets listed
    exact .inr ⟨targets, nodup_of_writingTargets listed, rfl, rfl⟩

/-- The events of a change are those of its turns. -/
theorem fileChangedEvents_eq (path : Path) (compiler : Compiler) :
    compiler.fileChangedEvents path = (compiler.turns path).flatMap Turn.events := by
  obtain ⟨reports, ⟨none, nothing⟩ | ⟨targets, _, taken, happened⟩⟩ := compiler.exists_turns path
  · rw [none, nothing]
    rfl
  · rw [taken, happened, targetsChangedEvents_eq]

/-- No target has two turns. -/
theorem nodup_map_target_turns (path : Path) (compiler : Compiler) :
    ((compiler.turns path).map Turn.target).Nodup := by
  obtain ⟨reports, ⟨none, _⟩ | ⟨targets, once, taken, _⟩⟩ := compiler.exists_turns path
  · rw [none]
    exact List.nodup_nil
  · rw [taken]
    exact once.sublist (map_target_turnsFrom_isPrefix _ _ _).sublist

/-- What holds before a change, whatever was reported, and survives turns holds before each of
them. -/
theorem forall_mem_turns {P : Compiler → Prop}
    (told : ∀ compiler reports, P compiler →
      P { compiler with workspace := { compiler.workspace with reports := reports } })
    (kept : ∀ path target, Preserves P (targetChanged path {} target)) (holds : P compiler) :
    ∀ turn ∈ compiler.turns path, P turn.compiler := by
  obtain ⟨reports, ⟨none, _⟩ | ⟨targets, _, taken, _⟩⟩ := compiler.exists_turns path
  · rw [none]
    exact fun _ member => absurd member List.not_mem_nil
  · rw [taken]
    exact forall_mem_turnsFrom (kept _) (told compiler reports holds)

end Turns

namespace Turn

variable {turn : Turn} {adopted : List Path}

/-- A turn that affects nothing does nothing. -/
theorem of_idle (idle : turn.affected = []) :
    turn.events = [] ∧ turn.after = turn.compiler := by
  unfold events after targetChangedEvents eventsInContext
  rw [run_targetChanged]
  cases known : turn.compiler.context? turn.target with
  | none => exact ⟨rfl, rfl⟩
  | some context =>
    rw [affected, known] at idle
    have none := List.isEmpty_iff.mpr idle
    exact ⟨if_pos none, congrArg endState (if_pos none)⟩

theorem refreshed_sublist : turn.refreshed.Sublist turn.affected := by
  unfold refreshed eventsInContext
  cases turn.compiler.context? turn.target with
  | none => exact List.nil_sublist _
  | some context => exact compiledPaths_refreshEvents_sublist ..

section Known

variable {context : Context} (known : turn.compiler.context? turn.target = some context)
include known

theorem affected_eq :
    turn.affected = Compiler.affected context turn.compiler.workspace turn.path := by
  rw [affected, known]
  rfl

theorem refreshed_eq :
    turn.refreshed = compiledPaths (refreshEvents context turn.affected
      ⟨turn.compiler.workspace, context.roots⟩) := by
  rw [refreshed, eventsInContext, known]

theorem roots_eq : turn.roots = context.roots := by
  rw [roots, rootsOf, known]
  rfl

variable (busy : turn.affected ≠ [])
include busy

/-- A turn that affects something refreshes it in the context of the target. -/
theorem events_of_busy :
    turn.events = refreshAllEvents context turn.compiler.rootLimit turn.affected
      ⟨turn.compiler.workspace, context.roots⟩ := by
  rw [affected_eq known] at busy ⊢
  rw [events, targetChangedEvents, eventsInContext, known]
  exact if_neg fun idle => busy (List.isEmpty_iff.mp idle)

theorem run_of_busy :
    targetChanged turn.path {} turn.target turn.compiler =
      match refreshAll context turn.compiler.rootLimit turn.affected
        ⟨turn.compiler.workspace, context.roots⟩ with
      | .ok pass session =>
        .ok (({} : PassResult).merge pass) (turn.compiler.absorb turn.target session)
      | .error failure session =>
        .error failure (turn.compiler.absorb turn.target session) := by
  rw [affected_eq known] at busy ⊢
  rw [run_targetChanged, known]
  dsimp only
  rw [if_neg fun idle => busy (List.isEmpty_iff.mp idle), run_bind, run_inContext, known]
  dsimp only
  cases refreshAll context turn.compiler.rootLimit
    (Compiler.affected context turn.compiler.workspace turn.path)
    ⟨turn.compiler.workspace, context.roots⟩ <;> rfl

/-- The root files of the target behind such a turn. -/
theorem rootsOf_after_of_busy :
    turn.after.rootsOf turn.target =
      (endState (refreshAll context turn.compiler.rootLimit turn.affected
        ⟨turn.compiler.workspace, context.roots⟩)).roots := by
  rw [after, run_of_busy known busy]
  cases refreshAll context turn.compiler.rootLimit turn.affected
    ⟨turn.compiler.workspace, context.roots⟩ <;>
    exact (rootsOf_absorb known _ turn.target).trans (if_pos rfl)

/-- If it succeeds, it has refreshed all files that it affects. -/
theorem exists_refreshed_of_busy {result : PassResult} {next : Compiler}
    (ran : targetChanged turn.path {} turn.target turn.compiler = .ok result next) :
    ∃ progress middle, turn.affected.foldlM (refresh context) {}
      ⟨turn.compiler.workspace, context.roots⟩ = .ok progress middle := by
  rw [run_of_busy known busy] at ran
  split at ran
  · next pass session passed =>
    obtain ⟨_, _, read, rest⟩ := exists_of_bind_eq_ok passed
    cases read
    obtain ⟨progress, middle, refreshed, _⟩ := exists_of_bind_eq_ok rest
    exact ⟨progress, middle, refreshed⟩
  · cases ran

end Known

theorem exists_context_of_busy (busy : turn.affected ≠ []) :
    ∃ context, turn.compiler.context? turn.target = some context := by
  refine Option.isSome_iff_exists.mp (Option.isSome_iff_ne_none.mpr fun none => busy ?_)
  rw [affected, none]
  rfl

theorem refreshed_of_findsAll (finds : turn.FindsAll) : turn.refreshed = turn.affected := by
  obtain ⟨⟨result, next, ran⟩, found⟩ := finds
  by_cases idle : turn.affected = []
  · have sublist := turn.refreshed_sublist
    rw [idle] at sublist ⊢
    exact List.sublist_nil.mp sublist
  · obtain ⟨context, known⟩ := exists_context_of_busy idle
    obtain ⟨progress, middle, refreshed⟩ := exists_refreshed_of_busy known idle ran
    rw [events_of_busy known idle] at found
    rw [refreshed_eq known]
    exact compiledPaths_refreshEvents_eq refreshed fun key member =>
      found key (List.mem_append_left _ member)

/-- Where callbacks only add root files, no two root files are the same behind a turn. -/
theorem apart_rootsOf_after {current : Path}
    (holds : (growing current fun _ _ => True).Holds turn.compiler) :
    Apart (turn.after.rootsOf turn.target) := by
  have later : (growing current fun _ _ => True).Holds turn.after :=
    (Regime.lives_targetChanged (lasting_growing current).toLawful trivial {} turn.target
      turn.compiler holds fun _ _ => trivial).1
  unfold rootsOf
  cases known : turn.after.context? turn.target with
  | none => exact .nil
  | some context => exact (later.contexts turn.target context known).2.1.apart

/-- A turn of a compiler whose callbacks only add root files. -/
theorem exists_compiles {current : Path}
    (holds : (growing current fun _ _ => True).Holds turn.compiler) :
    ∃ adopted, turn.Compiles adopted := by
  have sublist := turn.refreshed_sublist
  have apart := apart_rootsOf_after holds
  by_cases idle : turn.affected = []
  · obtain ⟨events, after⟩ := of_idle idle
    refine ⟨[], ?_, sublist, refreshed_of_findsAll, ?_, apart⟩
    · rw [idle, List.sublist_nil] at sublist
      rw [compiled, events, sublist]
      rfl
    · rw [List.append_nil]
      exact after.symm ▸ List.prefix_refl turn.roots
  · obtain ⟨context, known⟩ := exists_context_of_busy idle
    obtain ⟨growing, _⟩ := holds.contexts turn.target context known
    obtain ⟨adopted, paths, behind⟩ := exists_adopted growing turn.compiler.rootLimit
      turn.affected ⟨turn.compiler.workspace, context.roots⟩
    refine ⟨adopted, ?_, sublist, refreshed_of_findsAll, ?_, apart⟩
    · rw [compiled, events_of_busy known idle, paths, refreshed_eq known]
    · rw [rootsOf_after_of_busy known idle, roots_eq known]
      exact behind

namespace Compiles

variable (compiles : turn.Compiles adopted)
include compiles

theorem apart_roots : Apart (turn.roots ++ adopted) :=
  compiles.apart.sublist compiles.stands.sublist

/-- A file is compiled twice only if it is affected in two spellings, or affected and added. -/
theorem apart_compiled_iff :
    Apart turn.compiled ↔
      Apart turn.refreshed ∧ ∀ file ∈ turn.refreshed, ∀ root ∈ adopted, root.same file = false := by
  rw [compiles.paths, Apart, List.pairwise_append]
  have fresh := (List.pairwise_append.mp compiles.apart_roots).2.1
  exact ⟨fun ⟨told, _, others⟩ => ⟨told, others⟩, fun ⟨told, others⟩ => ⟨told, fresh, others⟩⟩

/-- Root files that are affected in one spelling are compiled once. -/
theorem apart_of_roots (told : Apart turn.affected)
    (known : ∀ file ∈ turn.affected, ∃ root ∈ turn.roots, root.same file = true) :
    Apart turn.compiled := by
  refine compiles.apart_compiled_iff.mpr ⟨told.sublist compiles.refreshed, ?_⟩
  intro file member root new
  obtain ⟨old, stood, same⟩ := known file (compiles.refreshed.subset member)
  have apart := (List.pairwise_append.mp compiles.apart_roots).2.2 old stood root new
  rw [Bool.eq_false_iff] at apart ⊢
  exact fun alike => apart (Path.same_trans alike (Path.same_symm same))

/-- A script that changed is compiled once. -/
theorem apart_of_script (script : turn.path.isScript = true) : Apart turn.compiled := by
  cases known : turn.compiler.context? turn.target with
  | none =>
    have nothing : turn.affected = [] := by
      rw [affected, known]
      rfl
    refine compiles.apart_of_roots (nothing ▸ .nil) fun file member => ?_
    rw [nothing] at member
    cases member
  | some context =>
    have affected := affected_eq known
    rw [Compiler.affected, if_pos script] at affected
    split at affected
    · next root =>
      obtain ⟨old, stood, same⟩ := List.any_eq_true.mp root
      refine compiles.apart_of_roots ?_ fun file member => ⟨old, ?_, ?_⟩
      · rw [affected]
        exact List.pairwise_singleton ..
      · rw [roots_eq known]
        exact stood
      · rw [affected] at member
        exact List.mem_singleton.mp member ▸ same
    · refine compiles.apart_of_roots (affected ▸ .nil) fun file member => ?_
      rw [affected] at member
      cases member

end Compiles

/-- In a turn the version of a key grows by no more than the number of compilations of its file. -/
theorem version_after_le (keeps : turn.compiler.KeepsCache) (key : CacheKey) :
    (turn.after.cache.get key.path key.target).version ≤
      (turn.compiler.cache.get key.path key.target).version +
        turn.compiled.countP (key.path.same ·) := by
  have evolves := accounts_targetChanged keeping_keepsCache turn.path {} turn.target
    turn.compiler keeps
  exact (evolves.version_le key).trans (Nat.add_le_add_left (countP_compiles_le key _) _)

end Turn

theorem keepsCache_of_mem_turns {compiler : Compiler} {path : Path} (keeps : compiler.KeepsCache)
    {turn : Turn} (member : turn ∈ compiler.turns path) : turn.compiler.KeepsCache :=
  forall_mem_turns (P := Compiler.KeepsCache) (fun _ _ keeps => keeps.of_eq rfl rfl)
    (fun path target => keeping_keepsCache.sturdy.preserves_targetChanged path {} target) keeps
    turn member

/-- How often a change compiles a file, whatever a compiler has lived through with addons that only
add root files, and whatever resolvers tell. The change is handled in turns of targets, and its
result has the outputs of all that they compile, in order. A turn compiles some of the files that
the change affects, in their order, and then root files that were added meanwhile. So all of these
are different exactly if no affected file is compiled in two spellings, and none is compiled and
then added. That is so if the affected files are different root files, and for a script that
changed. Where addons leave the cache alone, the version of a file grows in a turn by no more than
the number of its compilations there. -/
theorem compiled_once_iff {system : Files.System} (sorted : system.Sorted) (limit : Nat)
    {actions : List Action} (tends : ∀ action ∈ actions, action.Tends) (path : Path) :
    let compiler := ({ ofSystem system with rootLimit := limit } : Compiler).runAll actions
    let turns := compiler.turns path
    compiler.fileChangedEvents path = turns.flatMap Turn.events ∧
    (turns.map Turn.target).Nodup ∧
    (∀ result next, fileChanged path compiler = .ok result next →
      result.files = turns.flatMap fun turn => emitted turn.events) ∧
    ∀ turn ∈ turns,
      (∃ adopted, turn.Compiles adopted ∧ (Apart turn.compiled ↔ Apart turn.refreshed ∧
        ∀ file ∈ turn.refreshed, ∀ root ∈ adopted, root.same file = false)) ∧
      (Apart turn.affected →
        (∀ file ∈ turn.affected, ∃ root ∈ turn.roots, root.same file = true) →
          Apart turn.compiled) ∧
      (turn.path.isScript = true → Apart turn.compiled) ∧
      ((∀ action ∈ actions, action.Brings Addon.KeepsCache) → ∀ key : CacheKey,
        let before := (turn.compiler.cache.get key.path key.target).version
        let after := (turn.after.cache.get key.path key.target).version
        after ≤ before + turn.compiled.countP (key.path.same ·) ∧
          (Apart turn.compiled → after ≤ before + 1)) := by
  intro compiler turns
  have lasting := lasting_growing system.current
  have holds : (growing system.current fun _ _ => True).Holds compiler :=
    (Regime.lives_history lasting (fun action member => (tends action member).allows _)
      ⟨⟨sorted, rfl⟩, fun _ _ known => (by cases known), fun _ same => (by cases same)⟩
      fun _ _ => trivial).1
  have lived : ∀ turn ∈ turns, (growing system.current fun _ _ => True).Holds turn.compiler :=
    forall_mem_turns (fun _ _ holds => holds.withWorkspace holds.workspace)
      (fun _ target compiler holds => (Regime.lives_targetChanged lasting.toLawful trivial {}
        target compiler holds fun _ _ => trivial).1) holds
  have events : compiler.fileChangedEvents path = turns.flatMap Turn.events :=
    fileChangedEvents_eq path compiler
  refine ⟨events, nodup_map_target_turns path compiler, fun result next ran => ?_,
    fun turn member => ?_⟩
  · rw [← emitted_flatMap, ← events]
    exact gathers_fileChanged path compiler result next ran
  · obtain ⟨adopted, compiles⟩ := Turn.exists_compiles (lived turn member)
    refine ⟨⟨adopted, compiles, compiles.apart_compiled_iff⟩, compiles.apart_of_roots,
      compiles.apart_of_script, fun brings key => ?_⟩
    have started : ({ ofSystem system with rootLimit := limit } : Compiler).KeepsCache :=
      ⟨by simp [ofSystem], by simp [ofSystem]⟩
    have keeps := keepsCache_of_mem_turns (Holds.runAll governs_keepsCache brings started) member
    have bound := Turn.version_after_le keeps key
    exact ⟨bound, fun apart => bound.trans
      (Nat.add_le_add_left (apart.countP_same_le_one key.path) _)⟩

section Retelling

def retoldScript : Path := ⟨true, ["p", "a.ts"]⟩

def strayScript : Path := ⟨true, ["p", "g.ts"]⟩

def retellingSheet : Path := ⟨true, ["p", "s.css"]⟩

/-- An addon that adds every file that is compiled as a root file. -/
def joiningAddon : Addon where
  name := "joining"
  activate := Activation.registerGenerator fun scope path _ => discard (scope.addInput path)

/-- On everything depend the one root file, in two spellings, and a file that is none yet. -/
def retellingSetup : Setup where
  projectRoot := ⟨true, ["p"]⟩
  project := { files := [⟨false, ["a.ts"]⟩] }
  transpileOnly := true
  registry :=
    { explicit := [], project? := none, resolve := fun _ _ _ => .error .notConfigured,
      entries := [("joining", .loaded joiningAddon)] }
  dependents? := some fun _ => [⟨false, ["a.ts"]⟩, retoldScript, ⟨false, ["g.ts"]⟩]

def retellingSystem : Files.System :=
  .memory ((((Files.MemoryTree.new ⟨true, []⟩ true).write retoldScript "let a = 1;").write
    strayScript "let g = 1;").write retellingSheet "")

def retellingActions : List Action := [.configure retellingSetup, .watch]

def retellingCompiler : Compiler := (ofSystem retellingSystem).runAll retellingActions

private theorem all_retelling {A : Addon → Prop} (good : A joiningAddon) :
    retellingSetup.registry.All A :=
  .of_only good rfl fun _ _ _ _ => nofun

private theorem grows_joiningAddon : joiningAddon.Grows := fun activation =>
  ⟨.refl activation.session, fun growing =>
    growing.withGenerator fun _ _ => .discard (grows_addInput _ trivial)⟩

private theorem keepsCache_joiningAddon : joiningAddon.KeepsCache where
  cache _ := rfl
  context activation keeps := by
    refine keeps.withGenerator fun path source => leaves_iff_follows.mpr (.discard fun session => ?_)
    rw [Scope.run_addInput]
    dsimp only
    split <;> rfl

/-- A script that is told of in two spellings is compiled twice and its version grows by two, and
one that is told of before it is added is compiled twice as well. -/
theorem compiled_once_iff_retold : ∃ turn,
    retellingCompiler.turns retellingSheet = [turn] ∧
    turn.affected = [retoldScript, retoldScript, strayScript] ∧
    turn.refreshed = turn.affected ∧
    turn.Compiles [strayScript] ∧ ¬Apart turn.compiled ∧
    (∀ result next, fileChanged retellingSheet retellingCompiler = .ok result next →
      result.paths.map (·.segments) =
        [["p", "a.js"], ["p", "a.js"], ["p", "g.js"], ["p", "g.js"]]) ∧
    (turn.after.cache.get retoldScript "*").version ≤
      (turn.compiler.cache.get retoldScript "*").version +
        turn.compiled.countP (retoldScript.same ·) ∧
    (turn.compiler.cache.get retoldScript "*").version = 1 ∧
    (turn.after.cache.get retoldScript "*").version = 3 := by
  have seen : (retellingCompiler.turns retellingSheet).map (fun turn =>
      (turn.affected, turn.refreshed, turn.compiled,
        (emitted turn.events).map (·.name.segments))) =
      [([retoldScript, retoldScript, strayScript], [retoldScript, retoldScript, strayScript],
        [retoldScript, retoldScript, strayScript, strayScript],
        [["p", "a.js"], ["p", "a.js"], ["p", "g.js"], ["p", "g.js"]])] := by
    decide +kernel
  have versions : (retellingCompiler.turns retellingSheet).map (fun turn =>
      ((turn.compiler.cache.get retoldScript "*").version,
        (turn.after.cache.get retoldScript "*").version)) = [(1, 3)] := by
    decide +kernel
  obtain ⟨turn, taken, facts⟩ := List.map_eq_singleton_iff.mp seen
  obtain ⟨affected, facts⟩ := Prod.mk.inj facts
  obtain ⟨refreshed, facts⟩ := Prod.mk.inj facts
  obtain ⟨compiled, outputs⟩ := Prod.mk.inj facts
  rw [taken, List.map_singleton, List.cons.injEq, Prod.mk.injEq] at versions
  have sorted : retellingSystem.Sorted := by
    refine Files.System.Sorted.write_memory (.write_memory (.write_memory ?_ _ _) _ _) _ _
    exact Files.System.sorted_new _ _
  have tends : ∀ action ∈ retellingActions, action.Tends := by
    simpa [retellingActions, Action.Tends] using all_retelling grows_joiningAddon
  have brings : ∀ action ∈ retellingActions, action.Brings Addon.KeepsCache := by
    simpa [retellingActions, Action.Brings] using all_retelling keepsCache_joiningAddon
  obtain ⟨_, _, files, turns⟩ := compiled_once_iff sorted 1000000 tends retellingSheet
  rw [show ({ ofSystem retellingSystem with rootLimit := 1000000 } : Compiler).runAll
    retellingActions = retellingCompiler from rfl, taken] at files turns
  obtain ⟨⟨adopted, compiles, once⟩, _, _, bound⟩ := turns turn (List.mem_singleton.mpr rfl)
  have added : adopted = [strayScript] := by
    have paths := compiles.paths
    rw [compiled, refreshed] at paths
    simpa using paths.symm
  have twice : ¬Apart turn.compiled := fun apart => by
    have told := (once.mp apart).1
    rw [refreshed] at told
    revert told
    decide
  refine ⟨turn, taken, affected, refreshed.trans affected.symm, added ▸ compiles, twice,
    fun result next ran => ?_, (bound brings ⟨retoldScript, "*"⟩).1, versions.1⟩
  rw [PassResult.paths, files result next ran, List.flatMap_singleton, List.map_map]
  exact outputs

end Retelling

end Compiler

end Recast.Build
