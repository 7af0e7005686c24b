import Recast.Proofs.Build.Leftover

/-! # Passes on top of what is left

Two contexts of which the callbacks do the same (`Leftover.Matches`) do the same in a pass, the one
in a workspace with leftovers and the other one in a fresh workspace. A compilation asks the
language service for the text that it has just prepared, and the end of a pass asks for texts that
earlier compilations recorded; so it is enough that what is left tells nothing wrong of the texts
that compilations prepare (`Leftover.Admits`).
-/

namespace Recast.Build

open Recast.Emit Recast.Script

namespace Leftover

variable {left : Leftover}

section Passes

variable {used fresh : Context} (twin : left.Matches used fresh)
include twin

/-- The service is asked through hosts that differ in their transformers only. -/
theorem Matches.host {s t : Session} (states : left.LingersIn s t) :
    used.host s = { fresh.host t with transformers := used.transformers } := by
  unfold Context.host
  rw [twin.scope, states.roots, states.workspace.cache]

theorem Matches.emitChecked {path : Path} (asked : left.asked path) :
    Twins left.LingersIn Eq (used.emitChecked path) (fresh.emitChecked path) := by
  intro s t states
  obtain ⟨emits, knows⟩ := (show left.TwinSets used.transformers (fresh.host t).transformers from
    twin.transformers).emission states.workspace.parsed fun text known =>
      states.workspace.recorded path asked fresh.target text known
  rw [← twin.host states] at emits knows
  unfold Context.emitChecked
  rw [run_bind_ok (used.run_installHost s), run_bind_ok (fresh.run_installHost t)]
  exact twins_journaled emits _ _ ⟨states.roots, states.workspace.withService knows⟩

theorem Matches.emitFile {path : Path} (asked : left.asked path) (text : String) :
    Twins left.LingersIn Eq (used.emitFile path text) (fresh.emitFile path text) := by
  unfold Context.emitFile
  rw [twin.scope]
  split
  · exact twins_journaled (twin.transformers.transpileFile path text _ _)
  · exact twin.emitChecked asked

theorem Matches.settle (path : Path) (emission : Emission) :
    Twins left.LingersIn Eq (used.settle path emission) (fresh.settle path emission) := by
  unfold Context.settle
  rw [twin.scope]
  dsimp only
  split
  · exact (twins_operation (.markFailed ⟨path, fresh.target⟩) fun _ _ _ same =>
      Operation.noConfusion same).bind_same fun _ => .pure rfl
  · refine (twins_operation (.setOutputs ⟨path, fresh.target⟩ emission.files) fun _ _ _ same =>
      Operation.noConfusion same).bind_same fun _ => ?_
    split
    · exact (Twins.forM_same fun file _ => twins_write _ _).bind_same fun _ => .pure rfl
    · exact .pure rfl

theorem Matches.prepare (path : Path) (source : String) :
    Twins left.LingersIn Eq (used.prepare path source) (fresh.prepare path source) := by
  unfold Context.prepare
  rw [twin.scope]
  refine (Twins.forM (twin.generators.imp fun _ _ each => each path source)).bind_same fun _ => ?_
  exact .foldlM (twin.processors.imp fun _ _ each text _ same => same ▸ each path text) rfl

/-- A file is compiled the same, if what is left tells nothing wrong of the text that is made of
it. -/
theorem Matches.recompile {s t : Session} {path : Path} (states : left.LingersIn s t)
    (asked : left.asked path)
    (tells : ∀ source text later, t.workspace.system.read path = .ok source →
      fresh.prepare path source t = .ok text later →
      ∀ other, left.asked other → other.same path = true → left.Tells other text) :
    Even left.LingersIn Eq (used.recompile path s) (fresh.recompile path t) := by
  rw [Context.run_recompile, Context.run_recompile, states.workspace.system]
  cases read : t.workspace.system.read path with
  | error error => exact .ok rfl states
  | ok source =>
    have prepared := twin.prepare path source s t states
    have right := fun text later => tells source text later read
    dsimp only
    rw [Context.compileSource_eq, Context.compileSource_eq, run_bind, run_bind, twin.scope]
    revert prepared right
    generalize used.prepare path source s = result, fresh.prepare path source t = result'
    rintro (⟨rfl, states⟩ | ⟨failure, states⟩) right
    · refine Twins.bind_same (twins_operation (.update ⟨path, fresh.target⟩ source _) ?_)
        (fun _ => ?_) _ _ states
      · rintro _ _ _ ⟨⟩
        exact right _ _ rfl
      · exact (twin.emitFile asked _).bind_same fun emission => twin.settle path emission
    · exact .error failure states

theorem Matches.compileFile (path : Path) (force : Bool) :
    TwinsWhile left.admits left.LingersIn Eq
      (fun session => [.compiled ⟨fresh, path, force, session⟩])
      (used.compileFile path force) (fresh.compileFile path force) := by
  intro s t states admitted
  obtain ⟨asked, suits⟩ := admitted _ (List.mem_singleton_self _)
  have tells (source text : String) (later : Session)
      (read : t.workspace.system.read path = .ok source)
      (made : fresh.prepare path source (Compilation.mk fresh path force t).started =
        .ok text later) :
      ∀ other, left.asked other → other.same path = true → left.Tells other text :=
    suits text (by simp [Compilation.made?, Compilation.content?, read, made, Except.toOption])
  cases force with
  | true =>
    rw [Context.run_compileFile_force, Context.run_compileFile_force, twin.scope]
    have stale := @twins_operation left (.markStale ⟨path, fresh.target⟩) fun _ _ _ same =>
      Operation.noConfusion same
    exact twin.recompile (stale s t states).states asked tells
  | false =>
    rw [Context.run_compileFile, Context.run_compileFile, twin.scope, states.workspace.cache,
      states.workspace.system]
    split
    · exact twin.recompile states asked tells
    · exact .ok rfl states

/-- The same progress, with files for which the service may be asked. -/
def Progresses (left : Leftover) (used fresh : Context.Progress) : Prop :=
  used = fresh ∧ ∀ path ∈ fresh.compiled, left.asked path

omit twin in
theorem Progresses.add {a b : Context.Progress} (progresses : left.Progresses a b) {path : Path}
    (asked : left.asked path) (emission : Emission) :
    left.Progresses (a.add path emission) (b.add path emission) := by
  refine ⟨by rw [progresses.1], fun other member => ?_⟩
  rcases List.mem_append.mp member with known | new
  · exact progresses.2 other known
  · exact List.mem_singleton.mp new ▸ asked

omit twin in
/-- Root files are compiled the same from an index on, as long as each of them is. -/
theorem twins_compileRootsFrom {compileRoot compileRoot' : Path → Step Emission} {force : Bool}
    (target : used.target = fresh.target)
    (each : ∀ path, TwinsWhile left.admits left.LingersIn Eq
      (fun session => [.compiled ⟨fresh, path, force, session⟩])
      (compileRoot path) (compileRoot' path))
    (fuel index : Nat) {a b : Context.Progress} (progresses : left.Progresses a b) :
    TwinsWhile left.admits left.LingersIn left.Progresses
      (fresh.rootEvents compileRoot' force fuel index)
      (used.compileRootsFrom compileRoot fuel index a)
      (fresh.compileRootsFrom compileRoot' fuel index b) := by
  -- Both sessions have the same root files, so both loops end at the same index.
  induction fuel generalizing index a b with
  | zero =>
    intro s t states _
    cases found : t.roots[index]? with
    | none =>
      rw [Context.run_compileRootsFrom_of_end (states.roots ▸ found),
        Context.run_compileRootsFrom_of_end found]
      exact .ok progresses states
    | some path =>
      rw [Context.run_compileRootsFrom_zero (states.roots ▸ found),
        Context.run_compileRootsFrom_zero found, target]
      exact .error _ states
  | succ fuel ih =>
    intro s t states admitted
    cases found : t.roots[index]? with
    | none =>
      rw [Context.run_compileRootsFrom_of_end (states.roots ▸ found),
        Context.run_compileRootsFrom_of_end found]
      exact .ok progresses states
    | some path =>
      rw [Context.rootEvents_succ found] at admitted
      rw [Context.run_compileRootsFrom_succ (states.roots ▸ found),
        Context.run_compileRootsFrom_succ found]
      have asked : left.asked path := (admitted _ (List.mem_cons_self ..)).1
      exact (each path).bind (fun emission _ same => same ▸ ih (index + 1)
        (progresses.add asked emission)) s t states admitted

/-- Two services for hosts that only differ in their transformers. -/
structure Serves (left : Leftover) (host : Host) (set : TransformerSet) (used fresh : Service) :
    Prop where
  here : used.host? = some { host with transformers := set }
  there : fresh.host? = some host
  knows : left.Knows used fresh

section Asking

variable {host : Host} {set : TransformerSet} {s t : Service}

omit twin in
theorem Serves.tree? (serves : left.Serves host set s t) {path : Path}
    (tells : ∀ text, host.text? path = some text → left.Tells path text) :
    (s.tree? path).1 = (t.tree? path).1 ∧
      left.Serves host set (s.tree? path).2 (t.tree? path).2 := by
  unfold Service.tree?
  rw [serves.here, serves.there]
  simp only [Option.bind_some]
  cases known : host.text? path with
  | none => exact ⟨rfl, serves⟩
  | some text =>
    obtain ⟨same, knows⟩ := serves.knows.parse (tells text known)
    exact ⟨congrArg some same, (s.parse_host? path text).trans serves.here,
      (t.parse_host? path text).trans serves.there, knows⟩

omit twin in
/-- Whatever is found in some files, it is found by both. -/
theorem Serves.diagnose (serves : left.Serves host set s t) {files : List Path}
    (tells : ∀ path ∈ files, ∀ text, host.text? path = some text → left.Tells path text)
    {found found' : List Diagnostic} (already : found = found') :
    let find := fun (state : List Diagnostic × Service) path =>
      (state.1 ++ (state.2.syntactic path).1 ++ ((state.2.syntactic path).2.semantic path).1,
        ((state.2.syntactic path).2.semantic path).2)
    (files.foldl find (found, s)).1 = (files.foldl find (found', t)).1 ∧
      left.Serves host set (files.foldl find (found, s)).2 (files.foldl find (found', t)).2 := by
  induction files generalizing found found' s t with
  | nil => exact ⟨already, serves⟩
  | cons path files ih =>
    have here := tells path (List.mem_cons_self ..)
    obtain ⟨first, middle⟩ := serves.tree? here
    obtain ⟨second, later⟩ := middle.tree? here
    have same : found ++ (s.syntactic path).1 ++ ((s.syntactic path).2.semantic path).1 =
        found' ++ (t.syntactic path).1 ++ ((t.syntactic path).2.semantic path).1 := by
      unfold Service.syntactic Service.semantic
      dsimp only
      rw [first, second, already]
    exact ih later (fun other member => tells other (List.mem_cons_of_mem _ member)) same

end Asking

theorem Matches.collectDiagnostics {files : List Path} (asked : ∀ path ∈ files, left.asked path)
    (emitted : List Diagnostic) :
    Twins left.LingersIn Eq (used.collectDiagnostics files emitted)
      (fresh.collectDiagnostics files emitted) := by
  intro s t states
  have serves : left.Serves (fresh.host t) used.transformers
      (s.workspace.service.setHost (used.host s)) (t.workspace.service.setHost (fresh.host t)) :=
    ⟨congrArg some (twin.host states), rfl, states.workspace.parsed⟩
  have faults : (s.workspace.service.setHost (used.host s)).optionFaults =
      (t.workspace.service.setHost (fresh.host t)).optionFaults := by
    unfold Service.optionFaults
    rw [serves.here, serves.there]
  obtain ⟨same, later⟩ := serves.diagnose (fun path member text known =>
    states.workspace.recorded path (asked path member) fresh.target text known) faults
  exact .ok (congrArg (fun found => distinct Diagnostic.same (found ++ emitted)) same)
    ⟨states.roots, states.workspace.withService later.knows⟩

theorem Matches.finish {a b : Context.Progress} (progresses : left.Progresses a b) :
    Twins left.LingersIn Eq (used.finish a) (fresh.finish b) := by
  obtain ⟨rfl, asked⟩ := progresses
  unfold Context.finish
  rw [twin.scope]
  refine Twins.get.bind fun s t states => ?_
  rw [states.roots]
  refine (Twins.forM (twin.resultProcessors.imp fun _ _ each => each _)).bind_same fun _ => ?_
  refine (Twins.forM (twin.postTransformers.imp fun _ _ each => each _)).bind_same fun _ => ?_
  dsimp only
  split
  · refine (twin.collectDiagnostics asked _).bind_same fun diagnostics => ?_
    exact (Twins.forM_same fun diagnostic _ => twins_report diagnostic).bind_same fun _ => .pure rfl
  · exact .pure rfl

/-- A pass of a target does the same on top of what is left. -/
theorem Matches.compileAll (limit : Nat) (force : Bool) :
    TwinsWhile left.admits left.LingersIn Eq
      (fun session => fresh.rootEvents (fresh.compileFile · force) force
        (session.roots.length + limit) 0 session)
      (used.compileAll limit force) (fresh.compileAll limit force) := by
  intro s t states admitted
  unfold Context.compileAll
  rw [run_bind_ok (run_get s), run_bind_ok (run_get t), states.roots]
  have began : left.Progresses {} {} := ⟨rfl, fun _ member => absurd member List.not_mem_nil⟩
  have compiled := twins_compileRootsFrom (congrArg Scope.target twin.scope)
    (twin.compileFile · force) (t.roots.length + limit) 0 began
  exact compiled.andThen (fun _ _ progresses => twin.finish progresses) s t states admitted

end Passes

section Refreshing

variable {used fresh : Context} (twin : left.Matches used fresh)
include twin

theorem Matches.adopt (path : Path) :
    TwinsWhile left.admits left.LingersIn Eq
      (fun session => [.compiled ⟨fresh, path, true, session⟩])
      (Compiler.adopt used path) (Compiler.adopt fresh path) := by
  refine (twin.compileFile path true).andThen fun emission _ same => same ▸ ?_
  refine (twins_modifyWorkspace fun used fresh lingers => ?_).bind_same fun _ => .pure rfl
  rw [lingers.system]
  split
  · exact lingers.watchRoot path
  · exact lingers

theorem Matches.refresh {a b : Context.Progress} (progresses : left.Progresses a b) (path : Path) :
    TwinsWhile left.admits left.LingersIn left.Progresses
      (fun session => if session.workspace.system.fileExists path then
        [.compiled ⟨fresh, path, true, session⟩] else [.evicted ⟨path, fresh.target⟩])
      (Compiler.refresh used a path) (Compiler.refresh fresh b path) := by
  intro s t states admitted
  rw [Compiler.run_refresh, Compiler.run_refresh, states.workspace.system, twin.scope]
  cases exist : t.workspace.system.fileExists path with
  | true =>
    simp only [exist, ↓reduceIte] at admitted ⊢
    have asked : left.asked path := (admitted _ (List.mem_singleton_self _)).1
    exact (twin.compileFile path true).andThen (fun emission _ same => same ▸
      .pure (progresses.add asked emission)) s t states admitted
  | false =>
    simp only [Bool.false_eq_true, ↓reduceIte]
    exact (twins_operation (.remove ⟨path, fresh.target⟩) fun _ _ _ same =>
      Operation.noConfusion same).bind_same (fun _ => .pure progresses) s t states

theorem Matches.foldlM_refresh (files : List Path) {a b : Context.Progress}
    (progresses : left.Progresses a b) :
    TwinsWhile left.admits left.LingersIn left.Progresses (Compiler.refreshEvents fresh files)
      (files.foldlM (Compiler.refresh used) a) (files.foldlM (Compiler.refresh fresh) b) :=
  .foldlM (fun _ _ _ _ => congrArg (_ ++ ·) (Compiler.eventsBehind_refresh ..))
    (fun path _ _ progresses => twin.refresh progresses path) progresses

theorem Matches.refreshAll (limit : Nat) (files : List Path) :
    TwinsWhile left.admits left.LingersIn Eq (Compiler.refreshAllEvents fresh limit files)
      (Compiler.refreshAll used limit files) (Compiler.refreshAll fresh limit files) := by
  intro s t states admitted
  have began : left.Progresses {} {} := ⟨rfl, fun _ member => absurd member List.not_mem_nil⟩
  have target : used.target = fresh.target := congrArg Scope.target twin.scope
  have adopted (a b : Context.Progress) (progresses : left.Progresses a b) :
      TwinsWhile left.admits left.LingersIn Eq
        (fun later => fresh.rootEvents (Compiler.adopt fresh) true
          (later.roots.length - t.roots.length + limit) t.roots.length later)
        (do
          let added := (← get).roots.length - s.roots.length
          used.finish (← used.compileRootsFrom (Compiler.adopt used) (added + limit)
            s.roots.length a))
        (do
          let added := (← get).roots.length - t.roots.length
          fresh.finish (← fresh.compileRootsFrom (Compiler.adopt fresh) (added + limit)
            t.roots.length b)) := by
    intro s' t' states' admitted'
    rw [run_bind_ok (run_get s'), run_bind_ok (run_get t'), states'.roots, states.roots]
    exact (twins_compileRootsFrom target twin.adopt _ _ progresses).andThen
      (fun _ _ progresses => twin.finish progresses) s' t' states' admitted'
  exact (twin.foldlM_refresh files began).bind adopted s t states admitted

/-- The same files are affected by a change. -/
theorem Matches.affected {s t : Workspace} (lingers : left.Lingers s t) (path : Path) :
    Compiler.affected used s path = Compiler.affected fresh t path := by
  have resolved : used.resolvers.flatMap (fun resolver => resolver path s) =
      fresh.resolvers.flatMap fun resolver => resolver path t := by
    have each := twin.resolvers
    generalize used.resolvers = fs, fresh.resolvers = gs at each
    induction each with
    | nil => rfl
    | cons first _ ih => rw [List.flatMap_cons, List.flatMap_cons, ih, first path s t lingers]
  unfold Compiler.affected Context.isRoot Context.dependents
  rw [twin.scope, twin.roots, resolved, lingers.system]

end Refreshing

end Leftover

end Recast.Build
