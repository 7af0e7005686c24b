import Recast.Proofs.Build.Making
import Recast.Proofs.Build.Moves

/-! # Why compilers fail

A compiler that has made its contexts finds every context that it asks for. So where it fails, a
callback of one of its contexts raised the failure, or it is about options, files or endless root
files (`Explained`). Where the contexts cannot be made, an addon raised the failure, or it is again
about options or files. A missing context is never the reason (`compile_fails`, `watch_fails`).
-/

namespace Recast.Build

open Recast.Emit

namespace Compiler

/-- A compiler with options for some active targets, and a context for each. -/
structure Equipped (targets : List String) (compiler : Compiler) : Prop where
  active : compiler.setup?.map Setup.activeTargets = some targets
  contexts : ∀ target ∈ targets, (compiler.context? target).isSome = true

section Growth

/-- Contexts are made and kept, under the same options. -/
structure Grows (before after : Compiler) : Prop where
  options : after.options? = before.options?
  kept : ∀ target context, before.fixed? target = some context →
    after.fixed? target = some context

instance : Std.Refl Grows := ⟨fun _ => ⟨rfl, fun _ _ => id⟩⟩

instance : IsTrans Compiler Grows :=
  ⟨fun _ _ _ first second => ⟨second.options.trans first.options,
    fun target context known => second.kept target context (first.kept target context known)⟩⟩

variable {compiler next : Compiler}

theorem Grows.of_frame (same : next.frame = compiler.frame) : compiler.Grows next where
  options := congrArg (·.1) same
  kept target context known := by
    rw [fixed?_congr same]
    exact known

theorem isSome_fixed? (compiler : Compiler) (target : String) :
    (compiler.fixed? target).isSome = (compiler.context? target).isSome :=
  Option.isSome_map

/-- Making a context keeps the others. -/
theorem follows_ensureContext (target : String) : Follows Grows (ensureContext target) := by
  intro compiler
  have same := frame_makeContext target compiler
  rw [run_ensureContext]
  split
  · exact refl compiler
  · cases made : makeContext target compiler with
    | error failure next =>
      rw [made] at same
      exact .of_frame same
    | ok context next =>
      rw [made] at same
      have grows : compiler.Grows next := .of_frame same
      refine ⟨grows.options, fun other known found => ?_⟩
      dsimp only [endState_ok]
      rw [fixed?_append, grows.kept other known found]
      rfl

theorem follows_forM_ensureContext (targets : List String) :
    Follows Grows (targets.forM ensureContext) :=
  .forM fun target _ => follows_ensureContext target

/-- Behind the making of its context, a target has one. -/
theorem isSome_of_ensureContext {target : String}
    (ran : ensureContext target compiler = .ok ⟨⟩ next) :
    (next.fixed? target).isSome = true := by
  rw [run_ensureContext] at ran
  split at ran
  · next known =>
    cases ran
    rw [isSome_fixed?]
    exact known
  · cases made : makeContext target compiler with
    | error failure middle =>
      rw [made] at ran
      cases ran
    | ok context middle =>
      rw [made] at ran
      cases ran
      rw [fixed?_append, if_pos rfl, Option.isSome_or]
      exact Bool.or_true _

/-- Every target has a context once they were all made. -/
theorem isSome_of_forM {targets : List String}
    (ran : targets.forM ensureContext compiler = .ok ⟨⟩ next) :
    ∀ target ∈ targets, (next.context? target).isSome = true := by
  induction targets generalizing compiler with
  | nil => exact fun _ member => absurd member List.not_mem_nil
  | cons target targets ih =>
    obtain ⟨_, middle, first, rest⟩ := exists_of_bind_eq_ok ran
    intro other member
    rcases List.mem_cons.mp member with rfl | later
    · obtain ⟨context, known⟩ := Option.isSome_iff_exists.mp (isSome_of_ensureContext first)
      have grows := follows_forM_ensureContext targets middle
      rw [rest, endState_ok] at grows
      rw [← isSome_fixed?, grows.kept other context known]
      rfl
    · exact ih rest other later

/-- A compiler that could make its contexts has them. -/
theorem equipped_of_ensureContexts (ran : ensureContexts compiler = .ok ⟨⟩ next) :
    ∃ targets, Equipped targets next := by
  rw [ensureContexts_eq] at ran
  cases configured : compiler.setup? with
  | none =>
    rw [configured] at ran
    cases ran
  | some setup =>
    rw [configured] at ran
    dsimp only at ran
    have grows := follows_forM_ensureContext setup.activeTargets compiler
    cases made : setup.activeTargets.forM ensureContext compiler with
    | error failure middle =>
      rw [made] at ran
      cases ran
    | ok _ middle =>
      rw [made] at ran grows
      cases ran
      have active := active_of_options grows.options
      rw [configured] at active
      have contexts := isSome_of_forM made
      exact ⟨setup.activeTargets, active, fun target member => contexts target member⟩

/-- Making contexts keeps those that were there, also where others cannot be made. -/
theorem follows_ensureContexts : Follows Grows ensureContexts := by
  refine Follows.bind (fun compiler => ?_) fun setup => ?_
  · rw [run_setup]
    cases compiler.setup? <;> exact refl compiler
  · refine (follows_forM_ensureContext setup.activeTargets).bind fun _ compiler => ?_
    exact ⟨rfl, fun _ _ => id⟩

/-- All contexts are made under the options of the compiler. -/
theorem options_of_makingsFor {targets : List String} :
    ∀ making ∈ makingsFor targets compiler, making.compiler.options? = compiler.options? := by
  induction targets generalizing compiler with
  | nil => exact fun _ member => absurd member List.not_mem_nil
  | cons target targets ih =>
    rintro making member
    have grows := follows_ensureContext target compiler
    rw [makingsFor] at member
    rcases List.mem_append.mp member with first | later
    · rw [Compiler.making] at first
      split at first
      · exact absurd first List.not_mem_nil
      · rw [List.mem_singleton.mp first]
    · cases ran : ensureContext target compiler with
      | ok _ next =>
        rw [ran] at later grows
        exact (ih making later).trans grows.options
      | error failure next =>
        rw [ran] at later
        exact absurd later List.not_mem_nil

theorem options_of_makings :
    ∀ making ∈ compiler.makings, making.compiler.options? = compiler.options? := by
  rintro making member
  rw [makings] at member
  split at member
  · exact absurd member List.not_mem_nil
  · exact options_of_makingsFor making member

end Growth

/-- A failure of the compiler itself, or one that a callback of its contexts raised. -/
def Explains (compiler : Compiler) (failure : Failure) : Prop :=
  failure.IsOwn ∨ ∃ entry ∈ compiler.contexts, entry.2.Throws failure

/-- From a compiler with all its contexts, a step leads to another one and gives one of some
answers, unless it fails with a failure that is explained. -/
def Explained {α : Type} (targets : List String) (A : α → Prop) (x : Compiling α) : Prop :=
  ∀ compiler, Equipped targets compiler →
    match x compiler with
    | .ok a next => Equipped targets next ∧ A a
    | .error failure next => next.Explains failure

theorem sturdy_equipped (targets : List String) : Sturdy (Equipped targets) :=
  sturdy_of_frame fun compiler other same equipped => by
    refine ⟨(active_of_options (congrArg (·.1) same)).trans equipped.active, fun target member => ?_⟩
    rw [isSome_context?_congr same]
    exact equipped.contexts target member

namespace Explained

variable {α β γ : Type} {targets : List String} {A : α → Prop} {B : β → Prop}

theorem pure {a : α} (answer : A a) : Explained targets A (Pure.pure a : Compiling α) :=
  fun _ equipped => ⟨equipped, answer⟩

theorem get : Explained targets (Equipped targets) (get : Compiling Compiler) :=
  fun _ equipped => ⟨equipped, equipped⟩

theorem bind {x : Compiling α} {f : α → Compiling β} (first : Explained targets A x)
    (next : ∀ a, A a → Explained targets B (f a)) : Explained targets B (x >>= f) := by
  intro compiler equipped
  have began := first compiler equipped
  rw [run_bind]
  cases ran : x compiler with
  | ok a middle =>
    rw [ran] at began
    exact next a began.2 middle began.1
  | error failure last =>
    rw [ran] at began
    exact began

theorem forM {xs : List γ} {f : γ → Compiling PUnit}
    (each : ∀ x ∈ xs, Explained targets (fun _ => True) (f x)) :
    Explained targets (fun _ => True) (xs.forM f) := by
  induction xs with
  | nil => exact .pure trivial
  | cons x xs ih =>
    exact (each x (List.mem_cons_self ..)).bind fun _ _ => ih fun y member =>
      each y (List.mem_cons_of_mem _ member)

theorem foldlM {xs : List γ} {f : β → γ → Compiling β}
    (each : ∀ b, ∀ x ∈ xs, Explained targets (fun _ => True) (f b x)) (b : β) :
    Explained targets (fun _ => True) (xs.foldlM f b) := by
  induction xs generalizing b with
  | nil => exact .pure trivial
  | cons x xs ih =>
    rw [List.foldlM_cons]
    exact (each b x (List.mem_cons_self ..)).bind fun c _ =>
      ih (fun b y member => each b y (List.mem_cons_of_mem _ member)) c

theorem weaken {A' : α → Prop} {x : Compiling α} (explained : Explained targets A x)
    (weaker : ∀ a, A a → A' a) : Explained targets A' x := by
  intro compiler equipped
  have ended := explained compiler equipped
  cases ran : x compiler with
  | ok a next =>
    rw [ran] at ended
    exact ⟨ended.1, weaker a ended.2⟩
  | error failure next =>
    rw [ran] at ended
    exact ended

/-- What is kept of a list is a part of it. -/
theorem filterM {xs : List γ} {f : γ → Compiling Bool}
    (each : ∀ x ∈ xs, Explained targets (fun _ => True) (f x)) :
    Explained targets (· ⊆ xs) (xs.filterM f) := by
  have kept (acc : List γ) :
      Explained targets (· ⊆ xs ++ acc) (xs.filterAuxM f acc) := by
    induction xs generalizing acc with
    | nil => exact .pure (List.Subset.refl acc)
    | cons x xs ih =>
      refine (each x (List.mem_cons_self ..)).bind fun answer _ => ?_
      have rest := ih (fun y member => each y (List.mem_cons_of_mem _ member))
        (cond answer (x :: acc) acc)
      refine rest.weaken fun ys within y member => ?_
      have place := within member
      cases answer <;> simp only [cond_true, cond_false, List.mem_append, List.mem_cons] at place ⊢
      · rcases place with later | before
        · exact .inl (.inr later)
        · exact .inr before
      · rcases place with later | rfl | before
        · exact .inl (.inr later)
        · exact .inl (.inl rfl)
        · exact .inr before
  refine (kept []).bind fun ys within => .pure fun y member => ?_
  rw [List.append_nil] at within
  exact within (List.mem_reverse.mp member)

end Explained

section Operations

variable {targets : List String}

theorem explained_setup : Explained targets (·.activeTargets = targets) setup := by
  intro compiler equipped
  obtain ⟨setup, configured, active⟩ := Option.map_eq_some_iff.mp equipped.active
  rw [run_setup_of_eq configured]
  exact ⟨equipped, active⟩

/-- The context of an active target is there. -/
theorem explained_context {target : String} (active : target ∈ targets) :
    Explained targets (fun _ => True) (context target) := by
  intro compiler equipped
  obtain ⟨context, known⟩ := Option.isSome_iff_exists.mp (equipped.contexts target active)
  rw [run_context, known]
  exact ⟨equipped, trivial⟩

theorem explained_modifyWorkspace (f : Workspace → Workspace) :
    Explained targets (fun _ => True) (modifyWorkspace f) :=
  fun compiler equipped => ⟨(sturdy_equipped targets).workspace compiler _ equipped, trivial⟩

theorem explained_status (message : String) :
    Explained targets (fun _ => True) (status message) := by
  refine .bind .get fun compiler _ => ?_
  split
  · exact explained_modifyWorkspace _
  · exact .pure trivial

/-- A step in the context of an active target fails as steps in this context do. -/
theorem explained_inContext {α : Type} {target : String} (active : target ∈ targets)
    {step : Context → Step α} (raises : ∀ context, Raises context.Fails (step context)) :
    Explained targets (fun _ => True) (inContext target step) := by
  intro compiler equipped
  obtain ⟨context, known⟩ := Option.isSome_iff_exists.mp (equipped.contexts target active)
  rw [run_inContext, known]
  dsimp only
  cases ran : step context ⟨compiler.workspace, context.roots⟩ with
  | ok a session => exact ⟨(sturdy_equipped targets).absorb compiler target session equipped, trivial⟩
  | error failure session =>
    dsimp only
    rcases raises context _ _ _ ran with own | throws
    · exact .inl own
    · obtain ⟨before, behind, spelled, _⟩ := List.lookup_eq_some_iff.mp known
      refine .inr ⟨(target, { context with roots := session.roots }), ?_, ?_⟩
      · refine List.mem_map.mpr ⟨(target, context), by simp [spelled], if_pos rfl⟩
      · cases throws with
        | generator listed ran => exact .generator listed ran
        | processor listed ran => exact .processor listed ran
        | transformer listed ran => exact .transformer listed ran
        | pass listed ran => exact .pass listed ran

theorem explained_passes (force : Bool) {active : List String} (within : active ⊆ targets)
    (result : PassResult) :
    Explained targets (fun _ => True) (active.foldlM
      (fun result target => return result.merge (← compileTarget target force)) result) := by
  refine .foldlM (fun result target member => ?_) result
  refine Explained.bind (A := fun _ => True) ?_ fun _ _ => .pure trivial
  exact .bind .get fun compiler _ => explained_inContext (within member) fun context =>
    context.raises_compileAll _ force

theorem explained_writingTargets : Explained targets (· ⊆ targets) writingTargets := by
  refine explained_setup.bind fun setup active => ?_
  rw [active]
  exact .filterM fun target member => (explained_context member).bind fun _ _ => .pure trivial

/-- Handling a change. -/
theorem explained_fileChanged (path : Path) :
    Explained targets (fun _ => True) (fileChanged path) := by
  refine .bind .get fun compiler _ => (explained_status _).bind fun _ _ =>
    explained_writingTargets.bind fun active within => ?_
  refine Explained.bind (.foldlM (fun result target member => ?_) _) fun _ _ =>
    (explained_status _).bind fun _ _ => .pure trivial
  refine (explained_context (within member)).bind fun context _ => .bind .get fun compiler _ => ?_
  dsimp only
  split
  · exact .pure trivial
  · exact .bind .get fun _ _ => (explained_inContext (within member) fun context =>
      context.raises_refreshAll _ _).bind fun _ _ => .pure trivial

theorem explained_drainChanges : Explained targets (fun _ => True) drainChanges := by
  refine Explained.bind (A := fun _ => True) ?_ fun paths _ => .foldlM (fun result path _ =>
    (explained_fileChanged path).bind fun _ _ => .pure trivial) _
  exact .bind .get fun _ _ => (explained_modifyWorkspace _).bind fun _ _ => .pure trivial

end Operations

/-- Why an operation of a compiler fails that makes contexts first: an addon that was activated
meanwhile raised the failure, or it is explained afterwards. -/
def Accounts (before after : Compiler) (failure : Failure) : Prop :=
  after.Explains failure ∨ ∃ making ∈ before.makings, making.Throws failure

section Failures

variable {compiler next : Compiler} {failure : Failure}

private theorem accounts_of_bind {α : Type} {rest : Unit → Compiling α}
    (explained : ∀ targets, Explained targets (fun _ => True) (rest ()))
    (failed : (ensureContexts >>= rest) compiler = .error failure next) :
    compiler.Accounts next failure := by
  rw [run_bind] at failed
  cases ran : ensureContexts compiler with
  | error failure' middle =>
    rw [ran] at failed
    cases failed
    rcases isOwn_or_throws_of_ensureContexts ran with own | throws
    · exact .inl (.inl own)
    · exact .inr throws
  | ok _ middle =>
    rw [ran] at failed
    obtain ⟨targets, equipped⟩ := equipped_of_ensureContexts ran
    have ended := explained targets middle equipped
    dsimp only at failed
    rw [failed] at ended
    exact .inl ended

/-- Why a compilation fails. -/
theorem compile_fails (failed : compile compiler = .error failure next) :
    compiler.Accounts next failure := by
  refine accounts_of_bind (fun targets => ?_) failed
  refine explained_setup.bind fun setup active => ?_
  rw [active]
  exact (explained_passes false (List.Subset.refl targets) _).bind fun _ _ => .pure trivial

/-- Why watching fails. -/
theorem watch_fails (failed : watch compiler = .error failure next) :
    compiler.Accounts next failure := by
  refine accounts_of_bind (fun targets => ?_) failed
  refine explained_writingTargets.bind fun writing within =>
    (explained_passes true within _).bind fun result _ => .bind .get fun compiler _ => ?_
  split
  · refine explained_setup.bind fun setup active => ?_
    rw [active]
    refine Explained.bind (.forM fun target member => ?_) fun _ _ =>
      (explained_status _).bind fun _ _ => .pure trivial
    exact (explained_context member).bind fun context _ => .forM fun path _ =>
      explained_modifyWorkspace _
  · exact (explained_modifyWorkspace _).bind fun _ _ => .pure trivial

end Failures

end Compiler

end Recast.Build
