import Recast.Proofs.Build.Quiet

/-! # Where failures come from

A step raises the failures of the steps it is put together from. So a pass in a context fails with a
failure that one of the callbacks of the context raised, or with one of the few that the compiler
has of its own (`Failure.IsOwn`): a missing context is not among these.
-/

namespace Recast

/-- The failures that compiling raises by itself. -/
def Failure.IsOwn : Failure → Prop
  | .notConfigured | .file _ | .endlessRoots _ => True
  | _ => False

example (target : String) : ¬ (Failure.missingContext target).IsOwn := id

end Recast

namespace Recast.Build

open Recast.Emit Recast.Script

section Raising

variable {ε σ α β : Type} {E : ε → Prop}

/-- A step fails with some failures only. -/
def Raises (E : ε → Prop) (x : EStateM ε σ α) : Prop :=
  ∀ s e t, x s = .error e t → E e

namespace Raises

theorem pure (a : α) : Raises E (Pure.pure a : EStateM ε σ α) := by
  intro s e t ran
  cases ran

theorem get : Raises E (get : EStateM ε σ σ) := by
  intro s e t ran
  cases ran

theorem modify (f : σ → σ) : Raises E (modify f : EStateM ε σ PUnit) := by
  intro s e t ran
  cases ran

theorem throw {e : ε} (allowed : E e) : Raises E (throw e : EStateM ε σ α) := by
  intro s e' t ran
  cases ran
  exact allowed

theorem bind {x : EStateM ε σ α} {f : α → EStateM ε σ β} (first : Raises E x)
    (next : ∀ a, Raises E (f a)) : Raises E (x >>= f) := by
  intro s e t ran
  rw [run_bind] at ran
  cases began : x s with
  | ok a m =>
    rw [began] at ran
    exact next a m e t ran
  | error e' m =>
    rw [began] at ran
    cases ran
    exact first s e t began

theorem forM {xs : List α} {f : α → EStateM ε σ PUnit} (each : ∀ x ∈ xs, Raises E (f x)) :
    Raises E (xs.forM f) := by
  induction xs with
  | nil => exact Raises.pure _
  | cons x xs ih =>
    exact (each x (List.mem_cons_self ..)).bind fun _ => ih fun y member =>
      each y (List.mem_cons_of_mem _ member)

theorem foldlM {xs : List α} {f : β → α → EStateM ε σ β} (each : ∀ b, ∀ x ∈ xs, Raises E (f b x))
    (b : β) :
    Raises E (xs.foldlM f b) := by
  induction xs generalizing b with
  | nil => exact Raises.pure _
  | cons x xs ih =>
    rw [List.foldlM_cons]
    exact (each b x (List.mem_cons_self ..)).bind fun c =>
      ih (fun b y member => each b y (List.mem_cons_of_mem _ member)) c

end Raises

end Raising

/-- A callback of a context raises a failure. -/
inductive Context.Throws (context : Context) (failure : Failure) : Prop where
  | generator {generator : Generator} {path : Path} {source : String} {session last : Session}
      (listed : generator ∈ context.generators)
      (ran : generator context.toScope path source session = .error failure last)
  | processor {processor : Processor} {path : Path} {text : String} {session last : Session}
      (listed : processor ∈ context.processors)
      (ran : processor context.toScope path text session = .error failure last)
  | transformer {transformer : Transformer} {tree : Tree} {journal last : Journal}
      (listed : transformer ∈ context.transformers.all)
      (ran : transformer tree journal = .error failure last)
  | pass {processor : ResultProcessor} {roots : List Path} {session last : Session}
      (listed : processor ∈ context.resultProcessors ++ context.postTransformers)
      (ran : processor context.toScope roots session = .error failure last)

/-- A failure of a context: one of its callbacks raised it, or compiling did by itself. -/
def Context.Fails (context : Context) (failure : Failure) : Prop :=
  failure.IsOwn ∨ context.Throws failure

section Emission

variable {E : Failure → Prop}

theorem composes_raises : Composes fun _ => Raises E := ⟨.pure, .bind⟩

theorem Step.raises_journaled {α : Type} {step : Journaled α} (raises : Raises E step) :
    Raises E (journaled step) := by
  intro session failure last ran
  rw [journaled] at ran
  cases first : step session.workspace.journal with
  | ok a journal =>
    rw [first] at ran
    cases ran
  | error failure' journal =>
    rw [first] at ran
    cases ran
    exact raises _ _ _ first

theorem Step.raises_write (path : Path) (text : String) (own : ∀ error, E (.file error)) :
    Raises E (write path text) := by
  refine Raises.bind (.bind .get fun _ => .pure _) fun workspace => ?_
  refine Raises.bind (.modify _) fun _ => ?_
  dsimp only
  split
  · exact .pure _
  · exact .throw (own _)

/-- The service raises what the transformers of its host raise. -/
theorem Service.raises_emit {service : Service} {host : Host} (installed : service.host? = some host)
    (each : ∀ tree, Raises E (host.transformers.run tree)) (path : Path) :
    Raises E (service.emit path).1 := by
  rw [Service.emit, installed]
  dsimp only
  cases host.text? path with
  | none => exact .pure _
  | some text =>
    dsimp only
    split
    · exact .pure _
    · split
      · exact .pure _
      · split
        · exact .pure _
        · exact (each _).bind fun _ => .pure _

end Emission

namespace Context

variable {context : Context}

theorem raises_transformers (tree : Tree) :
    Raises context.Fails (context.transformers.run tree) :=
  composes_raises.run (fun _ listed _ _ _ _ ran => .inr (.transformer listed ran)) tree

theorem raises_emitFile (path : Path) (text : String) :
    Raises context.Fails (context.emitFile path text) := by
  rw [emitFile]
  split
  · exact Step.raises_journaled
      (composes_raises.transpileFile raises_transformers path _ text _)
  · intro session failure last ran
    rw [emitChecked, run_bind_ok (context.run_installHost session),
      run_bind_ok (Step.run_workspace _)] at ran
    have emits : Raises context.Fails
        ((session.workspace.service.setHost (context.host session)).emit path).1 :=
      Service.raises_emit rfl raises_transformers path
    exact (Raises.bind (.modify _) fun _ => Step.raises_journaled emits) _ _ _ ran

theorem raises_settle (path : Path) (emission : Emission) :
    Raises context.Fails (context.settle path emission) := by
  rw [settle]
  dsimp only
  split
  · exact Raises.bind (.modify _) fun _ => .pure _
  · refine Raises.bind (.modify _) fun _ => ?_
    split
    · exact Raises.bind (.forM fun file _ => Step.raises_write _ _ fun _ => .inl trivial)
        fun _ => .pure _
    · exact .pure _

theorem raises_prepare (path : Path) (source : String) :
    Raises context.Fails (context.prepare path source) :=
  Raises.bind (.forM fun _ listed _ _ _ ran => .inr (.generator listed ran)) fun _ =>
    .foldlM (fun _ _ listed _ _ _ ran => .inr (.processor listed ran)) _

theorem raises_recompile (path : Path) : Raises context.Fails (context.recompile path) := by
  refine Raises.bind (.bind .get fun _ => .pure _) fun workspace => ?_
  split
  · exact .pure _
  · rw [compileSource_eq]
    exact (raises_prepare path _).bind fun text => Raises.bind (.modify _) fun _ =>
      (raises_emitFile path text).bind fun emission => raises_settle path emission

/-- A compilation fails with a failure of its context. -/
theorem raises_compileFile (path : Path) (force : Bool) :
    Raises context.Fails (context.compileFile path force) := by
  rw [compileFile]
  split
  · exact Raises.bind (.modify _) fun _ => raises_recompile path
  · refine Raises.bind (.bind .get fun _ => .pure _) fun workspace => ?_
    split
    · exact raises_recompile path
    · exact .pure _

theorem raises_compileRootsFrom {compileRoot : Path → Step Emission}
    (each : ∀ path, Raises context.Fails (compileRoot path)) (fuel index : Nat)
    (progress : Progress) :
    Raises context.Fails (context.compileRootsFrom compileRoot fuel index progress) := by
  induction fuel generalizing index progress with
  | zero =>
    rw [compileRootsFrom]
    refine Raises.bind .get fun session => ?_
    split
    · exact .pure _
    · exact .throw (.inl trivial)
  | succ fuel ih =>
    rw [compileRootsFrom]
    refine Raises.bind .get fun session => ?_
    split
    · exact .pure _
    · exact (each _).bind fun emission => ih _ _

theorem raises_finish (progress : Progress) : Raises context.Fails (context.finish progress) := by
  refine Raises.bind .get fun session => ?_
  refine Raises.bind (.forM fun _ listed _ _ _ ran =>
    .inr (.pass (List.mem_append_left _ listed) ran)) fun _ => ?_
  refine Raises.bind (.forM fun _ listed _ _ _ ran =>
    .inr (.pass (List.mem_append_right _ listed) ran)) fun _ => ?_
  dsimp only
  split
  · have collects (files : List Path) (emitted : List Diagnostic) :
        Raises context.Fails (context.collectDiagnostics files emitted) :=
      Raises.bind (.modify _) fun _ => .bind (.bind .get fun _ => .pure _) fun _ =>
        .bind (.modify _) fun _ => .pure _
    exact (collects _ _).bind fun _ => .bind (.forM fun _ _ => .modify _) fun _ => .pure _
  · exact .pure _

/-- A pass over the root files fails with a failure of its context. -/
theorem raises_compileAll (limit : Nat) (force : Bool) :
    Raises context.Fails (context.compileAll limit force) :=
  Raises.bind .get fun _ =>
    (raises_compileRootsFrom (fun path => raises_compileFile path force) _ _ _).bind raises_finish

/-- So does the compilation of changed files. -/
theorem raises_refreshAll (limit : Nat) (files : List Path) :
    Raises context.Fails (Compiler.refreshAll context limit files) := by
  have refreshes (progress : Progress) (path : Path) :
      Raises context.Fails (Compiler.refresh context progress path) := by
    refine Raises.bind (.bind .get fun _ => .pure _) fun workspace => ?_
    split
    · exact (raises_compileFile path true).bind fun _ => .pure _
    · exact Raises.bind (.modify _) fun _ => .pure _
  have adopts (path : Path) : Raises context.Fails (Compiler.adopt context path) :=
    (raises_compileFile path true).bind fun _ => Raises.bind (.modify _) fun _ => .pure _
  exact Raises.bind .get fun _ => .bind (.foldlM (fun progress path _ => refreshes progress path) _)
    fun _ => .bind .get fun _ => (raises_compileRootsFrom adopts _ _ _).bind raises_finish

end Context

end Recast.Build
