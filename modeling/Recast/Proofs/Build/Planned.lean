import Recast.Proofs.Build.Activating
import Recast.Proofs.Build.Clean
import Recast.Proofs.Files.Places

/-! # Callbacks that follow a plan

A planned step does a fixed list of things and then gives a fixed answer, or fails, whatever the
state in which it begins. `Bounds` says what the callbacks and outputs of some targets may do: which
files are root files, which texts are parsed for them, and what is written. Bounds are fair when
nothing that is written gets in the way of a root file.
-/

namespace Recast.Build

open Recast.Emit Recast.Script Recast.Files

variable {α β : Type}

/-- What a callback does besides answering. -/
inductive Effect where
  | write (path : Path) (text : String)
  | report (diagnostic : Diagnostic)
  | line (text : String)
  | input (path : Path)
  | watch (path : Path)

/-- Does it in the context of a target. -/
def Effect.perform (scope : Scope) : Effect → Step Unit
  | write path text => Step.write path text
  | report diagnostic => Step.report diagnostic
  | line text => Step.journaled (journal text)
  | input path => discard (scope.addInput path)
  | watch path => scope.watchFile path

/-- What is done, and the answer behind it. -/
structure Plan (α : Type) where
  effects : List Effect := []
  outcome : Except Failure α

/-- Gives an answer or fails. -/
def settleOutcome : Except Failure α → Step α
  | .ok a => pure a
  | .error failure => throw failure

def Plan.run (scope : Scope) (plan : Plan α) : Step α := do
  plan.effects.forM (Effect.perform scope)
  settleOutcome plan.outcome

/-- What the targets of a compiler may do: which files are root files from the beginning or are
added, which texts may be made of them, and what may be written. -/
structure Bounds where
  system : System
  roots : Path → Prop
  texts : Path → String → Prop
  writes : Path → String → Prop

/-- An effect that writes what may be written, and adds what may be added. -/
def Bounds.Permits (bounds : Bounds) (scope : Scope) : Effect → Prop
  | .write path text => bounds.writes path text
  | .input path => bounds.roots (bounds.system.resolve (scope.projectRoot.join path))
  | .report _ | .line _ | .watch _ => True

/-- A step that follows a plan within bounds, and the answers that it may give. -/
def Planned (bounds : Bounds) (scope : Scope) (answers : α → Prop) (step : Step α) : Prop :=
  ∃ plan : Plan α, step = plan.run scope ∧ (∀ effect ∈ plan.effects, bounds.Permits scope effect) ∧
    ∀ a, plan.outcome = .ok a → answers a

namespace Planned

variable {bounds : Bounds} {scope : Scope} {answers : α → Prop}

theorem pure {a : α} (answer : answers a) : Planned bounds scope answers (Pure.pure a) := by
  refine ⟨{ outcome := .ok a }, rfl, by simp, ?_⟩
  rintro _ ⟨⟩
  exact answer

/-- A plan, and one for each of its answers, make a plan. -/
theorem bind {next : β → Prop} {step : Step α} {f : α → Step β}
    (first : Planned bounds scope answers step)
    (each : ∀ a, answers a → Planned bounds scope next (f a)) :
    Planned bounds scope next (step >>= f) := by
  obtain ⟨⟨effects, outcome⟩, rfl, permitted, answered⟩ := first
  cases outcome with
  | error failure =>
    refine ⟨⟨effects, .error failure⟩, ?_, permitted, by simp⟩
    simp only [Plan.run, settleOutcome, bind_assoc]
    rfl
  | ok a =>
    obtain ⟨⟨more, last⟩, same, permitted', answered'⟩ := each a (answered a rfl)
    refine ⟨⟨effects ++ more, last⟩, ?_, ?_, answered'⟩
    · simp only [Plan.run, settleOutcome, bind_assoc, pure_bind, same]
      rw [← bind_assoc]
      exact congrArg (· >>= fun _ => settleOutcome last) (List.forM_append ..).symm
    · intro effect member
      exact (List.mem_append.mp member).elim (permitted effect) (permitted' effect)

theorem forM {xs : List β} {f : β → Step Unit}
    (each : ∀ x ∈ xs, Planned bounds scope (fun _ => True) (f x)) :
    Planned bounds scope (fun _ => True) (xs.forM f) := by
  induction xs with
  | nil => exact .pure trivial
  | cons x xs ih =>
    exact (each x (List.mem_cons_self ..)).bind fun _ _ => ih fun y member =>
      each y (List.mem_cons_of_mem _ member)

theorem foldlM {xs : List β} {f : α → β → Step α}
    (each : ∀ x ∈ xs, ∀ a, answers a → Planned bounds scope answers (f a x)) {a : α}
    (answer : answers a) :
    Planned bounds scope answers (xs.foldlM f a) := by
  induction xs generalizing a with
  | nil => exact .pure answer
  | cons x xs ih =>
    rw [List.foldlM_cons]
    exact (each x (List.mem_cons_self ..) a answer).bind fun _ next =>
      ih (fun y member => each y (List.mem_cons_of_mem _ member)) next

end Planned

/-- A step whose answer does not depend on the state. -/
def Steady {ε σ α : Type} (x : EStateM ε σ α) : Prop :=
  ∃ outcome : Except ε α, ∀ s, ∃ later, x s = match outcome with
    | .ok a => .ok a later
    | .error e => .error e later

namespace Steady

variable {ε σ : Type}

theorem pure (a : α) : Steady (Pure.pure a : EStateM ε σ α) := ⟨.ok a, fun s => ⟨s, rfl⟩⟩

theorem bind {x : EStateM ε σ α} {f : α → EStateM ε σ β} (first : Steady x)
    (next : ∀ a, Steady (f a)) :
    Steady (x >>= f) := by
  obtain ⟨outcome, always⟩ := first
  cases outcome with
  | error e =>
    refine ⟨.error e, fun s => ?_⟩
    obtain ⟨later, ran⟩ := always s
    exact ⟨later, run_bind_error ran⟩
  | ok a =>
    obtain ⟨outcome', after⟩ := next a
    refine ⟨outcome', fun s => ?_⟩
    obtain ⟨middle, ran⟩ := always s
    obtain ⟨later, ran'⟩ := after middle
    exact ⟨later, (run_bind_ok ran).trans ran'⟩

theorem composes : Composes fun _ => Steady := ⟨.pure, .bind⟩

/-- An answer that is given once is given always. -/
theorem run_of_ok {x : EStateM ε σ α} (steady : Steady x) {s later : σ} {a : α}
    (ran : x s = .ok a later) (t : σ) :
    ∃ later', x t = .ok a later' := by
  obtain ⟨outcome, always⟩ := steady
  obtain ⟨_, here⟩ := always s
  obtain ⟨later', there⟩ := always t
  cases outcome with
  | error e => simp [here] at ran
  | ok b =>
    rw [here] at ran
    cases ran
    exact ⟨later', there⟩

end Steady

namespace Bounds

variable {bounds : Bounds}

/-- The systems to which writes within bounds lead, with watchers that are opened meanwhile. -/
inductive Reaches (bounds : Bounds) : System → Prop
  | start : Reaches bounds bounds.system
  | write {later : System} {path : Path} {text : String} :
    Reaches bounds later → bounds.writes path text → Reaches bounds (later.write path text).1
  | watch {later next : System} {path watched : Path} {number : Nat} :
    Reaches bounds later → later.watch path = .ok (number, watched, next) → Reaches bounds next

/-- Nothing that is written fails or changes what reading a root file gives, and digests tell the
texts of a root file apart. -/
structure Fair (bounds : Bounds) : Prop where
  writes : ∀ later, bounds.Reaches later → ∀ path text, bounds.writes path text →
    (later.write path text).2 = none
  reads : ∀ later, bounds.Reaches later → ∀ root, bounds.roots root →
    later.read root = bounds.system.read root
  digests : ∀ root text other, bounds.roots root → bounds.texts root text →
    bounds.texts root other →
    Digest.of text = Digest.of other → text = other

end Bounds

end Recast.Build

namespace Recast.Files.System

/-- Watching is possible where it is supported, and changes nothing but the watchers. -/
theorem watch_spec (system : System) (path : Path) :
    (system.supportsWatch = true → ∃ opened, system.watch path = .ok opened) ∧
      ∀ number watched next, system.watch path = .ok (number, watched, next) →
        next.current = system.current ∧ next.supportsWatch = system.supportsWatch ∧
          ∀ file, next.read file = system.read file := by
  cases system with
  | memory tree =>
    unfold watch MemoryTree.watch
    dsimp only
    cases supported : tree.supportsWatch with
    | false =>
      exact ⟨fun possible => by simp [supportsWatch, supported] at possible, by simp [Except.map]⟩
    | true =>
      refine ⟨fun _ => ⟨_, rfl⟩, fun number watched next opened => ?_⟩
      cases opened
      exact ⟨rfl, supported.symm, fun _ => rfl⟩
  | disk tree =>
    refine ⟨fun _ => ⟨_, rfl⟩, fun number watched next opened => ?_⟩
    cases opened
    exact ⟨rfl, rfl, fun _ => rfl⟩

end Recast.Files.System

namespace Recast.Build.Bounds

open Recast.Files

variable {bounds : Bounds}

theorem Reaches.frame {later : System} (reached : bounds.Reaches later) :
    later.current = bounds.system.current ∧ later.supportsWatch = bounds.system.supportsWatch := by
  induction reached with
  | start => exact ⟨rfl, rfl⟩
  | @write later path text _ _ ih =>
    have like := later.like_write path text
    exact ⟨like.current.trans ih.1, like.supportsWatch.trans ih.2⟩
  | watch _ opened ih =>
    obtain ⟨current, watches, _⟩ := (System.watch_spec _ _).2 _ _ _ opened
    exact ⟨current.trans ih.1, watches.trans ih.2⟩

/-- Files in memory that are written elsewhere do not get in the way of root files. -/
theorem fair_of_memory {tree : MemoryTree} (memory : bounds.system = .memory tree)
    (apart : ∀ path text, bounds.writes path text → ∀ root, bounds.roots root →
      (tree.resolve root).same (tree.resolve path) = false)
    (digests : ∀ root text other, bounds.roots root → bounds.texts root text →
      bounds.texts root other →
      Digest.of text = Digest.of other → text = other) : bounds.Fair := by
  have kept {later : System} (reached : bounds.Reaches later) :
      (∃ files, later = .memory files ∧ files.current = tree.current) ∧
        ∀ root, bounds.roots root → later.read root = bounds.system.read root := by
    induction reached with
    | start => exact ⟨⟨tree, memory, rfl⟩, fun _ _ => rfl⟩
    | @write later path text _ permitted ih =>
      obtain ⟨⟨files, rfl, current⟩, reads⟩ := ih
      refine ⟨⟨files.write path text, rfl, current⟩, fun root isRoot => ?_⟩
      have elsewhere := apart path text permitted root isRoot
      have read := files.read_write path root text
      unfold MemoryTree.resolve at elsewhere read
      rw [current, elsewhere, if_neg Bool.false_ne_true] at read
      exact read.trans (reads root isRoot)
    | @watch later next path watched number _ opened ih =>
      obtain ⟨⟨files, rfl, current⟩, reads⟩ := ih
      obtain ⟨current', _, reads'⟩ := (System.watch_spec _ _).2 _ _ _ opened
      refine ⟨?_, fun root isRoot => (reads' root).trans (reads root isRoot)⟩
      cases next with
      | memory files' => exact ⟨files', rfl, current'.trans current⟩
      | disk other =>
        unfold System.watch at opened
        dsimp only at opened
        cases watched : files.watch path <;> simp [watched, Except.map] at opened
  refine ⟨fun later reached path text _ => ?_,
    fun later reached root isRoot => (kept reached).2 root isRoot, digests⟩
  obtain ⟨⟨files, rfl, _⟩, _⟩ := kept reached
  rfl

end Recast.Build.Bounds

namespace Recast.Build

open Recast.Emit

variable {context : Context} {bounds : Bounds}

/-- A text of a root file whose outputs may be written. -/
def Context.Allows (context : Context) (bounds : Bounds) (root : Path) (text : String) : Prop :=
  bounds.texts root text ∧ (context.writesFiles = true → ∀ journal emission later,
    context.emits root text journal = .ok emission later →
      ∀ file ∈ emission.files, bounds.writes file.name file.diskText)

/-- A context whose callbacks follow plans within bounds, on root files and their texts. -/
structure Context.Plans (context : Context) (bounds : Bounds) : Prop where
  prepare : ∀ root source, bounds.roots root → bounds.system.read root = .ok source →
    Planned bounds context.toScope (context.Allows bounds root) (context.prepare root source)
  transformers : ∀ transformer ∈ context.transformers.all, ∀ tree, Steady (transformer tree)
  resultProcessors : ∀ processor ∈ context.resultProcessors, ∀ roots,
    (∀ root ∈ roots, bounds.roots root) →
    Planned bounds context.toScope (fun _ => True) (processor context.toScope roots)
  postTransformers : ∀ processor ∈ context.postTransformers, ∀ roots,
    (∀ root ∈ roots, bounds.roots root) →
    Planned bounds context.toScope (fun _ => True) (processor context.toScope roots)

/-- Generators and processors that follow plans make a planned preparation. -/
theorem Context.planned_prepare {root : Path} {source : String} {answers : String → Prop}
    (generators : ∀ generator ∈ context.generators,
      Planned bounds context.toScope (fun _ => True) (generator context.toScope root source))
    (processors : ∀ processor ∈ context.processors, ∀ text, answers text →
      Planned bounds context.toScope answers (processor context.toScope root text))
    (given : answers source) :
    Planned bounds context.toScope answers (context.prepare root source) :=
  (Planned.forM generators).bind fun _ _ => Planned.foldlM processors given

end Recast.Build
