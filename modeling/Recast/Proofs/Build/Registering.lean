import Recast.Build.Compiler
import Recast.Proofs.Build.Steps

/-! # Registrations

A context keeps its callbacks in slots, and a registration goes behind what is there. So every slot
of an activated context holds what all addons registered for it, one after the other
(`run_activate_registering`), and neighbours that go to different slots may change places
(`activate_swap`).
-/

namespace Recast.Emit

/-- The transformers of a stage. -/
def TransformerSet.hooks (set : TransformerSet) : Stage → Hooks
  | .preEmit => set.preEmit
  | .emit => set.emit
  | .postEmit => set.postEmit

theorem TransformerSet.hooks_register (set : TransformerSet) (stage other : Stage) (hooks : Hooks) :
    (set.register stage hooks).hooks other =
      if stage = other then (set.hooks other).append hooks else set.hooks other := by
  cases stage <;> cases other <;> rfl

end Recast.Emit

namespace Recast.Build

open Recast.Emit

/-- A place for callbacks in a context. -/
inductive Slot where
  | generators
  | processors
  | before (stage : Stage)
  | after (stage : Stage)
  | resultProcessors
  | postTransformers
  | resolvers

/-- What a slot holds. -/
def Slot.Callback : Slot → Type
  | .generators => Generator
  | .processors => Processor
  | .before _ => Transformer
  | .after _ => Transformer
  | .resultProcessors => ResultProcessor
  | .postTransformers => ResultProcessor
  | .resolvers => DependencyResolver

/-- The callbacks of a context in a slot, in the order in which they run. -/
def Context.callbacks (context : Context) : (slot : Slot) → List slot.Callback
  | .generators => context.generators
  | .processors => context.processors
  | .before stage => (context.transformers.hooks stage).before
  | .after stage => (context.transformers.hooks stage).after
  | .resultProcessors => context.resultProcessors
  | .postTransformers => context.postTransformers
  | .resolvers => context.resolvers

/-- A context is its scope, its root files and what is in its slots. -/
theorem Context.eq_of_callbacks {a b : Context} (scope : a.toScope = b.toScope)
    (roots : a.roots = b.roots) (callbacks : ∀ slot, a.callbacks slot = b.callbacks slot) :
    a = b := by
  have hooks (stage : Stage) : a.transformers.hooks stage = b.transformers.hooks stage := by
    have before : (a.transformers.hooks stage).before = (b.transformers.hooks stage).before :=
      callbacks (.before stage)
    have after : (a.transformers.hooks stage).after = (b.transformers.hooks stage).after :=
      callbacks (.after stage)
    cases one : a.transformers.hooks stage
    cases other : b.transformers.hooks stage
    simp_all
  have transformers : a.transformers = b.transformers := by
    have pre := hooks .preEmit
    have main := hooks .emit
    have post := hooks .postEmit
    cases one : a.transformers
    cases other : b.transformers
    simp_all [TransformerSet.hooks]
  have generators : a.generators = b.generators := callbacks .generators
  have processors : a.processors = b.processors := callbacks .processors
  have results : a.resultProcessors = b.resultProcessors := callbacks .resultProcessors
  have posts : a.postTransformers = b.postTransformers := callbacks .postTransformers
  have resolvers : a.resolvers = b.resolvers := callbacks .resolvers
  cases a
  cases b
  simp_all

/-- A call by which an addon registers callbacks. -/
inductive Registration where
  | generator (generator : Generator)
  | processor (processor : Processor)
  | transformers (stage : Stage) (hooks : Hooks)
  | resultProcessor (processor : ResultProcessor)
  | postTransformer (processor : ResultProcessor)
  | resolver (resolver : DependencyResolver)

namespace Registration

/-- Makes the call. -/
def run : Registration → EStateM Failure Activation Unit
  | .generator callback => Activation.registerGenerator callback
  | .processor callback => Activation.registerProcessor callback
  | .transformers stage hooks => Activation.registerTransformers stage hooks
  | .resultProcessor callback => Activation.registerResultProcessor callback
  | .postTransformer callback => Activation.registerPostTransformer callback
  | .resolver callback => Activation.registerResolver callback

/-- What a registration puts into a slot. -/
def callbacks : Registration → (slot : Slot) → List slot.Callback
  | .generator callback, .generators => [callback]
  | .processor callback, .processors => [callback]
  | .transformers stage hooks, .before other => if stage = other then hooks.before else []
  | .transformers stage hooks, .after other => if stage = other then hooks.after else []
  | .resultProcessor callback, .resultProcessors => [callback]
  | .postTransformer callback, .postTransformers => [callback]
  | .resolver callback, .resolvers => [callback]
  | _, _ => []

/-- Two registrations that go to different slots. -/
def Apart (one other : Registration) : Prop :=
  ∀ slot, one.callbacks slot = [] ∨ other.callbacks slot = []

/-- A registration goes behind what is there, and changes nothing else. -/
theorem run_spec (registration : Registration) (activation : Activation) :
    ∃ context, registration.run activation = .ok () { activation with context := context } ∧
      context.toScope = activation.context.toScope ∧ context.roots = activation.context.roots ∧
      ∀ slot, context.callbacks slot =
        activation.context.callbacks slot ++ registration.callbacks slot := by
  refine ⟨(endState (registration.run activation)).context, ?_, ?_, ?_, fun slot => ?_⟩
  · cases registration <;> rfl
  · cases registration <;> rfl
  · cases registration <;> rfl
  · cases registration with
    | transformers stage hooks =>
      have registered (other : Stage) :=
        activation.context.transformers.hooks_register stage other hooks
      cases slot with
      | before other =>
        refine (congrArg Hooks.before (registered other)).trans ?_
        change _ = (activation.context.transformers.hooks other).before ++
          if stage = other then hooks.before else []
        split <;> simp [Hooks.append]
      | after other =>
        refine (congrArg Hooks.after (registered other)).trans ?_
        change _ = (activation.context.transformers.hooks other).after ++
          if stage = other then hooks.after else []
        split <;> simp [Hooks.append]
      | _ => exact (List.append_nil _).symm
    | _ => cases slot <;> first | rfl | exact (List.append_nil _).symm

end Registration

/-- The addon of a name that registers callbacks one after the other. -/
def Addon.registering (entry : String × List Registration) : Addon :=
  ⟨entry.1, entry.2.forM (·.run)⟩

/-- Registrations go behind each other. -/
theorem run_registrations (registrations : List Registration) (activation : Activation) :
    ∃ context, (registrations.forM (·.run) : EStateM Failure Activation Unit) activation =
        .ok () { activation with context := context } ∧
      context.toScope = activation.context.toScope ∧ context.roots = activation.context.roots ∧
      ∀ slot, context.callbacks slot =
        activation.context.callbacks slot ++ registrations.flatMap (·.callbacks slot) := by
  induction registrations generalizing activation with
  | nil => exact ⟨activation.context, rfl, rfl, rfl, fun slot => (List.append_nil _).symm⟩
  | cons registration registrations ih =>
    obtain ⟨middle, first, scope, roots, slots⟩ := registration.run_spec activation
    obtain ⟨context, rest, scope', roots', slots'⟩ := ih { activation with context := middle }
    refine ⟨context, (run_bind_ok first).trans rest, scope'.trans scope, roots'.trans roots,
      fun slot => ?_⟩
    rw [slots', List.flatMap_cons, ← List.append_assoc]
    exact congrArg (· ++ _) (slots slot)

/-- Addons make the same calls one after the other as if they were one. -/
theorem forM_activate_registering (addons : List (String × List Registration)) :
    ((addons.map Addon.registering).forM (·.activate) : EStateM Failure Activation Unit) =
      (addons.flatMap (·.2)).forM (·.run) := by
  induction addons with
  | nil => rfl
  | cons entry addons ih =>
    rw [List.flatMap_cons]
    simp only [List.forM_eq_forM, List.map_cons, List.forM_cons, List.forM_append] at ih ⊢
    rw [ih]
    rfl

/-- Every slot of an activated context holds what all addons registered for it, in the order in
which they are activated. -/
theorem run_activate_registering (scope : Scope) (roots : List Path)
    (addons : List (String × List Registration)) (compiler : Compiler) :
    ∃ context, Compiler.activate { toScope := scope, roots := roots }
        (addons.map Addon.registering) compiler = .ok context compiler ∧
      context.toScope = scope ∧ context.roots = roots ∧
      ∀ slot, context.callbacks slot = (addons.flatMap (·.2)).flatMap (·.callbacks slot) := by
  obtain ⟨context, ran, scope', roots', slots⟩ := run_registrations (addons.flatMap (·.2))
    ⟨{ toScope := scope, roots := roots }, compiler.workspace⟩
  refine ⟨context, ?_, scope', roots', fun slot => ?_⟩
  · unfold Compiler.activate
    rw [forM_activate_registering, ran]
  · rw [slots]
    cases slot with
    | before stage => cases stage <;> rfl
    | after stage => cases stage <;> rfl
    | _ => rfl

/-- Neighbours of which only one adds to a list may change places. -/
theorem flatMap_swap {α β : Type} {f : α → List β} {one other : α}
    (apart : f one = [] ∨ f other = []) (front back : List α) :
    (front ++ one :: other :: back).flatMap f = (front ++ other :: one :: back).flatMap f := by
  rcases apart with empty | empty <;> simp [empty]

/-- Addons whose registrations differ by two neighbours that go to different slots make the same
context. -/
theorem activate_swap {addons others : List (String × List Registration)}
    {front back : List Registration} {one other : Registration} (apart : one.Apart other)
    (listed : addons.flatMap (·.2) = front ++ one :: other :: back)
    (swapped : others.flatMap (·.2) = front ++ other :: one :: back)
    (scope : Scope) (roots : List Path) (compiler : Compiler) :
    Compiler.activate { toScope := scope, roots := roots } (others.map Addon.registering) compiler =
      Compiler.activate { toScope := scope, roots := roots } (addons.map Addon.registering)
        compiler := by
  obtain ⟨first, ran, scope₁, roots₁, slots₁⟩ :=
    run_activate_registering scope roots addons compiler
  obtain ⟨second, ran', scope₂, roots₂, slots₂⟩ :=
    run_activate_registering scope roots others compiler
  have same : second = first := by
    refine Context.eq_of_callbacks (scope₂.trans scope₁.symm) (roots₂.trans roots₁.symm)
      fun slot => ?_
    rw [slots₁, slots₂, listed, swapped, ← flatMap_swap (apart slot)]
  rw [ran, ran', same]

end Recast.Build
