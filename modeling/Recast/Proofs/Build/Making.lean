import Recast.Proofs.Build.Activating
import Recast.Proofs.Build.Raising

/-! # How contexts are made

A context is made from the scope of its target by activating the addons of the target, each once and
in order (`Making.spec`). A compiler makes contexts only where it ensures that it has them all, and
only for targets that have none: the contexts that it has are those it made since its options were
set (`Traced`), apart from the root files that were added since.
-/

namespace Recast.Build

open Recast.Emit

/-- Addons are activated one after the other. -/
inductive Activates : List Addon → Activation → Activation → Prop where
  | nil (activation : Activation) : Activates [] activation activation
  | cons {addon : Addon} {addons : List Addon} {first middle last : Activation}
      (activated : addon.activate first = .ok () middle) (others : Activates addons middle last) :
      Activates (addon :: addons) first last

theorem activates_of_forM {addons : List Addon} {first last : Activation}
    (ran : (addons.forM (·.activate) : EStateM Failure Activation Unit) first = .ok () last) :
    Activates addons first last := by
  induction addons generalizing first with
  | nil =>
    cases ran
    exact .nil _
  | cons addon addons ih =>
    obtain ⟨_, middle, activated, rest⟩ := exists_of_bind_eq_ok ran
    exact .cons activated (ih rest)

/-- The making of a context: its target, and the compiler that makes it. -/
structure Making where
  target : String
  compiler : Compiler

namespace Making

def result (making : Making) : EStateM.Result Failure Compiler Context :=
  Compiler.makeContext making.target making.compiler

/-- The context that is made, if nothing fails. -/
def context? (making : Making) : Option Context :=
  match making.result with
  | .ok context _ => some context
  | .error _ _ => none

/-- The addons of the target. -/
def addons (making : Making) : List Addon :=
  match making.compiler.setup? with
  | none => []
  | some setup => (setup.registry.addonsFor making.compiler.workspace.system making.target).1

/-- The activation of one of the addons raises a failure. -/
def Throws (making : Making) (failure : Failure) : Prop :=
  ∃ addon ∈ making.addons, ∃ activation last, addon.activate activation = .error failure last

/-- A context is what the addons of its target make of a bare one, which has the root files of the
project. -/
def Activated (making : Making) (context : Context) : Prop :=
  ∃ setup roots workspace last, making.compiler.setup? = some setup ∧
    setup.project.rootFiles making.compiler.workspace.system setup.projectRoot = .ok roots ∧
    Activates making.addons
      ⟨{ toScope := setup.scope making.compiler.workspace.system making.target, roots := roots },
        workspace⟩
      ⟨context, last⟩

end Making

section Making

/-- Finding root files fails only with a failure of the files. -/
theorem isOwn_of_rootFiles {project : Project} {system : Files.System} {root : Path}
    {failure : Failure} (failed : project.rootFiles system root = .error failure) :
    failure.IsOwn := by
  rw [Project.rootFiles] at failed
  generalize project.listedRoots system root = roots at failed
  generalize project.includes = directories at failed
  induction directories generalizing roots with
  | nil => cases failed
  | cons directory directories ih =>
    rw [List.foldlM_cons, Project.scriptsBelow] at failed
    cases listed : system.list (system.resolve (root.join directory)) scriptExtensions with
    | error error =>
      rw [listed] at failed
      cases failed
      trivial
    | ok files =>
      rw [listed] at failed
      exact ih _ failed

/-- Activating addons on a context. -/
private theorem activate_spec (context : Context) (addons : List Addon) (compiler : Compiler) :
    (∀ made next, Compiler.activate context addons compiler = .ok made next →
      ∃ last, Activates addons ⟨context, compiler.workspace⟩ ⟨made, last⟩) ∧
      ∀ failure next, Compiler.activate context addons compiler = .error failure next →
        ∃ addon ∈ addons, ∃ activation last, addon.activate activation = .error failure last := by
  have raises : Raises (fun failure => ∃ addon ∈ addons, ∃ activation last,
      addon.activate activation = .error failure last) (addons.forM (·.activate)) :=
    .forM fun addon member activation failure last ran => ⟨addon, member, activation, last, ran⟩
  rw [Compiler.activate]
  cases ran : (addons.forM (·.activate) : EStateM Failure Activation Unit)
      ⟨context, compiler.workspace⟩ with
  | ok _ activation =>
    refine ⟨fun made next same => ?_, by simp⟩
    cases same
    exact ⟨activation.workspace, activates_of_forM ran⟩
  | error failure activation =>
    refine ⟨by simp, fun failure' next same => ?_⟩
    cases same
    exact raises _ _ _ ran

/-- A making finds the root files, loads the addons and activates them. -/
theorem Making.result_eq {making : Making} {setup : Setup}
    (configured : making.compiler.setup? = some setup) :
    making.result =
      match setup.project.rootFiles making.compiler.workspace.system setup.projectRoot with
      | .error failure => .error failure making.compiler
      | .ok roots =>
        Compiler.activate
          { toScope := setup.scope making.compiler.workspace.system making.target, roots := roots }
          making.addons (endState (Compiler.addonsFor making.target making.compiler)) := by
  have loaded := Compiler.run_addonsFor configured making.target
  rw [addons, configured, loaded, result, Compiler.makeContext,
    run_bind_ok (Compiler.run_setup_of_eq configured), run_bind_ok (run_get making.compiler)]
  dsimp only
  cases setup.project.rootFiles making.compiler.workspace.system setup.projectRoot with
  | error failure => rfl
  | ok roots => exact run_bind_ok loaded

/-- What the making of a context gives: the context with all addons activated, each once and in
order, or a failure that an addon raised or that is one of the compiler's own. -/
theorem Making.spec (making : Making) :
    (∀ context, making.context? = some context → making.Activated context) ∧
      ∀ failure next, making.result = .error failure next →
        failure.IsOwn ∨ making.Throws failure := by
  cases configured : making.compiler.setup? with
  | none =>
    have ran : making.result = .error .notConfigured making.compiler :=
      Compiler.run_makeContext_of_none configured making.target
    rw [context?, ran]
    refine ⟨by simp, fun failure next same => ?_⟩
    cases same
    exact .inl trivial
  | some setup =>
    have ran := Making.result_eq configured
    cases found : setup.project.rootFiles making.compiler.workspace.system setup.projectRoot with
    | error failure =>
      rw [found] at ran
      rw [context?, ran]
      refine ⟨by simp, fun failure next same => ?_⟩
      cases same
      exact .inl (isOwn_of_rootFiles found)
    | ok roots =>
      rw [found] at ran
      obtain ⟨activated, throws⟩ := activate_spec _ _ _
      refine ⟨fun context made => ?_, fun failure next failed =>
        .inr (throws failure next (ran.symm.trans failed))⟩
      rw [context?, ran] at made
      split at made
      · next context' next same =>
        cases made
        obtain ⟨last, all⟩ := activated _ _ same
        exact ⟨setup, roots, _, last, configured, found, all⟩
      · cases made

end Making

/-- Options before any addon is loaded, and the names of all addons in their order. -/
def Setup.unloaded (setup : Setup) : Setup × List String :=
  ({ setup with registry := { setup.registry with entries := [] } }, setup.registry.available)

/-- Looking for addons loads some of them, and changes no options. -/
theorem Setup.unloaded_addonsFor (setup : Setup) (system : Files.System) (target : String) :
    ({ setup with registry := (setup.registry.addonsFor system target).2.1 } : Setup).unloaded =
      setup.unloaded := by
  have loaded := ((Registry.LoadedFrom.refl system setup.registry).addonsFor target).2
  rw [unloaded, unloaded, loaded.names]
  dsimp only
  rw [loaded.explicit, loaded.project, loaded.resolve]

/-- A context without its root files. -/
def Context.fixed (context : Context) : Context :=
  { context with roots := [] }

namespace Compiler

/-- The context of a target without its root files. -/
def fixed? (compiler : Compiler) (target : String) : Option Context :=
  (compiler.context? target).map Context.fixed

/-- The options without the addons that were loaded, and the names of all addons in their order. -/
def options? (compiler : Compiler) : Option (Setup × List String) :=
  compiler.setup?.map Setup.unloaded

/-- What only new options and the making of contexts change. -/
def frame (compiler : Compiler) :
    Option (Setup × List String) × Phase × List (String × Context) :=
  (compiler.options?, compiler.phase,
    compiler.contexts.map fun entry => (entry.1, entry.2.fixed))

section Frames

variable {compiler other : Compiler}

theorem fixed?_eq_lookup (compiler : Compiler) (target : String) :
    compiler.fixed? target = compiler.frame.2.2.lookup target := by
  rw [fixed?, context?, frame]
  induction compiler.contexts with
  | nil => rfl
  | cons entry contexts ih =>
    rw [List.map_cons, List.lookup_cons, List.lookup_cons, ← ih]
    split <;> rfl

theorem fixed?_congr (same : compiler.frame = other.frame) (target : String) :
    compiler.fixed? target = other.fixed? target := by
  rw [fixed?_eq_lookup, fixed?_eq_lookup, same]

theorem isSome_context?_congr (same : compiler.frame = other.frame) (target : String) :
    (compiler.context? target).isSome = (other.context? target).isSome := by
  have fixed := congrArg Option.isSome (fixed?_congr same target)
  rwa [fixed?, fixed?, Option.isSome_map, Option.isSome_map] at fixed

theorem active_of_options (same : compiler.options? = other.options?) :
    compiler.setup?.map Setup.activeTargets = other.setup?.map Setup.activeTargets := by
  have active := congrArg (Option.map fun options => options.1.activeTargets) same
  rwa [options?, options?, Option.map_map, Option.map_map] at active

theorem sturdy_frame (frame' : Option (Setup × List String) × Phase × List (String × Context)) :
    Sturdy fun compiler => compiler.frame = frame' where
  workspace _ _ same := same
  absorb compiler target session same := by
    rw [← same]
    refine congrArg (fun entries => (compiler.options?, compiler.phase, entries)) ?_
    rw [absorb, updateContext, List.map_map]
    refine List.map_congr_left fun entry _ => ?_
    rw [Function.comp_apply]
    split <;> rfl

/-- What is seen in the frame only holds whatever happens to the workspace and to root files. -/
theorem sturdy_of_frame {P : Compiler → Prop}
    (seen : ∀ compiler other, other.frame = compiler.frame → P compiler → P other) : Sturdy P where
  workspace compiler _ holds := seen compiler _ rfl holds
  absorb compiler target session holds :=
    seen compiler _ ((sturdy_frame compiler.frame).absorb compiler target session rfl) holds

theorem frame_addonsFor (target : String) (compiler : Compiler) :
    (endState (addonsFor target compiler)).frame = compiler.frame := by
  cases configured : compiler.setup? with
  | none =>
    rw [run_addonsFor_of_none configured]
    rfl
  | some setup =>
    rw [run_addonsFor configured, frame, frame, options?, options?, configured]
    exact congrArg (fun options => (some options, _)) (setup.unloaded_addonsFor _ target)

theorem frame_activate (context : Context) (addons : List Addon) (compiler : Compiler) :
    (endState (activate context addons compiler)).frame = compiler.frame := by
  rw [activate]
  split <;> rfl

/-- A making leaves everything as it was. -/
theorem frame_makeContext (target : String) (compiler : Compiler) :
    (endState (makeContext target compiler)).frame = compiler.frame := by
  cases configured : compiler.setup? with
  | none =>
    rw [run_makeContext_of_none configured]
    rfl
  | some setup =>
    change (endState (⟨target, compiler⟩ : Making).result).frame = compiler.frame
    rw [Making.result_eq configured]
    split
    · rfl
    · rw [frame_activate, frame_addonsFor]

end Frames

theorem run_ensureContext (target : String) (compiler : Compiler) :
    ensureContext target compiler =
      if (compiler.context? target).isSome then .ok () compiler
      else match makeContext target compiler with
        | .ok context next => .ok () { next with contexts := next.contexts ++ [(target, context)] }
        | .error failure next => .error failure next := by
  rw [ensureContext, run_bind_ok (run_get compiler)]
  cases compiler.context? target with
  | none =>
    refine Eq.trans (run_bind (makeContext target) _ compiler) ?_
    cases makeContext target compiler <;> rfl
  | some context => rfl

theorem ensureContexts_eq (compiler : Compiler) :
    ensureContexts compiler =
      match compiler.setup? with
      | none => .error .notConfigured compiler
      | some setup =>
        match setup.activeTargets.forM ensureContext compiler with
        | .ok _ next => .ok () { next with phase := .ready }
        | .error failure next => .error failure next := by
  rw [ensureContexts, run_bind, run_setup]
  cases compiler.setup? with
  | none => rfl
  | some setup =>
    refine Eq.trans (run_bind (setup.activeTargets.forM ensureContext) _ compiler) ?_
    dsimp only
    cases setup.activeTargets.forM ensureContext compiler <;> rfl

/-- Behind the making of a context, the compiler has it. -/
theorem fixed?_append (compiler : Compiler) (target other : String) (context : Context) :
    ({ compiler with contexts := compiler.contexts ++ [(target, context)] } : Compiler).fixed?
        other =
      (compiler.fixed? other).or (if other = target then some context.fixed else none) := by
  rw [fixed?, fixed?, context?, context?, List.lookup_append, Option.map_or]
  congr 1
  by_cases same : other = target
  · simp [same]
  · simp [same]

/-- The making of the context of a target, if it has none. -/
def making (compiler : Compiler) (target : String) : List Making :=
  if (compiler.context? target).isSome then [] else [⟨target, compiler⟩]

/-- The makings of the contexts of some targets, up to the first failure. -/
def makingsFor : List String → Compiler → List Making
  | [], _ => []
  | target :: targets, compiler =>
    compiler.making target ++
      match ensureContext target compiler with
      | .ok _ next => makingsFor targets next
      | .error _ _ => []

/-- The makings of `ensureContexts`. -/
def makings (compiler : Compiler) : List Making :=
  match compiler.setup? with
  | none => []
  | some setup => makingsFor setup.activeTargets compiler

end Compiler

/-- The contexts that were made for a target, without their root files. -/
def contextsMade (target : String) (makings : List Making) : List Context :=
  makings.filterMap fun making =>
    if making.target = target then making.context?.map Context.fixed else none

/-- A compiler has the contexts that were made and no others, and no target had two made. -/
def Traced (makings : List Making) (compiler : Compiler) : Prop :=
  ∀ target, (compiler.fixed? target).toList = contextsMade target makings

section Traces

variable {past : List Making} {compiler : Compiler}

theorem Traced.of_frame (traced : Traced past compiler) {other : Compiler}
    (same : other.frame = compiler.frame) : Traced past other := by
  intro target
  rw [Compiler.fixed?_congr same]
  exact traced target

theorem Traced.ensureContext (traced : Traced past compiler) (target : String) :
    Traced (past ++ compiler.making target) (endState (compiler.ensureContext target)) := by
  rw [Compiler.run_ensureContext, Compiler.making]
  cases known : (compiler.context? target).isSome with
  | true =>
    rw [if_pos rfl, if_pos rfl, List.append_nil]
    exact traced
  | false =>
    have missing : compiler.fixed? target = none := by
      rw [Compiler.fixed?, Option.map_eq_none_iff]
      exact Option.not_isSome_iff_eq_none.mp (Bool.eq_false_iff.mp known)
    have same := Compiler.frame_makeContext target compiler
    have split (other : String) : contextsMade other (past ++ [⟨target, compiler⟩]) =
        contextsMade other past ++ (if target = other then
          (⟨target, compiler⟩ : Making).context?.map Context.fixed else none).toList := by
      rw [contextsMade, List.filterMap_append]
      rfl
    rw [if_neg Bool.false_ne_true, if_neg Bool.false_ne_true]
    cases made : Compiler.makeContext target compiler with
    | error failure next =>
      rw [made] at same
      change next.frame = compiler.frame at same
      have failed : (⟨target, compiler⟩ : Making).context? = none := by
        rw [Making.context?, Making.result, made]
      intro other
      have before := traced.of_frame same other
      rw [split, failed, Option.map_none, ite_self, Option.toList_none, List.append_nil]
      exact before
    | ok context next =>
      rw [made] at same
      change next.frame = compiler.frame at same
      have succeeded : (⟨target, compiler⟩ : Making).context? = some context := by
        rw [Making.context?, Making.result, made]
      intro other
      have before := traced.of_frame same other
      rw [split, succeeded, ← before]
      change (Compiler.fixed? { next with contexts := next.contexts ++ [(target, context)] }
        other).toList = _
      rw [Compiler.fixed?_append]
      by_cases here : other = target
      · subst here
        rw [Compiler.fixed?_congr same, missing]
        simp
      · rw [if_neg here, if_neg (Ne.symm here)]
        simp

/-- Contexts are made one after the other, up to the first failure. -/
theorem Traced.forM (traced : Traced past compiler) (targets : List String) :
    Traced (past ++ Compiler.makingsFor targets compiler)
      (endState (targets.forM Compiler.ensureContext compiler)) := by
  induction targets generalizing past compiler with
  | nil =>
    rw [Compiler.makingsFor, List.append_nil]
    exact traced
  | cons target targets ih =>
    have first := traced.ensureContext target
    rw [Compiler.makingsFor, ← List.append_assoc]
    change Traced _ (endState ((Compiler.ensureContext target >>= fun _ =>
      targets.forM Compiler.ensureContext) compiler))
    rw [run_bind]
    cases ran : compiler.ensureContext target with
    | ok _ next =>
      rw [ran] at first
      exact ih first
    | error failure next =>
      rw [ran] at first
      rw [List.append_nil]
      exact first

/-- Making the contexts that are missing. -/
theorem Traced.ensureContexts (traced : Traced past compiler) :
    Traced (past ++ compiler.makings) (endState (compiler.ensureContexts)) := by
  rw [Compiler.makings, Compiler.ensureContexts_eq]
  cases compiler.setup? with
  | none =>
    rw [List.append_nil]
    exact traced
  | some setup =>
    have made := traced.forM setup.activeTargets
    dsimp only
    cases ran : setup.activeTargets.forM Compiler.ensureContext compiler with
    | ok _ next =>
      rw [ran] at made
      exact made
    | error failure next =>
      rw [ran] at made
      exact made

end Traces

section Failures

variable {compiler next : Compiler} {failure : Failure}

private theorem exists_of_forM_eq_error {targets : List String}
    (failed : targets.forM Compiler.ensureContext compiler = .error failure next) :
    ∃ making ∈ Compiler.makingsFor targets compiler, ∃ later,
      making.result = .error failure later := by
  induction targets generalizing compiler with
  | nil => cases failed
  | cons target targets ih =>
    change (Compiler.ensureContext target >>= fun _ =>
      targets.forM Compiler.ensureContext) compiler = _ at failed
    rw [run_bind] at failed
    rw [Compiler.makingsFor]
    cases ran : compiler.ensureContext target with
    | ok _ middle =>
      rw [ran] at failed
      obtain ⟨making, member, later⟩ := ih failed
      exact ⟨making, List.mem_append_right _ member, later⟩
    | error failure' middle =>
      rw [ran] at failed
      cases failed
      rw [Compiler.run_ensureContext] at ran
      cases known : (compiler.context? target).isSome with
      | true =>
        rw [known] at ran
        cases ran
      | false =>
        rw [known, if_neg Bool.false_ne_true] at ran
        refine ⟨⟨target, compiler⟩, List.mem_append_left _ ?_, ?_⟩
        · rw [Compiler.making, known]
          exact List.mem_singleton_self _
        · cases made : Compiler.makeContext target compiler with
          | ok context later =>
            rw [made] at ran
            cases ran
          | error failure' later =>
            rw [made] at ran
            cases ran
            exact ⟨_, made⟩

/-- Contexts cannot be made because an addon raised a failure, or the compiler did. -/
theorem isOwn_or_throws_of_ensureContexts
    (failed : compiler.ensureContexts = .error failure next) :
    failure.IsOwn ∨ ∃ making ∈ compiler.makings, making.Throws failure := by
  rw [Compiler.ensureContexts_eq] at failed
  rw [Compiler.makings]
  cases configured : compiler.setup? with
  | none =>
    rw [configured] at failed
    cases failed
    exact .inl trivial
  | some setup =>
    rw [configured] at failed
    dsimp only at failed
    cases ran : setup.activeTargets.forM Compiler.ensureContext compiler with
    | ok _ later =>
      rw [ran] at failed
      cases failed
    | error failure' later =>
      rw [ran] at failed
      cases failed
      obtain ⟨making, member, _, raised⟩ := exists_of_forM_eq_error ran
      rcases making.spec.2 _ _ raised with own | throws
      · exact .inl own
      · exact .inr ⟨making, member, throws⟩

end Failures

end Recast.Build
