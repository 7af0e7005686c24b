import Recast.Proofs.Build.Sweeping

/-! # The root files of a compiler

A context of a compiler goes back to the making in which it got its first root files. Since then
root files were only added at its end, whatever the compiler lived through, so each pass of its
target compiles every root file once (`roots_swept_once`).
-/

namespace Recast.Build

open Recast.Emit

/-- A compiler has a context, up to root files that were added at its end since. -/
def Compiler.Leads (start : Compiler) (target : String) (context : Context) : Prop :=
  ∃ first roots, start.context? target = some first ∧ first.roots <+: roots ∧
    context = { first with roots := roots }

/-- A making made a context, up to root files that were added at its end since. -/
def Making.Leads (making : Making) (context : Context) : Prop :=
  ∃ made roots, making.context? = some made ∧ made.roots <+: roots ∧
    context = { made with roots := roots }

theorem Making.Leads.add {making : Making} {context : Context} {roots : List Path}
    (leads : making.Leads context) (grown : context.roots <+: roots) :
    making.Leads { context with roots := roots } := by
  obtain ⟨made, known, succeeded, before, rfl⟩ := leads
  exact ⟨made, roots, succeeded, before.trans grown, rfl⟩

namespace Compiler

variable {compiler : Compiler}

theorem contexts_makeContext (target : String) (compiler : Compiler) :
    (endState (makeContext target compiler)).contexts = compiler.contexts := by
  cases configured : compiler.setup? with
  | none =>
    rw [run_makeContext_of_none configured]
    rfl
  | some setup =>
    change (endState (⟨target, compiler⟩ : Making).result).contexts = _
    rw [Making.result_eq configured]
    split
    · rfl
    · rw [run_addonsFor configured, activate]
      split <;> rfl

/-- Behind the making of a context there is this context, if it succeeded, and those that there
were. -/
theorem context?_ensureContext (target other : String) (compiler : Compiler) :
    (endState (ensureContext target compiler)).context? other =
      (compiler.context? other).or
        (if other = target then (⟨target, compiler⟩ : Making).context? else none) := by
  rw [run_ensureContext, Making.context?, Making.result]
  have same := contexts_makeContext target compiler
  by_cases here : other = target
  · subst here
    cases known : compiler.context? other with
    | some context => simpa using known
    | none =>
      simp only [Option.isSome_none, Bool.false_eq_true, if_false, if_true, Option.none_or]
      cases made : makeContext other compiler with
      | ok context next =>
        rw [made] at same
        change (next.contexts ++ [(other, context)]).lookup other = some context
        rw [show next.contexts = compiler.contexts from same, List.lookup_append,
          show compiler.contexts.lookup other = none from known]
        simp
      | error failure next =>
        rw [made] at same
        change next.contexts.lookup other = none
        rw [show next.contexts = compiler.contexts from same]
        exact known
  · rw [if_neg here, Option.or_none]
    split
    · rfl
    · cases made : makeContext target compiler with
      | ok context next =>
        rw [made] at same
        have apart : (other == target) = false := by simpa using here
        change (next.contexts ++ [(target, context)]).lookup other = compiler.contexts.lookup other
        rw [show next.contexts = compiler.contexts from same, List.lookup_append, List.lookup_cons,
          apart]
        simp
      | error failure next =>
        rw [made] at same
        exact congrArg (List.lookup other) same

/-- Making contexts leaves those as they are that there are. -/
theorem keeps_ensureContexts (compiler : Compiler) :
    ∀ target context, compiler.context? target = some context →
      (endState compiler.ensureContexts).context? target = some context := by
  intro target context known
  have kept (other : String) :
      Preserves (fun compiler => compiler.context? target = some context)
        (ensureContext other) := by
    intro compiler known
    rw [context?_ensureContext, known]
    rfl
  have all : Preserves (fun compiler => compiler.context? target = some context) ensureContexts :=
    preserves_setup.bind fun setup => (Preserves.forM fun other _ => kept other).bind fun _ =>
      Preserves.modify fun _ known => known
  exact all compiler known

end Compiler

/-- A compiler has only contexts that were made, up to root files that were added since, each in
order when it was made. -/
structure Compiler.Stems (current : Path) (makings : List Making) (compiler : Compiler) : Prop where
  leads : ∀ target context, compiler.context? target = some context →
    ∃ making ∈ makings, making.target = target ∧ making.Leads context
  began : ∀ making ∈ makings, (growing current fun _ _ => True).Holds making.compiler

namespace Compiler.Stems

open Compiler

variable {current : Path} {past : List Making} {compiler : Compiler} {setup : Setup}

theorem ensureContext (stems : compiler.Stems current past)
    (holds : (growing current fun _ _ => True).Holds compiler) (target : String) :
    (endState (ensureContext target compiler)).Stems current (past ++ compiler.making target) := by
  refine ⟨fun other context known => ?_, fun making member => ?_⟩
  · rw [context?_ensureContext] at known
    rcases Option.or_eq_some_iff.mp known with old | ⟨missing, fresh⟩
    · obtain ⟨making, member, leads⟩ := stems.leads other context old
      exact ⟨making, List.mem_append_left _ member, leads⟩
    · split at fresh
      · next here =>
        subst here
        refine ⟨⟨other, compiler⟩, List.mem_append_right _ ?_, rfl, context, context.roots, fresh,
          List.prefix_refl _, rfl⟩
        simp [Compiler.making, missing]
      · cases fresh
  · rcases List.mem_append.mp member with earlier | now
    · exact stems.began making earlier
    · unfold Compiler.making at now
      split at now
      · cases now
      · exact List.mem_singleton.mp now ▸ holds

theorem forM (stems : compiler.Stems current past)
    (lasts : (growing current fun _ _ => True).Over setup compiler) (targets : List String) :
    (endState (targets.forM Compiler.ensureContext compiler)).Stems current
      (past ++ makingsFor targets compiler) := by
  induction targets generalizing past compiler with
  | nil =>
    rw [makingsFor, List.append_nil]
    exact stems
  | cons target targets ih =>
    have first := stems.ensureContext lasts.1 target
    have kept := Regime.preserves_over_ensureContext ((lasting_growing current).grounds setup)
      target compiler lasts
    rw [makingsFor, ← List.append_assoc]
    change (endState ((Compiler.ensureContext target >>= fun _ =>
      targets.forM Compiler.ensureContext) compiler)).Stems current _
    rw [run_bind]
    cases ran : Compiler.ensureContext target compiler with
    | ok _ next =>
      rw [ran] at first kept
      exact ih first kept
    | error failure next =>
      rw [ran] at first
      rw [List.append_nil]
      exact first

theorem ensureContexts (stems : compiler.Stems current past)
    (holds : (growing current fun _ _ => True).Holds compiler) :
    (endState compiler.ensureContexts).Stems current (past ++ compiler.makings) := by
  rw [makings, ensureContexts_eq]
  cases configured : compiler.setup? with
  | none =>
    rw [List.append_nil]
    exact stems
  | some setup =>
    have made := stems.forM ⟨holds, setup.registry, configured⟩ setup.activeTargets
    dsimp only
    cases ran : setup.activeTargets.forM Compiler.ensureContext compiler with
    | ok _ next =>
      rw [ran] at made
      exact ⟨made.leads, made.began⟩
    | error failure next =>
      rw [ran] at made
      exact made

end Compiler.Stems

/-- The compiler with which an action goes on that sets no options, once it has ensured the contexts
that it needs. -/
def Action.ensured (action : Action) (compiler : Compiler) : Compiler :=
  if action.ensures then endState compiler.ensureContexts else compiler

section Running

variable {current : Path} {compiler : Compiler} {action : Action}

theorem Action.Tends.allows (tends : action.Tends) (T : String → Context → Prop) :
    (growing current T).Allows action := by
  cases action with
  | edit change => exact fun workspace kept => growing_abides (tends workspace.system) kept
  | configure setup => exact tends
  | _ => trivial

theorem Action.holds_ensured (holds : (growing current fun _ _ => True).Holds compiler) :
    (growing current fun _ _ => True).Holds (action.ensured compiler) := by
  unfold ensured
  split
  · exact Regime.preserves_ensureContexts (lasting_growing current) compiler holds
  · exact holds

/-- Behind an action that sets no options there are the contexts that it ensured, up to root files
that it added. -/
theorem Action.leads_ensured (stays : action.Stays) (tends : action.Tends)
    (holds : (growing current fun _ _ => True).Holds compiler) :
    ∀ target context, (action.run compiler).context? target = some context →
      (action.ensured compiler).Leads target context := by
  have ensured := action.holds_ensured holds
  have made : (growing current (action.ensured compiler).Leads).Holds (action.ensured compiler) :=
    ⟨ensured.workspace, fun target context known =>
      let ⟨good, spread, _⟩ := ensured.contexts target context known
      ⟨good, spread, context, context.roots, known, List.prefix_refl _, rfl⟩, ensured.registry⟩
  have lawful : (growing current (action.ensured compiler).Leads).Lawful :=
    lawful_growing fun _ _ roots ⟨first, before, known, grown, same⟩ further => by
      subst same
      exact ⟨first, roots, known, grown.trans further, rfl⟩
  have kept := Regime.run_of_made lawful
    (fun workspace kept => growing_abides workspace.abides_closeWatches kept) stays
    (tends.allows _) made fun _ _ => trivial
  exact fun target context known => (kept.1.contexts target context known).2.2

/-- A context that there was before an action is there behind it, with more root files at its
end. -/
theorem exists_grown_of_run (stays : action.Stays) (tends : action.Tends)
    (holds : (growing current fun _ _ => True).Holds compiler) {target : String}
    {context : Context} (known : compiler.context? target = some context) :
    ∃ roots, context.roots <+: roots ∧
      (action.run compiler).context? target = some { context with roots := roots } := by
  obtain ⟨roots, found⟩ := Compiler.exists_context?_run stays known
  have still : (action.ensured compiler).context? target = some context := by
    unfold Action.ensured
    split
    · exact Compiler.keeps_ensureContexts compiler target context known
    · exact known
  obtain ⟨first, grown, here, further, same⟩ :=
    action.leads_ensured stays tends holds target _ found
  rw [still] at here
  cases here
  have same : roots = grown := congrArg Context.roots same
  exact ⟨roots, same ▸ further, found⟩

theorem Compiler.Stems.run {past : List Making} (stems : compiler.Stems current past)
    (tends : action.Tends) (holds : (growing current fun _ _ => True).Holds compiler) :
    (action.run compiler).Stems current (action.makingsBehind past compiler) := by
  by_cases sets : ∃ setup, action = .configure setup
  · obtain ⟨setup, rfl⟩ := sets
    exact ⟨fun target context known => (by cases known),
      fun _ member => absurd member List.not_mem_nil⟩
  · have stays : action.Stays := fun setup same => sets ⟨setup, same⟩
    have ensured :
        (action.ensured compiler).Stems current (action.makingsBehind past compiler) := by
      rw [makingsBehind_eq stays, Action.ensured]
      split
      · exact stems.ensureContexts holds
      · exact stems
    refine ⟨fun target context known => ?_, ensured.began⟩
    obtain ⟨first, roots, here, grown, rfl⟩ := action.leads_ensured stays tends holds target _ known
    obtain ⟨making, member, named, leads⟩ := ensured.leads target first here
    exact ⟨making, member, named, leads.add grown⟩

theorem Compiler.Stems.runAll {past : List Making} (stems : compiler.Stems current past)
    {actions : List Action} (tends : ∀ action ∈ actions, action.Tends)
    (holds : (growing current fun _ _ => True).Holds compiler) :
    (compiler.runAll actions).Stems current (makingsSince past actions compiler) := by
  induction actions generalizing past compiler with
  | nil => exact stems
  | cons action actions ih =>
    have first := tends action (List.mem_cons_self ..)
    have kept := Regime.lives_action (lasting_growing current) (first.allows _) holds
      fun _ _ => trivial
    exact ih (stems.run first holds)
      (fun other member => tends other (List.mem_cons_of_mem _ member))
      kept.1

end Running

/-- Addons that are activated one after the other only add root files. -/
theorem prefix_of_activates {addons : List Addon} {first last : Activation}
    (activates : Activates addons first last) (grow : ∀ addon ∈ addons, addon.Grows) :
    first.context.roots <+: last.context.roots := by
  induction activates with
  | nil => exact List.prefix_refl _
  | @cons addon addons first middle last activated others ih =>
    have grown := (grow addon (List.mem_cons_self ..) first).1.isPrefix
    rw [activated] at grown
    exact grown.trans (ih fun other member => grow other (List.mem_cons_of_mem _ member))

/-- A context that is made begins with the root files that its project has at first. -/
theorem Making.begins {current : Path} {making : Making} {made : Context}
    (holds : (growing current fun _ _ => True).Holds making.compiler)
    (succeeded : making.context? = some made) :
    ∃ setup initial, making.compiler.setup? = some setup ∧
      setup.project.Begins making.compiler.workspace.system setup.projectRoot initial ∧
      initial <+: made.roots := by
  obtain ⟨setup, initial, workspace, last, configured, computed, activates⟩ :=
    making.spec.1 made succeeded
  refine ⟨setup, initial, configured, Project.begins_of_rootFiles holds.workspace.1 computed,
    prefix_of_activates activates fun addon member => ?_⟩
  rw [Making.addons, configured] at member
  exact ((holds.registry setup configured).addonsFor _ _).1 addon member

/-- What is known of the root files of a context: no two name the same, from an absolute directory
they lead to themselves, and the first of them are those that the project had when the context was
made. -/
structure Context.Rooted (context : Context) (target : String) (makings : List Making)
    (system : Files.System) : Prop where
  apart : context.roots.Pairwise fun a b => b.same a = false
  fixed : system.current.rooted = true → ∀ root ∈ context.roots, system.resolve root = root
  begun : ∃ making ∈ makings, making.target = target ∧ ∃ setup made initial,
    making.compiler.setup? = some setup ∧ making.context? = some made ∧
    made.fixed = context.fixed ∧
    setup.project.Begins making.compiler.workspace.system setup.projectRoot initial ∧
    initial <+: made.roots ∧ made.roots <+: context.roots

/-- Whatever a compiler lives through with addons that only add root files: the root files of a
context begin with those of the project, no two name the same, and whatever happens next more are
added only behind them. A pass of the target ends when its callbacks add root files out of a list
only, and unless it fails it compiles the root files as they stand at its end, in order and each
once. -/
theorem roots_swept_once {system : Files.System} (sorted : system.Sorted) (limit : Nat)
    {actions : List Action} (tends : ∀ action ∈ actions, action.Tends) :
    let start : Compiler := { Compiler.ofSystem system with rootLimit := limit }
    let compiler := start.runAll actions
    ∀ target context, compiler.context? target = some context →
      context.Rooted target (makingsSince [] actions start) compiler.workspace.system ∧
      (∀ action : Action, action.Stays → action.Tends → ∃ roots, context.roots <+: roots ∧
        (action.run compiler).context? target = some { context with roots := roots }) ∧
      ∀ (inputs : List Path) workspace force,
        context.PreparesIn (Session.Grows context.projectRoot (· ∈ inputs)) →
        context.SweepsOnce inputs.length force ⟨workspace, context.roots⟩ := by
  intro start compiler target context known
  have began : (growing system.current fun _ _ => True).Holds start :=
    ⟨⟨sorted, rfl⟩, fun _ _ known => (by cases known), fun _ same => (by cases same)⟩
  have holds : (growing system.current fun _ _ => True).Holds compiler :=
    (Regime.lives_history (lasting_growing system.current)
      (fun action member => (tends action member).allows _) began fun _ _ => trivial).1
  have stems : compiler.Stems system.current (makingsSince [] actions start) :=
    Compiler.Stems.runAll ⟨fun _ _ known => (by cases known),
      fun _ member => absurd member List.not_mem_nil⟩ tends began
  obtain ⟨_, spread, _⟩ := holds.contexts target context known
  have here : compiler.workspace.system.current = system.current := holds.workspace.2
  refine ⟨⟨spread.apart, fun absolute => ?_, ?_⟩,
    fun action stays tends => exists_grown_of_run stays tends holds known,
    fun inputs workspace force prepares => Context.sweepsOnce prepares force spread.apart⟩
  · rw [here] at absolute
    unfold Files.System.resolve
    rw [here]
    exact spread.fixed absolute
  · obtain ⟨making, member, named, made, roots, succeeded, grown, rfl⟩ :=
      stems.leads target context known
    obtain ⟨setup, initial, configured, begins, before⟩ :=
      Making.begins (stems.began making member) succeeded
    exact ⟨making, member, named, setup, made, initial, configured, succeeded, rfl, begins, before,
      grown⟩

section Spelling

/-- Two spellings of one file. -/
def spelledInputs : List Path := [⟨false, ["lib", "..", "g.ts"]⟩, ⟨true, ["p", "g.ts"]⟩]

/-- An addon that adds a file again and again, in two spellings. -/
def spellingAddon : Addon where
  name := "spelling"
  activate := Activation.registerGenerator fun scope _ _ =>
    spelledInputs.forM fun input => discard (scope.addInput input)

def spelledSetup : Setup where
  projectRoot := ⟨true, ["p"]⟩
  project := { files := [⟨false, ["a.ts"]⟩], includes := [⟨false, ["src"]⟩] }
  transpileOnly := true
  registry :=
    { explicit := [], project? := none, resolve := fun _ _ _ => .error .notConfigured,
      entries := [("spelling", .loaded spellingAddon)] }

def spelledSystem : Files.System :=
  .memory ((((Files.MemoryTree.new ⟨true, []⟩ true).write ⟨true, ["p", "a.ts"]⟩
    "let a = 1;").write ⟨true, ["p", "src", "c.ts"]⟩ "let c = 1;").write
      ⟨true, ["p", "src", "b.ts"]⟩ "let b = 1;")

private theorem follows_spelling (scope : Scope) {P : Path → Prop}
    (fit : ∀ input ∈ spelledInputs, P input) :
    Follows (Session.Grows scope.projectRoot P)
      (spelledInputs.forM fun input => discard (scope.addInput input)) :=
  .forM fun input member => .discard (grows_addInput scope (fit input member))

private theorem grows_spellingAddon : spellingAddon.Grows := fun activation =>
  ⟨.refl activation.session, fun growing =>
    growing.withGenerator fun _ _ => follows_spelling _ fun _ _ => trivial⟩

private theorem governs_spelling : Governs Cache.Stays (· = spellingAddon) fun _ context =>
    context.PreparesIn (Session.Grows context.projectRoot (· ∈ spelledInputs)) where
  cache := by
    rintro _ rfl
    exact fun _ => rfl
  bare _ _ _ _ := Context.preparesIn_bare ..
  activated := by
    rintro _ rfl target activation prepares
    exact prepares.withGenerator fun _ _ => follows_spelling _ fun _ => id
  withRoots _ _ _ prepares := ⟨prepares.generators, prepares.processors⟩

private theorem all_spelled {A : Addon → Prop} (good : A spellingAddon) :
    spelledSetup.registry.All A :=
  .of_only good rfl fun _ _ _ _ => nofun

/-- The compiler that compiled once. -/
def spelledCompiler : Compiler :=
  (Compiler.ofSystem spelledSystem).runAll [.configure spelledSetup, .compile]

/-- A file that is added in two spellings is one root file behind those of the project, and is
compiled once. -/
theorem roots_swept_once_spelled : ∃ context,
    spelledCompiler.context? "*" = some context ∧
    context.roots = [⟨true, ["p", "a.ts"]⟩, ⟨true, ["p", "src", "b.ts"]⟩,
      ⟨true, ["p", "src", "c.ts"]⟩, ⟨true, ["p", "g.ts"]⟩] ∧
    context.Rooted "*" (makingsSince [] [.configure spelledSetup, .compile]
      (Compiler.ofSystem spelledSystem)) spelledCompiler.workspace.system ∧
    ∀ workspace force, context.SweepsOnce 2 force ⟨workspace, context.roots⟩ := by
  have seen : (spelledCompiler.context? "*").map (·.roots) =
      some [⟨true, ["p", "a.ts"]⟩, ⟨true, ["p", "src", "b.ts"]⟩, ⟨true, ["p", "src", "c.ts"]⟩,
        ⟨true, ["p", "g.ts"]⟩] := by decide +kernel
  obtain ⟨context, known, roots⟩ := Option.map_eq_some_iff.mp seen
  have sorted : spelledSystem.Sorted := by
    refine Files.System.Sorted.write_memory (.write_memory (.write_memory ?_ _ _) _ _) _ _
    exact Files.System.sorted_new _ _
  have tends : ∀ action ∈ [Action.configure spelledSetup, .compile], action.Tends := by
    simpa [Action.Tends] using all_spelled grows_spellingAddon
  have prepares := (Compiler.Holds.runAll governs_spelling
    (by simpa [Action.Brings] using (all_spelled rfl :
      spelledSetup.registry.All (· = spellingAddon)))
    (.ofSystem spelledSystem)).context known
  obtain ⟨rooted, _, swept⟩ := roots_swept_once sorted 1000000 tends "*" context known
  exact ⟨context, known, roots, rooted, fun workspace force => swept _ workspace force prepares⟩

end Spelling

end Recast.Build
