import Recast.Proofs.Build.Mirroring
import Recast.Proofs.Config.Naming

/-! # Targets do not interfere

All targets of a compiler share one cache, one language service, one registry and the files. As long
as nothing that is written gets in the way of a root file, the first pass over all targets gives
what passes over single targets give, one behind the other (`compile_eq_merge`), and a compilation
for one target leaves what the cache knows under another one.
-/

namespace Recast.Build

open Recast.Emit Recast.Files

/-- The options of a call for one target. -/
def Setup.alone (setup : Setup) (target : String) : Setup :=
  { setup with targets := [target] }

/-- The callbacks and outputs of all active targets stay within bounds, and the root files are root
files there. -/
structure Setup.StaysWithin (setup : Setup) (bounds : Bounds) : Prop where
  roots : ∀ roots, setup.project.rootFiles bounds.system setup.projectRoot = .ok roots →
    ∀ root ∈ roots, bounds.roots root
  plans : ∀ roots, setup.project.rootFiles bounds.system setup.projectRoot = .ok roots →
    ∀ target ∈ setup.activeTargets, (setup.contextOf bounds.system roots target).Plans bounds

namespace Setup

variable {setup : Setup} {system : System}

theorem activeTargets_alone {target : String} (active : target ∈ setup.activeTargets) :
    (setup.alone target).activeTargets = [target] :=
  Target.normalize_singleton active

theorem watchesIn_scope (setup : Setup) (system : System) (target : String) :
    (setup.scope system target).WatchesIn system :=
  fun _ => watch?_scope

end Setup

namespace Compiler

variable {setup : Setup} {bounds : Bounds} {roots : List Path}

/-- Without root files there are no contexts. -/
private theorem run_compile_of_error {compiler : Compiler} {target : String} {failure : Failure}
    (configured : compiler.setup? = some setup) (bare : compiler.contexts = [])
    (active : setup.activeTargets = [target])
    (missing : setup.project.rootFiles compiler.workspace.system setup.projectRoot = .error
      failure) :
    ∃ next, compile compiler = .error failure next := by
  have given := run_setup_of_eq configured
  have made : makeContext target compiler = .error failure compiler := by
    unfold makeContext
    rw [run_bind_ok given, run_bind_ok (run_get compiler)]
    dsimp only
    rw [missing]
    rfl
  have ensured : ensureContext target compiler = .error failure compiler := by
    unfold ensureContext context?
    rw [run_bind_ok (run_get compiler), bare]
    exact run_bind_error made
  refine ⟨compiler, run_bind_error ?_⟩
  unfold ensureContexts
  rw [run_bind_ok given, active]
  exact run_bind_error (run_bind_error ensured)

/-- A new compiler with all its contexts. -/
theorem exists_ensured (registers : setup.registry.All Addon.Registers) {system : System}
    (found : setup.project.rootFiles system setup.projectRoot = .ok roots) :
    ∃ middle registry reports, ensureContexts ((ofSystem system).configure setup) = .ok () middle ∧
      middle.setup? = some { setup with registry := registry } ∧
      middle.contexts = setup.contextsOf system roots setup.activeTargets ∧
      middle.workspace = { system := system, reports := reports } ∧
      middle.rootLimit = (ofSystem system).rootLimit := by
  have found' : setup.project.rootFiles ((ofSystem system).configure setup).workspace.system
      setup.projectRoot =
    .ok roots := found
  obtain ⟨registry, reports, ensured⟩ := run_ensureContexts rfl rfl found' registers
  exact ⟨_, registry, reports, ensured, rfl, rfl, rfl, rfl⟩

/-- The first pass of a compiler that has one target. -/
theorem compile_alone (registers : setup.registry.All Addon.Registers) {system : System}
    {target : String} (active : target ∈ setup.activeTargets) {result : PassResult}
    {next : Compiler} (ran : compile ((ofSystem system).configure (setup.alone target)) = .ok
      result next) :
    ∃ roots reports later, setup.project.rootFiles system setup.projectRoot = .ok roots ∧
      (setup.contextOf system roots target).compileAll (ofSystem system).rootLimit false
        ⟨{ system := system, reports := reports }, roots⟩ = .ok result later := by
  have only := Setup.activeTargets_alone active
  cases found : setup.project.rootFiles system setup.projectRoot with
  | error failure =>
    have missing : (setup.alone target).project.rootFiles
        ((ofSystem system).configure (setup.alone target)).workspace.system
      (setup.alone target).projectRoot = .error failure := found
    obtain ⟨next', failed⟩ := run_compile_of_error rfl rfl only missing
    rw [failed] at ran
    cases ran
  | ok roots =>
    have registers' : (setup.alone target).registry.All Addon.Registers := registers
    obtain ⟨middle, registry, reports, ensured, configured, contexts, workspace, limit⟩ :=
      exists_ensured registers' found
    rw [run_compile_of_ensured ensured configured] at ran
    change passes (setup.alone target).activeTargets {} middle = _ at ran
    rw [only] at ran
    have known : middle.context? target = some (setup.contextOf system roots target) := by
      rw [context?, contexts, lookup_contextsOf, only, if_pos (List.mem_singleton_self target)]
      rfl
    refine ⟨roots, reports, ?_⟩
    obtain ⟨pass, _, compiled, ended⟩ := exists_of_passes_cons_eq_ok ran
    cases ended
    obtain ⟨later, given, _⟩ := (compileTarget_eq_ok_iff known).mp compiled
    rw [limit, workspace, Setup.contextOf_roots registers, ← PassResult.empty_merge pass] at given
    exact ⟨later, rfl, given⟩

/-- A compiler on its way through the targets: those that wait have their first contexts, and no
entries. -/
structure Awaits (bounds : Bounds) (setup : Setup) (roots : List Path) (waiting : List String)
    (compiler : Compiler) :
    Prop where
  contexts : ∀ target ∈ waiting, compiler.context? target =
    some (setup.contextOf bounds.system roots target)
  limit : compiler.rootLimit = (ofSystem bounds.system).rootLimit
  reached : bounds.Reaches compiler.workspace.system
  faithful : compiler.workspace.service.Faithful bounds.parsed
  fresh : ∀ target ∈ waiting, ∀ path, compiler.cache.find? ⟨path, target⟩ = none

/-- Every target that waits gets the result that it gets alone. -/
theorem passes_spec (registers : setup.registry.All Addon.Registers) (fair : bounds.Fair)
    (listed : ∀ root ∈ roots, bounds.Lists root) (results : String → PassResult)
    {waiting : List String} (plans : ∀ target ∈ waiting,
      (setup.contextOf bounds.system roots target).Plans bounds)
    (alone : ∀ target ∈ waiting, ∃ reports later,
      (setup.contextOf bounds.system roots target).compileAll (ofSystem bounds.system).rootLimit
        false
        ⟨{ system := bounds.system, reports := reports }, roots⟩ = .ok (results target) later)
    (once : waiting.Nodup) {compiler : Compiler}
      (awaits : Awaits bounds setup roots waiting compiler)
    (result : PassResult) :
    ∃ next, passes waiting result compiler =
      .ok ((waiting.map results).foldl PassResult.merge result) next := by
  induction waiting generalizing compiler result with
  | nil => exact ⟨compiler, rfl⟩
  | cons target waiting ih =>
    let context := setup.contextOf bounds.system roots target
    have here := List.mem_cons_self (a := target) (l := waiting)
    have scope : context.toScope = setup.scope bounds.system target :=
      Setup.contextOf_toScope registers ..
    have same : context.target = target := congrArg Scope.target scope
    have watches : context.toScope.WatchesIn bounds.system := by
      rw [scope]
      exact setup.watchesIn_scope bounds.system target
    obtain ⟨reports, later, ran⟩ := alone target here
    have alike : Alike bounds context.target compiler.cache
        ⟨{ system := bounds.system, reports := reports }, roots⟩ ⟨compiler.workspace, roots⟩ := by
      rw [same]
      refine ⟨rfl, listed, fun path => awaits.fresh target here path, fun _ _ => rfl,
        fun _ _ _ _ found => ?_, ⟨.start, awaits.reached⟩, Service.faithful_empty none,
        awaits.faithful⟩
      cases found
    obtain ⟨later', ran', after⟩ :=
      Context.mirrors_compileAll fair (plans target here) watches _ false _ _ alike _ _ ran
    have compiled : compileTarget target false compiler =
        .ok (results target) (compiler.absorb target later') := by
      refine (compileTarget_eq_ok_iff (awaits.contexts target here)).mpr ⟨later', ?_, rfl⟩
      rw [awaits.limit, Setup.contextOf_roots registers]
      exact ran'
    rw [run_passes_cons compiled]
    obtain ⟨absent, once⟩ := List.nodup_cons.mp once
    have apart : ∀ other ∈ waiting, other ≠ target := fun other member equal =>
      absent (equal ▸ member)
    have next : Awaits bounds setup roots waiting (compiler.absorb target later') := by
      refine ⟨fun other member => ?_, awaits.limit, after.reached.2, after.faithful.2,
        fun other member path => ?_⟩
      · rw [context?_absorb, if_neg (apart other member)]
        exact awaits.contexts other (List.mem_cons_of_mem _ member)
      · have kept := after.others ⟨path, other⟩ (by rw [same]; exact apart other member)
        exact kept.trans (awaits.fresh other (List.mem_cons_of_mem _ member) path)
    exact ih (fun other member => plans other (List.mem_cons_of_mem _ member))
      (fun other member => alone other (List.mem_cons_of_mem _ member)) once next _

end Compiler

/-- An addon that leaves the cache alone, and the name of the target as it is. -/
structure Addon.KeepsTarget (addon : Addon) : Prop extends addon.KeepsCache where
  target : ∀ activation, (endState (addon.activate activation)).context.target =
    activation.context.target

theorem governs_keepsTarget :
    Governs Cache.Stays Addon.KeepsTarget fun target context => context.KeepsCache ∧
      context.target = target where
  cache _ keeps := keeps.cache
  bare setup system target roots := ⟨governs_keepsCache.bare setup system target roots, rfl⟩
  activated _ keeps _ activation good :=
    ⟨keeps.context activation good.1, (keeps.target activation).trans good.2⟩
  withRoots _ _ roots good := ⟨good.1.withRoots roots, good.2⟩

/-- A compilation for one target leaves every entry of the others. -/
theorem Compiler.leaves_find?_compileFile {compiler : Compiler}
    (holds : compiler.Holds Addon.KeepsTarget fun target context =>
      context.KeepsCache ∧ context.target = target)
    {target : String} {key : CacheKey} (apart : key.target ≠ target) (path : Path) (force : Bool) :
    (endState (compileFile target path force compiler)).cache.find? key =
      compiler.cache.find? key := by
  unfold compileFile
  rw [run_inContext]
  cases known : compiler.context? target with
  | none => rfl
  | some context =>
    obtain ⟨keeps, same⟩ := holds.context known
    have elsewhere : key.same ⟨path, context.target⟩ = false :=
      CacheKey.same_eq_false_of_target_ne (by rw [same]; exact apart)
    have left := Context.leaves_find?_compileFile elsewhere keeps force
      ⟨compiler.workspace, context.roots⟩
    dsimp only
    cases ran : context.compileFile path force ⟨compiler.workspace, context.roots⟩
      <;> rw [ran] at left <;> exact left

/-- The first pass over all targets is the passes over single targets by new compilers, one behind
the other, if those succeed. In no state of a compiler does the compilation of a file change an
entry of another target. -/
theorem compile_eq_merge {setup : Setup} {bounds : Bounds} {actions : List Action}
    (registers : setup.registry.All Addon.Registers) (within : setup.StaysWithin bounds)
    (fair : bounds.Fair) (brings : ∀ action ∈ actions, action.Brings Addon.KeepsTarget) :
    (∀ results : String → PassResult,
      (∀ target ∈ setup.activeTargets, ∃ next,
        Compiler.compile ((Compiler.ofSystem bounds.system).configure (setup.alone target)) =
          .ok (results target) next) →
      ∃ next, Compiler.compile ((Compiler.ofSystem bounds.system).configure setup) =
        .ok ((setup.activeTargets.map results).foldl PassResult.merge {}) next) ∧
    ∀ (system : System) (target : String) (path : Path) (force : Bool) (key : CacheKey),
      key.target ≠ target →
      let compiler := (Compiler.ofSystem system).runAll actions
      (endState (Compiler.compileFile target path force compiler)).cache.find? key =
        compiler.cache.find? key := by
  refine ⟨fun results alone => ?_, fun system target path force key apart => ?_⟩
  · obtain ⟨first, rest, active⟩ := List.exists_cons_of_ne_nil setup.activeTargets_ne_nil
    have member : first ∈ setup.activeTargets := by
      rw [active]
      exact List.mem_cons_self ..
    obtain ⟨_, succeeded⟩ := alone first member
    obtain ⟨roots, _, _, found, _⟩ := Compiler.compile_alone registers member succeeded
    obtain ⟨middle, registry, reports, ensured, configured, contexts, workspace, limit⟩ :=
      Compiler.exists_ensured registers found
    rw [Compiler.run_compile_of_ensured ensured configured]
    have listed : ∀ root ∈ roots, bounds.Lists root := fun root known =>
      ⟨within.roots roots found root known, Project.isNormal_of_mem_rootFiles found known⟩
    have awaits : Compiler.Awaits bounds setup roots setup.activeTargets middle := by
      refine ⟨fun target known => ?_, limit, by rw [workspace]; exact .start, ?_,
        fun target known path => ?_⟩
      · rw [Compiler.context?, contexts, Compiler.lookup_contextsOf, if_pos known]
      · rw [workspace]
        exact Service.faithful_empty none
      · unfold Compiler.cache
        rw [workspace]
        rfl
    refine Compiler.passes_spec registers fair listed results (within.plans roots found)
      (fun target known => ?_)
      (Compiler.nodup_activeTargets setup) awaits {}
    obtain ⟨_, ran⟩ := alone target known
    obtain ⟨roots', reports, later, found', compiled⟩ := Compiler.compile_alone registers known ran
    cases found.symm.trans found'
    exact ⟨reports, later, compiled⟩
  · exact Compiler.leaves_find?_compileFile
      ((Compiler.Holds.ofSystem system).runAll governs_keepsTarget brings) apart path force

section Pair

/-- The answer of the first pass of a new compiler, if it has one. -/
def firstPass? (system : System) (setup : Setup) : Option PassResult :=
  match Compiler.compile ((Compiler.ofSystem system).configure setup) with
  | .ok result _ => some result
  | .error _ _ => none

theorem exists_of_isSome_firstPass? {system : System} {setup : Setup}
    (some : (firstPass? system setup).isSome = true) :
    ∃ next, Compiler.compile ((Compiler.ofSystem system).configure setup) =
      .ok ((firstPass? system setup).getD {}) next := by
  unfold firstPass? at some ⊢
  cases ran : Compiler.compile ((Compiler.ofSystem system).configure setup) with
  | ok result next => exact ⟨next, rfl⟩
  | error failure next => simp [ran] at some

/-- An addon with a processor that signs every script with the name of the target. -/
def signingAddon : Addon where
  name := "signing"
  activate := Activation.registerProcessor fun scope _ text => pure (text ++ "//" ++ scope.target)

def pairPath : Path := ⟨true, ["a.ts"]⟩

/-- A target whose types are checked and that writes nothing, and one that is only transpiled and
writes. -/
def pairSetup : Setup where
  projectRoot := ⟨true, []⟩
  project :=
    { files := [pairPath]
      targets := some [("node", { transpileOnly := some true }), ("web", { write := some false })] }
  targets := ["web,node"]
  registry :=
    { explicit := [], project? := none, resolve := fun _ _ _ => .error .notConfigured,
      entries := [("signing", .loaded signingAddon)] }

def pairBounds : Bounds where
  system := .memory ((MemoryTree.new ⟨true, []⟩ false).write pairPath "let a = 1")
  roots path := path = pairPath
  texts _ text := text = "let a = 1//web" ∨ text = "let a = 1//node"
  writes path _ := path = ⟨true, ["a.js"]⟩ ∨ path = ⟨true, ["a.js.map"]⟩

private theorem all_signingAddon {A : Addon → Prop} (signing : A signingAddon) :
    pairSetup.registry.All A :=
  .of_only signing rfl fun _ _ _ _ => nofun

private theorem registers_signingAddon : signingAddon.Registers where
  activates := ⟨signingAddon.register, fun _ => rfl⟩
  scope _ := rfl
  roots _ := rfl

private theorem keepsTarget_signingAddon : signingAddon.KeepsTarget where
  cache _ := rfl
  context _ keeps := keeps.withProcessor fun _ _ => Leaves.pure _
  target _ := rfl

private theorem rootFiles_pair {roots : List Path}
    (found : pairSetup.project.rootFiles pairBounds.system pairSetup.projectRoot = .ok roots) :
    roots = [pairPath] := by
  have listed : pairSetup.project.rootFiles pairBounds.system pairSetup.projectRoot =
      .ok (pairSetup.project.listedRoots pairBounds.system pairSetup.projectRoot) := rfl
  cases listed.symm.trans found
  decide

/-- The context of a target with the addon. -/
private def pairContext (roots : List Path) (target : String) : Context :=
  signingAddon.register { toScope := pairSetup.scope pairBounds.system target, roots := roots }

private theorem contextOf_pair (roots : List Path) (target : String) :
    pairSetup.contextOf pairBounds.system roots target = pairContext roots target := rfl

private theorem all_transformers_pair (roots : List Path) (target : String) :
    (pairContext roots target).transformers.all = [] := rfl

private theorem isPure_pair (roots : List Path) (target : String) :
    (pairContext roots target).IsPure := by
  refine ⟨rfl, fun processor member path source => ?_, fun transformer member => ?_, rfl, rfl, rfl⟩
  · rw [List.mem_singleton.mp member]
    exact .pure _
  · simp [all_transformers_pair] at member

/-- Outputs lie beside the script. -/
private theorem outputPath_pair (roots : List Path) {target : String}
    (active : target = "web" ∨ target = "node") :
    pairPath.outputPath (pairContext roots target).options (pairContext roots target).projectRoot =
      ⟨true, ["a.js"]⟩ := by
  change pairPath.outputPath (pairContext [] target).options (pairContext [] target).projectRoot = _
  rcases active with rfl | rfl <;> decide

private theorem activeTargets_pair : pairSetup.activeTargets = ["web", "node"] := by decide

private theorem plans_pair (roots : List Path) {target : String}
    (active : target = "web" ∨ target = "node") :
    (pairContext roots target).Plans pairBounds := by
  have pure := isPure_pair roots target
  refine ⟨fun root source isRoot read => ?_, fun transformer member => ?_,
    fun processor member => ?_, fun processor member => ?_⟩
  · have here : root = pairPath := isRoot
    subst here
    have text : pairBounds.system.read pairPath = .ok "let a = 1" := rfl
    cases text.symm.trans read
    refine Planned.pure ⟨?_, fun _ journal emission later ran file written => ?_⟩
    · rcases active with rfl | rfl
      · exact .inl rfl
      · exact .inr rfl
    · have quiet := composes_quiet.emits (TransformerSet.quiet_run pure.transformers) pairPath
        ("let a = 1" ++ "//" ++ (pairContext roots target).target)
      rw [quiet.run] at ran
      cases ran
      rcases pure.name_of_mem_emission (fun _ => rfl) written with named | named <;>
        rw [named, outputPath_pair roots active]
      · exact .inl rfl
      · exact .inr rfl
  · simp [all_transformers_pair] at member
  · exact absurd member (List.not_mem_nil (a := processor))
  · exact absurd member (List.not_mem_nil (a := processor))

private theorem staysWithin_pair : pairSetup.StaysWithin pairBounds := by
  refine ⟨fun roots found root member => ?_, fun roots found target active => ?_⟩
  · rw [rootFiles_pair found] at member
    exact List.mem_singleton.mp member
  · rw [contextOf_pair]
    rw [activeTargets_pair] at active
    exact plans_pair roots (by simpa using active)

private theorem fair_pair : pairBounds.Fair := by
  refine Bounds.fair_of_memory rfl (fun path text written root isRoot => ?_)
    fun root text other _ known known' same => ?_
  · have here : root = pairPath := isRoot
    subst here
    rcases written with rfl | rfl <;> decide
  · rcases known with rfl | rfl <;> rcases known' with rfl | rfl
    · rfl
    · exact absurd same (by decide +kernel)
    · exact absurd same (by decide +kernel)
    · rfl

/-- Both targets at once, and a compilation for one of them afterwards. -/
theorem compile_eq_merge_pair :
    (∃ next, Compiler.compile ((Compiler.ofSystem pairBounds.system).configure pairSetup) =
      .ok ((pairSetup.activeTargets.map fun target =>
        (firstPass? pairBounds.system (pairSetup.alone target)).getD {}).foldl PassResult.merge {})
          next) ∧
    let compiler := (Compiler.ofSystem pairBounds.system).runAll [.configure pairSetup, .compile]
    (endState (Compiler.compileFile "web" pairPath true compiler)).cache.find? ⟨pairPath, "node"⟩ =
      compiler.cache.find? ⟨pairPath, "node"⟩ := by
  have brings : ∀ action ∈ [Action.configure pairSetup, .compile],
      action.Brings Addon.KeepsTarget := by
    intro action member
    rcases List.mem_cons.mp member with rfl | member
    · exact all_signingAddon keepsTarget_signingAddon
    · rw [List.mem_singleton.mp member]
      trivial
  obtain ⟨merged, kept⟩ :=
    compile_eq_merge (all_signingAddon registers_signingAddon) staysWithin_pair fair_pair brings
  refine ⟨merged _ fun target active => exists_of_isSome_firstPass? ?_, ?_⟩
  · rw [activeTargets_pair] at active
    simp only [List.mem_cons, List.not_mem_nil, or_false] at active
    rcases active with rfl | rfl
    · decide +kernel
    · decide +kernel
  · exact kept pairBounds.system "web" pairPath true ⟨pairPath, "node"⟩ (by decide)

end Pair

section Nested

/-- Two targets with output directories, one of which has the path of a root file that does not
exist. -/
def nestedSetup : Setup where
  projectRoot := ⟨true, []⟩
  project :=
    { files := [⟨false, ["a.ts"]⟩, ⟨false, ["gen"]⟩]
      targets := some [("node", { options := { outDir := some ⟨false, ["dist"]⟩ } }),
        ("web", { options := { outDir := some ⟨false, ["gen"]⟩ } })] }
  targets := ["web,node"]
  registry := { explicit := [], project? := none, resolve := fun _ _ _ => .error .notConfigured }

/-- A disk with an empty script. -/
def nestedDisk : System :=
  .disk { current := ⟨true, []⟩, root := .directory [("a.ts", .file .empty)], start := [] }

/-- On a disk a written output can make a directory of a path that could not be read. No output is a
root file and all passes over single targets succeed, but the second target is told of something
else than alone. -/
theorem compile_ne_merge_nested :
    let alone target := (firstPass? nestedDisk (nestedSetup.alone target)).getD {}
    nestedSetup.registry.entries = [] ∧
    (∀ target ∈ nestedSetup.activeTargets,
      (∃ next, Compiler.compile
        ((Compiler.ofSystem nestedDisk).configure (nestedSetup.alone target)) =
        .ok (alone target) next) ∧
      ∀ file ∈ (alone target).files,
        ∀ root ∈ nestedSetup.project.listedRoots nestedDisk nestedSetup.projectRoot,
        root.same file.name = false) ∧
    ∃ result next, Compiler.compile ((Compiler.ofSystem nestedDisk).configure nestedSetup) =
      .ok result next ∧ result ≠ (nestedSetup.activeTargets.map alone).foldl PassResult.merge
      {} := by
  intro alone
  have active : nestedSetup.activeTargets = ["web", "node"] := by decide
  refine ⟨rfl, fun target member => ?_, ?_⟩
  · rw [active] at member
    simp only [List.mem_cons, List.not_mem_nil, or_false] at member
    rcases member with rfl | rfl
    · exact ⟨exists_of_isSome_firstPass? (by decide +kernel), by decide +kernel⟩
    · exact ⟨exists_of_isSome_firstPass? (by decide +kernel), by decide +kernel⟩
  · have succeeds : (firstPass? nestedDisk nestedSetup).isSome = true := by decide +kernel
    obtain ⟨next, ran⟩ := exists_of_isSome_firstPass? succeeds
    refine ⟨_, next, ran, fun same => ?_⟩
    have messages := congrArg (fun result : PassResult => result.diagnostics.map (·.message)) same
    revert messages
    decide +kernel

end Nested

end Recast.Build
