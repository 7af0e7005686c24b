import Recast.Proofs.Addons.Callbacks
import Recast.Proofs.Build.Retaining

/-! # What a manifest says about a build

A manifest is not made from the results of a pass: it is read back from the cache when all root
files are compiled. It agrees with the results nevertheless (`manifest_agrees_with_build`), because
each root file is compiled once in a pass and the cache retains the outputs of every entry.

The root files are those at the end of the compilations. One that a result processor adds later is
missing (`manifest_lacks_late_root`).
-/

namespace Recast.Addons.Manifest

open Recast.Build Recast.Emit

/-- A target that writes has its manifest written, with what the cache holds then. -/
theorem run_write {scope : Scope} (writes : scope.writesFiles = true) (file : String)
    (roots : List Path) (session : Session) :
    write file scope roots session =
      Step.write (location scope file) ((ofCache scope session.cache roots).toJson.pretty 0)
        session := by
  unfold write
  rw [if_pos writes]
  exact run_bind_ok (Step.run_workspace session)

/-- How outputs are named in a manifest. -/
def namesOf (scope : Scope) (files : List OutputFile) : List String :=
  files.map fun file => nameOf scope.projectRoot file.name

variable {pass : Pass} {progress : Context.Progress} {later : Session}

/-- A manifest is written as the cache stood when the last root file was compiled, for no result
processor in front of it touches the cache. -/
theorem run_write_of_sweep (keeps : pass.context.KeepsCache)
    (writes : pass.context.writesFiles = true) (swept : pass.sweep = .ok progress later)
    {first rest : List ResultProcessor} {file : String} {middle : Session}
    (registered : pass.context.resultProcessors = first ++ write file :: rest)
    (ran : (first.forM fun processor => processor pass.context.toScope later.roots) later =
      .ok ⟨⟩ middle) :
    write file pass.context.toScope later.roots middle =
      Step.write (location pass.context.toScope file)
        ((ofCache pass.context.toScope (endState pass.result).cache later.roots).toJson.pretty 0)
        middle := by
  have untouched : Leaves Session.cache
      (first.forM fun processor => processor pass.context.toScope later.roots) :=
    .forM fun processor member => keeps.resultProcessors processor
      (registered ▸ List.mem_append_left _ member) later.roots
  have same := untouched later
  rw [ran] at same
  rw [run_write writes, Pass.cache_of_sweep keeps swept]
  exact congrArg (fun cache => Step.write _ ((ofCache _ cache _).toJson.pretty 0) middle) same

section Growing

variable (growing : pass.context.Growing) (swept : pass.sweep = .ok progress later)
include growing swept

/-- A manifest has one entry for each compilation of the pass. -/
theorem ofCache_of_sweep (keeps : pass.context.KeepsCache) (apart : Apart pass.session.roots)
    {life : List Event} (evolves : Evolves {} life later.cache) :
    ofCache pass.context.toScope later.cache later.roots =
      ⟨pass.context.target, pass.compilations.map fun compilation =>
        ⟨nameOf pass.context.projectRoot compilation.path,
          (later.cache.get compilation.path pass.context.target).version,
          namesOf pass.context.toScope (compilation.standing life)⟩⟩ := by
  have compiled : later.roots = pass.compilations.map (·.path) :=
    (Pass.compiles_of_sweep growing swept).roots
  rw [ofCache, compiled, List.map_map]
  congr 1
  refine List.map_congr_left fun compilation member => ?_
  have outputs := Pass.outputs_of_sweep growing keeps apart swept evolves member
  exact congrArg (fun files => ManifestEntry.mk _ _ (namesOf pass.context.toScope files)) outputs

/-- When nothing is skipped, what stands is what the pass gives. -/
theorem flatMap_standing_of_sweep (life : List Event)
    (emitted : ∀ compilation ∈ pass.compilations, ∀ emission next,
      compilation.result = .ok emission next → emission.skipped = false) :
    pass.compilations.flatMap (·.standing life) = progress.files := by
  rw [Pass.files_of_sweep swept]
  refine List.flatMap_congr fun compilation member => ?_
  obtain ⟨_, _, emission, next, ran⟩ :=
    (Pass.compiles_of_sweep growing swept).each compilation member
  unfold Compilation.standing Compilation.files
  rw [ran]
  dsimp only
  rw [emitted compilation member emission next ran, if_neg Bool.false_ne_true]

end Growing

/-- Whatever a compiler lived through with addons that leave the cache alone and only add root
files: when it compiles and a pass of a target that writes gets through its root files, each of them
was compiled once, in order, without a failure, and the manifest that a processor writes behind that
agrees with these compilations. It has one entry for each of them, with the version that the cache
has behind the pass and the outputs that the compilation gave, from the cache or not, or if it was
skipped those of the last one that had some since the cache forgot the file. When none was skipped,
these are together the outputs of the pass. -/
theorem manifest_agrees_with_build {system : Files.System} (sorted : system.Sorted) (limit : Nat)
    {actions : List Action} (tends : ∀ action ∈ actions, action.Tends)
    (brings : ∀ action ∈ actions, action.Brings Addon.KeepsCache) :
    let start : Compiler := { Compiler.ofSystem system with rootLimit := limit }
    ∀ before pass behind, (start.runAll actions).course = before ++ pass :: behind →
      pass.context.writesFiles = true →
      ∀ progress later, pass.sweep = .ok progress later →
        let scope := pass.context.toScope
        let cache := (endState pass.result).cache
        let manifest := ofCache scope cache later.roots
        let life := history actions start ++ (before ++ [pass]).flatMap (·.events)
        pass.result = pass.context.finish progress later ∧
        (∀ first file rest middle, pass.context.resultProcessors = first ++ write file :: rest →
          (first.forM fun processor => processor scope later.roots) later = .ok ⟨⟩ middle →
          write file scope later.roots middle =
            Step.write (location scope file) (manifest.toJson.pretty 0) middle) ∧
        (later.roots = pass.compilations.map (·.path) ∧ Apart later.roots ∧
          pass.session.roots <+: later.roots ∧ later.roots <+: pass.roots) ∧
        (∀ compilation ∈ pass.compilations, ∃ emission next,
          compilation.result = .ok emission next) ∧
        manifest = ⟨scope.target, pass.compilations.map fun compilation =>
          ⟨nameOf scope.projectRoot compilation.path,
            (cache.get compilation.path scope.target).version,
            namesOf scope (compilation.standing life)⟩⟩ ∧
        ((∀ compilation ∈ pass.compilations, ∀ emission next,
            compilation.result = .ok emission next → emission.skipped = false) →
          ∀ answer last, pass.result = .ok answer last →
            manifest.files.flatMap (·.outputs) = namesOf scope answer.files) := by
  intro start before pass behind split writes progress later swept scope cache manifest life
  have blank : start.KeepsCache := (Compiler.Holds.ofSystem system).of_eq rfl rfl
  obtain ⟨passes, _, keeps⟩ := Compiler.evolves_course keeping_keepsCache
    (blank.runAll governs_keepsCache brings) split
  obtain ⟨grows, apart⟩ := Compiler.growing_course sorted limit tends
    (split ▸ List.mem_append_right _ (List.mem_cons_self ..))
  have same : cache = later.cache := Pass.cache_of_sweep keeps swept
  have evolves : Evolves {} life later.cache := by
    have whole : Evolves {} ((history actions start ++ before.flatMap (·.events)) ++ pass.events)
        later.cache :=
      ((evolves_history brings blank).append passes).append (Pass.evolves_of_sweep keeps swept)
    simpa [life] using whole
  have compiles := Pass.compiles_of_sweep grows swept
  have tells := ofCache_of_sweep grows swept keeps apart evolves
  rw [← same] at tells
  refine ⟨Pass.result_of_sweep swept,
    fun first file rest middle registered ran =>
      run_write_of_sweep keeps writes swept registered ran,
    ⟨compiles.roots, Pass.apart_of_sweep grows apart swept, compiles.grown, ?_⟩,
    fun compilation member => (compiles.each compilation member).2.2, tells,
    fun emitted answer last ran => ?_⟩
  · have finishes := Context.follows_finish (overlooks_grows pass.context.projectRoot _).disregards
      grows.finishes progress later
    rw [← Pass.result_of_sweep swept] at finishes
    exact finishes.isPrefix
  · rw [Pass.files_of_result swept ran, ← flatMap_standing_of_sweep grows swept life emitted]
    change (ofCache scope cache later.roots).files.flatMap _ = _
    rw [tells, namesOf, List.map_flatMap, List.flatMap_map]
    rfl

/-- An addon that makes manifests registers the one processor, unless its settings are wrong. -/
theorem endState_activate {name : String} {options : Toml.Table} {addon : Addon}
    (made : manifest name options = .ok addon) (activation : Activation) :
    endState (addon.activate activation) = activation ∨ ∃ file,
      endState (addon.activate activation) = { activation with
        context := { activation.context with
          resultProcessors := activation.context.resultProcessors ++ [write file] } } := by
  cases eq_of_checked made
  have scope : activeScope activation = .ok activation.context.toScope activation := rfl
  dsimp only
  rw [run_bind_ok scope]
  cases textOption name (optionsFor name options activation.context.toScope) "file" with
  | error failure => exact .inl rfl
  | ok file => exact .inr ⟨file.getD defaultFile, rfl⟩

theorem grows_manifest {name : String} {options : Toml.Table} {addon : Addon}
    (made : manifest name options = .ok addon) : addon.Grows := by
  intro activation
  rcases endState_activate made activation with same | ⟨file, same⟩
  · rw [same]
    exact ⟨.refl _, id⟩
  · rw [same]
    refine ⟨.refl _, fun growing => growing.withResultProcessor fun roots => ?_⟩
    unfold write
    split
    · exact Follows.bind (overlooks_grows ..).disregards.workspace fun _ =>
        (overlooks_grows ..).write _ _
    · exact .pure _

section Added

def addedScript : Path := ⟨true, ["p", "a.ts"]⟩

/-- A script that is no root file of the project, and becomes one. -/
def joinedScript : Path := ⟨true, ["p", "g.ts"]⟩

/-- An addon that adds a root file before any other is compiled. -/
def earlyAddon : Addon where
  name := "early"
  activate := Activation.registerGenerator fun scope _ _ => discard (scope.addInput joinedScript)

/-- An addon that adds it when all others are compiled. -/
def lateAddon : Addon where
  name := "late"
  activate := Activation.registerResultProcessor fun scope _ =>
    discard (scope.addInput joinedScript)

/-- An addon is registered, and behind it one that makes manifests. -/
def addedSetup (addon : Addon) : Setup where
  projectRoot := ⟨true, ["p"]⟩
  project := { files := [⟨false, ["a.ts"]⟩] }
  transpileOnly := true
  registry :=
    { explicit := [], project? := none, resolve := fun _ name _ => manifest name [],
      entries := [(addon.name, .loaded addon),
        ("index", .module ⟨true, ["index", "addon.toml"]⟩)] }

def addedSystem : Files.System :=
  .memory (((Files.MemoryTree.new ⟨true, []⟩ true).write addedScript "let a = 1;").write
    joinedScript "let g = 1;")

/-- The manifest of a pass, if it gets through its root files. -/
def ofPass? (pass : Pass) : Option Manifest :=
  match pass.sweep with
  | .ok _ later => some (ofCache pass.context.toScope (endState pass.result).cache later.roots)
  | .error _ _ => none

def addedStart : Compiler := { Compiler.ofSystem addedSystem with rootLimit := 9 }

/-- The first script is broken behind the first build. -/
def brokenActions : List Action :=
  [.configure (addedSetup earlyAddon), .compile,
    .edit fun system => (system.write addedScript "let a = (;").1]

private theorem leaves_cache_joining (scope : Scope) :
    Leaves Session.cache (discard (scope.addInput joinedScript)) :=
  fun session => (Follows.discard (Discreet.addInput scope joinedScript) session).cache

private theorem keepsCache_earlyAddon : earlyAddon.KeepsCache where
  cache _ := rfl
  context _ keeps := keeps.withGenerator fun _ _ => leaves_cache_joining _

private theorem keepsCache_lateAddon : lateAddon.KeepsCache where
  cache _ := rfl
  context _ keeps := keeps.withResultProcessor fun _ => leaves_cache_joining _

private theorem grows_earlyAddon : earlyAddon.Grows := fun activation =>
  ⟨.refl activation.session, fun growing =>
    growing.withGenerator fun _ _ => .discard (grows_addInput _ trivial)⟩

private theorem grows_lateAddon : lateAddon.Grows := fun activation =>
  ⟨.refl activation.session, fun growing =>
    growing.withResultProcessor fun _ => .discard (grows_addInput _ trivial)⟩

private theorem all_added {A : Addon → Prop} {addon : Addon} (good : A addon)
    (manifests : ∀ {name options other}, manifest name options = .ok other → A other) :
    (addedSetup addon).registry.All A := by
  refine ⟨fun name other member => ?_, fun _ _ _ _ made => manifests made⟩
  simp only [addedSetup, List.mem_cons, Prod.mk.injEq, AddonSource.loaded.injEq, List.not_mem_nil,
    or_false, reduceCtorEq, and_false] at member
  exact member.2 ▸ good

/-- Nothing but manifests is made of the results of a pass. -/
def Indexes (context : Context) : Prop :=
  ∀ processor ∈ context.resultProcessors, ∃ file, processor = write file

/-- An addon that leaves the cache alone, and makes nothing but manifests of results. -/
structure IndexesOnly (addon : Addon) : Prop where
  keeps : addon.KeepsCache
  indexes : Preserves (fun activation : Activation => Indexes activation.context) addon.activate

private theorem governs_indexesOnly : Governs Cache.Stays IndexesOnly
    fun _ context => context.KeepsCache ∧ Indexes context where
  cache _ only := only.keeps.cache
  bare setup system target roots :=
    ⟨governs_keepsCache.bare setup system target roots, fun _ member =>
      absurd member List.not_mem_nil⟩
  activated _ only _ activation kept :=
    ⟨only.keeps.context activation kept.1, only.indexes activation kept.2⟩
  withRoots _ _ roots kept := ⟨kept.1.withRoots roots, kept.2⟩

private theorem indexesOnly_manifest {name : String} {options : Toml.Table} {addon : Addon}
    (made : manifest name options = .ok addon) : IndexesOnly addon := by
  refine ⟨keepsCache_manifest made, fun activation indexes => ?_⟩
  rcases endState_activate made activation with same | ⟨file, same⟩
  · rwa [same]
  · rw [same]
    intro processor member
    rcases List.mem_append.mp member with known | fresh
    · exact indexes processor known
    · exact ⟨file, List.mem_singleton.mp fresh⟩

/-- A root file that is skipped keeps its former output in the manifest, and one that is served from
the cache is listed with it. -/
theorem manifest_agrees_with_build_broken :
    addedSystem.Sorted ∧ (∀ action ∈ brokenActions, action.Tends) ∧
    (∀ action ∈ brokenActions, action.Brings Addon.KeepsCache) ∧
    ∃ pass progress later file,
      (addedStart.runAll brokenActions).course = [] ++ pass :: [] ∧
      pass.context.writesFiles = true ∧ pass.sweep = .ok progress later ∧
      pass.context.resultProcessors = [] ++ write file :: [] ∧
      write file pass.context.toScope later.roots later =
        Step.write (location pass.context.toScope file)
          ((⟨"*", [⟨"a.ts", 2, ["a.js"]⟩, ⟨"g.ts", 1, ["g.js"]⟩]⟩ : Manifest).toJson.pretty 0)
          later ∧
      pass.compilations.map (·.outcome) = [.skipped, .served] ∧
      (pass.compilations.map fun compilation => namesOf pass.context.toScope
        (compilation.standing (history brokenActions addedStart ++ pass.events))) =
          [["a.js"], ["g.js"]] := by
  have made : (addedStart.runAll brokenActions).course.map ofPass? =
      [some ⟨"*", [⟨"a.ts", 2, ["a.js"]⟩, ⟨"g.ts", 1, ["g.js"]⟩]⟩] := by decide +kernel
  have seen : (addedStart.runAll brokenActions).course.map (fun pass =>
      (pass.context.writesFiles, pass.context.resultProcessors.length,
        pass.compilations.map (·.outcome))) = [(true, 1, [.skipped, .served])] := by
    decide +kernel
  have sorted : addedSystem.Sorted := by
    refine Files.System.Sorted.write_memory (.write_memory ?_ _ _) _ _
    exact Files.System.sorted_new _ _
  have tends : ∀ action ∈ brokenActions, action.Tends := by
    simpa [brokenActions, Action.Tends] using
      And.intro (all_added grows_earlyAddon grows_manifest) fun system =>
        Files.System.abides_write system _ _
  have brings : ∀ action ∈ brokenActions, action.Brings Addon.KeepsCache := by
    simpa [brokenActions, Action.Brings] using all_added keepsCache_earlyAddon keepsCache_manifest
  obtain ⟨pass, course, index⟩ := List.map_eq_singleton_iff.mp made
  rw [course] at seen
  obtain ⟨writes, count, outcomes⟩ : pass.context.writesFiles = true ∧
      pass.context.resultProcessors.length = 1 ∧
      pass.compilations.map (·.outcome) = [.skipped, .served] := by
    simpa using seen
  have introduces : ∀ action ∈ brokenActions, action.Brings IndexesOnly := by
    simpa [brokenActions, Action.Brings] using
      all_added ⟨keepsCache_earlyAddon, fun _ kept => kept⟩ indexesOnly_manifest
  have blank : addedStart.Holds IndexesOnly
      fun _ context => context.KeepsCache ∧ Indexes context :=
    (Compiler.Holds.ofSystem addedSystem).of_eq rfl rfl
  have course' : (addedStart.runAll brokenActions).course = [] ++ pass :: [] := course
  obtain ⟨_, _, _, only⟩ := Compiler.evolves_course
    (governs_indexesOnly.keeping fun _ _ kept => kept.1)
    (blank.runAll governs_indexesOnly introduces) course'
  obtain ⟨processor, registered⟩ := List.length_eq_one_iff.mp count
  obtain ⟨file, rfl⟩ := only processor (registered ▸ List.mem_singleton.mpr rfl)
  cases swept : pass.sweep with
  | error failure later => simp [ofPass?, swept] at index
  | ok progress later =>
    rw [ofPass?, swept] at index
    obtain ⟨_, written, _, _, tells, _⟩ :=
      manifest_agrees_with_build sorted 9 tends brings [] pass [] course writes progress later swept
    have text := written [] file [] later registered rfl
    rw [Option.some.inj index] at text tells
    have outputs := (congrArg (fun manifest => manifest.files.map (·.outputs)) tells).symm
    rw [List.nil_append, List.flatMap_singleton] at outputs
    dsimp only at outputs
    rw [List.map_map] at outputs
    exact ⟨sorted, tends, brings, pass, progress, later, file, course, writes, swept, registered,
      text, outcomes, outputs⟩

/-- A root file that a result processor adds in front of the manifest is missing in it. -/
theorem manifest_lacks_late_root :
    (∀ action ∈ [Action.configure (addedSetup lateAddon)], action.Tends) ∧
    (∀ action ∈ [Action.configure (addedSetup lateAddon)], action.Brings Addon.KeepsCache) ∧
    ∃ pass manifest, (addedStart.runAll [.configure (addedSetup lateAddon)]).course = [pass] ∧
      pass.context.writesFiles = true ∧ ofPass? pass = some manifest ∧
      ((endState pass.result).workspace.system.read ⟨true, ["p", "manifest.json"]⟩).toOption =
        some (manifest.toJson.pretty 0) ∧
      manifest.files.map (·.source) = ["a.ts"] ∧ pass.roots.map (·.segments) =
        [["p", "a.ts"], ["p", "g.ts"]] := by
  have seen : (addedStart.runAll [.configure (addedSetup lateAddon)]).course.map (fun pass =>
      (pass.context.writesFiles, ofPass? pass,
        ((endState pass.result).workspace.system.read ⟨true, ["p", "manifest.json"]⟩).toOption,
        pass.roots.map (·.segments))) =
      [(true, some ⟨"*", [⟨"a.ts", 1, ["a.js"]⟩]⟩,
        some ((⟨"*", [⟨"a.ts", 1, ["a.js"]⟩]⟩ : Manifest).toJson.pretty 0),
        [["p", "a.ts"], ["p", "g.ts"]])] := by decide +kernel
  obtain ⟨pass, course, told⟩ := List.map_eq_singleton_iff.mp seen
  obtain ⟨writes, index, text, roots⟩ : pass.context.writesFiles = true ∧ _ ∧ _ ∧ _ := by
    simpa using told
  refine ⟨?_, ?_, pass, _, course, writes, index, text, rfl, roots⟩
  · simpa [Action.Tends] using all_added grows_lateAddon grows_manifest
  · simpa [Action.Brings] using all_added keepsCache_lateAddon keepsCache_manifest

end Added

end Recast.Addons.Manifest
