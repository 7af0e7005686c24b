import Recast.Proofs.Build.Serving
import Recast.Proofs.Emit.Agreement
import Recast.Proofs.Path.Outputs

/-! # Where the outputs of a compilation are placed

Nothing looks whether a place is taken before a file is written; the names decide. A compilation
with output gives the output of its file and, for a script with a source map, the map beside it, and
nothing else. So a root file is overwritten exactly when it has one of these places, and two root
files have an output in common exactly when they are mirrored into one directory and get one name
there (`clobbers_iff`).
-/

namespace Recast.Build

open Recast.Emit Recast.Script

namespace Compilation

/-- The emission that a compilation comes to, and the session behind it. -/
def emission? (compilation : Compilation) : Option (Emission × Session) :=
  let ⟨context, path, _, session⟩ := compilation
  if compilation.isServed then none
  else
    match session.workspace.system.read path with
    | .error _ => none
    | .ok source =>
      match context.prepare path source compilation.started with
      | .error _ _ => none
      | .ok text session =>
        match context.emitFile path text
          (session.mapCache (·.update path context.target source text)) with
        | .error _ _ => none
        | .ok emission session => some (emission, session)

/-- The output files that a compilation makes. -/
def produced (compilation : Compilation) : List OutputFile :=
  match compilation.emission? with
  | some (emission, _) => if lacksOutput emission then [] else emission.files
  | none => []

/-- The output files that are handed over to be written, one after the other. -/
def written (compilation : Compilation) : List OutputFile :=
  if compilation.context.writesFiles then compilation.produced else []

/-- Whether a compilation makes an output for some place. -/
def Produces (compilation : Compilation) (path : Path) : Prop :=
  ∃ file ∈ compilation.produced, file.name.same path = true

/-- Whether a compilation hands an output over to be written to some place. -/
def Writes (compilation : Compilation) (path : Path) : Prop :=
  ∃ file ∈ compilation.written, file.name.same path = true

variable {compilation : Compilation} {emission : Emission} {last : Session}

/-- What stands behind an emission. -/
theorem exists_of_emission? (emitted : compilation.emission? = some (emission, last)) :
    ∃ source text session, compilation.isServed = false ∧
      compilation.session.workspace.system.read compilation.path = .ok source ∧
      compilation.context.prepare compilation.path source compilation.started =
        .ok text session ∧
      compilation.context.emitFile compilation.path text (session.mapCache
        (·.update compilation.path compilation.context.target source text)) =
          .ok emission last := by
  unfold emission? at emitted
  dsimp only at emitted
  split at emitted
  · cases emitted
  · next missed =>
    split at emitted
    · cases emitted
    · next source read =>
      split at emitted
      · cases emitted
      · next text session prepared =>
        split at emitted
        · cases emitted
        · next ran =>
          cases emitted
          exact ⟨source, text, session, by simpa using missed, read, prepared, ran⟩

theorem produced_of_emission? (emitted : compilation.emission? = some (emission, last))
    (counts : lacksOutput emission = false) : compilation.produced = emission.files := by
  unfold produced
  rw [emitted]
  dsimp only
  rw [counts, if_neg Bool.false_ne_true]

/-- A compilation with output has what it produced recorded, and what is to be written written. -/
theorem result_of_emission? (emitted : compilation.emission? = some (emission, last))
    (counts : lacksOutput emission = false) :
    compilation.result =
      ((compilation.written.forM fun file => Step.write file.name file.diskText) >>=
        fun _ => pure { emission with skipped := false })
        (last.mapCache (·.setOutputs compilation.path compilation.context.target
          compilation.produced)) := by
  obtain ⟨source, text, session, missed, read, prepared, ran⟩ := exists_of_emission? emitted
  have system : compilation.started.workspace.system = compilation.session.workspace.system := by
    unfold started
    split <;> rfl
  rw [result_eq, missed, if_neg Bool.false_ne_true, Context.run_recompile, system, read]
  dsimp only
  rw [Context.run_compileSource, prepared]
  dsimp only
  rw [ran]
  dsimp only
  rw [Context.run_settle_of_not_lacksOutput counts, written,
    produced_of_emission? emitted counts]
  cases compilation.context.writesFiles <;> rfl

/-- A compilation comes to an emission with output exactly when it ends with `emitted`. -/
theorem outcome_eq_emitted_iff : compilation.outcome = .emitted ↔
    ∃ emission last, compilation.emission? = some (emission, last) ∧
      lacksOutput emission = false := by
  constructor
  · intro outcome
    have came := compilation.came
    rw [outcome] at came
    cases came with
    | @emitted source text emission session last missed read prepared ran counts _ =>
      refine ⟨emission, last, ?_, counts⟩
      unfold emission?
      dsimp only
      rw [missed, if_neg Bool.false_ne_true, read]
      dsimp only
      rw [prepared]
      dsimp only
      rw [ran]
  · rintro ⟨emission, last, emitted, counts⟩
    obtain ⟨source, text, session, missed, read, prepared, ran⟩ := exists_of_emission? emitted
    unfold outcome
    dsimp only
    rw [missed, if_neg Bool.false_ne_true, read]
    dsimp only
    rw [prepared]
    dsimp only
    rw [ran]
    dsimp only
    rw [counts, if_neg Bool.false_ne_true]

theorem produced_of_outcome_ne (outcome : compilation.outcome ≠ .emitted) :
    compilation.produced = [] := by
  unfold produced
  split
  · next emission last emitted =>
    cases counts : lacksOutput emission with
    | false => exact absurd (outcome_eq_emitted_iff.mpr ⟨emission, last, emitted, counts⟩) outcome
    | true => rfl
  · rfl

/-- A compilation that ends with `emitted` has its files written, in turn, after they are recorded;
any other compilation has none. -/
theorem writing (compilation : Compilation) :
    (compilation.outcome = .emitted → ∃ (emission : Emission) (last : Session), compilation.result =
      ((compilation.written.forM fun file => Step.write file.name file.diskText) >>=
        fun _ => pure { emission with skipped := false })
        (last.mapCache (·.setOutputs compilation.path compilation.context.target
          compilation.produced))) ∧
    (compilation.outcome ≠ .emitted → compilation.written = []) := by
  refine ⟨fun outcome => ?_, fun outcome => ?_⟩
  · obtain ⟨emission, last, emitted, counts⟩ := outcome_eq_emitted_iff.mp outcome
    exact ⟨emission, last, result_of_emission? emitted counts⟩
  · rw [written, produced_of_outcome_ne outcome]
    exact ite_self []

end Compilation

/-- A context of which the callbacks are discreet and the transformers keep the file of a tree. -/
structure Context.Places (context : Context) : Prop where
  discreet : context.Discreet
  keepsFile : ∀ transformer ∈ context.transformers.all, transformer.KeepsFile

/-- An addon that registers callbacks of this kind. -/
structure Addon.Places (addon : Addon) : Prop where
  discreet : addon.Discreet
  keepsFile : Preserves (fun activation : Activation =>
    ∀ transformer ∈ activation.context.transformers.all, transformer.KeepsFile) addon.activate

theorem reticent_places : Reticent Addon.Places fun _ context => context.Places where
  cache addon places := reticent_discreet.cache addon places.discreet
  bare setup system target roots :=
    ⟨reticent_discreet.bare setup system target roots, by simp [TransformerSet.all]⟩
  activated addon places target activation kept :=
    ⟨reticent_discreet.activated addon places.discreet target activation kept.discreet,
      places.keepsFile activation kept.keepsFile⟩
  withRoots _ _ roots kept := ⟨kept.discreet.withRoots roots, kept.keepsFile⟩
  service addon places := places.discreet.service
  roots addon places := places.discreet.roots
  discreet _ _ kept := kept.discreet

namespace Context

/-- The place of the output of a file. -/
def placeOf (context : Context) (path : Path) : Path :=
  path.outputPath context.options context.projectRoot

/-- Whether a source map comes with the output of a file. -/
def maps (context : Context) (path : Path) : Bool :=
  context.options.wantsSourceMap && !path.isJson

/-- The places of all outputs of a file. -/
def outputs (context : Context) (path : Path) : List Path :=
  context.placeOf path :: if context.maps path then [(context.placeOf path).append ".map"] else []

variable {context : Context} {path spelled : Path} {text other : String}

private theorem names_filesAt (tree : Tree) (place : Path) (writeBom : Bool) :
    ((render tree context.options context.projectRoot).filesAt place writeBom).map (·.name) =
      place :: if context.options.wantsSourceMap then [place.append ".map"] else [] := by
  unfold render Rendering.filesAt
  dsimp only
  split <;> rfl

/-- The names that an emission gives, if it gives any. Where it takes them from must not matter for
trees of the file. -/
private theorem names_of_run (keeps : ∀ transformer ∈ context.transformers.all,
      transformer.KeepsFile) {tree : Tree} (file : tree.file = path) {place : Tree → Path}
    (placed : ∀ tree, tree.file = path → place tree = context.placeOf path)
    {faults : List Diagnostic} {journal later : Journal} {emission : Emission}
    (ran : (if context.options.wantsNoEmit then pure { skipped := true }
      else if path.isJson then
        pure { files := jsonFiles path text context.options context.projectRoot }
      else if Diagnostic.anyError faults then pure { diagnostics := faults, skipped := true }
      else do
        let tree ← context.transformers.run tree
        let rendering := render tree context.options context.projectRoot
        return { files := rendering.filesAt (place tree) context.options.wantsBom }
          : Journaled Emission) journal = .ok emission later)
    (counts : lacksOutput emission = false) :
    emission.files.map (·.name) =
      if path.isJson && context.options.outDir.isNone then [] else context.outputs path := by
  split at ran
  · cases ran
    cases counts
  · split at ran
    · next json =>
      cases ran
      unfold jsonFiles outputs maps
      cases context.options.outDir <;> simp [json, placeOf]
    · next script =>
      split at ran
      · cases ran
        cases counts
      · obtain ⟨tree', journal', run, ended⟩ := exists_of_bind_eq_ok ran
        cases ended
        have same := (keepsFile_run keeps tree _ tree' _ run).trans file
        unfold outputs maps
        rw [names_filesAt, placed tree' same]
        simp [script]

/-- The names that both ways to emit a file give, if they give any. -/
private theorem names_of_emits (keeps : ∀ transformer ∈ context.transformers.all,
      transformer.KeepsFile) {journal later : Journal} {emission : Emission}
    (ran : (if context.transpileOnly then
        transpileFile path text context.options context.projectRoot context.transformers
      else context.emitsTree path text (Tree.parse path other)) journal = .ok emission later)
    (counts : lacksOutput emission = false) :
    emission.files.map (·.name) =
      if path.isJson && context.options.outDir.isNone then [] else context.outputs path := by
  have parsed (text : String) : (Tree.parse path text).file = path := rfl
  split at ran
  · rw [transpileFile_eq] at ran
    exact names_of_run keeps (parsed text) (fun _ _ => rfl) ran counts
  · unfold emitsTree at ran
    simp only [files_render] at ran
    refine names_of_run keeps (parsed other) (fun tree same => ?_) ran counts
    rw [placeOf, same]

end Context

namespace Compilation

variable {compilation other : Compilation} {path : Path}

/-- Whether a compilation has output that is placed somewhere: it came to an emission that counts,
and a JSON file needs an output directory. -/
def HasOutput (compilation : Compilation) : Prop :=
  compilation.outcome = .emitted ∧
    (compilation.path.isJson = true → compilation.context.options.outDir.isSome = true)

/-- The names of the emission that a compilation comes to. -/
private theorem names_of_emission? {emission : Emission} {last : Session}
    (serves : compilation.Serves (fun _ _ _ _ => True) fun _ context => context.Places)
    (emitted : compilation.emission? = some (emission, last))
    (counts : lacksOutput emission = false) :
    emission.files.map (·.name) =
      if compilation.path.isJson && compilation.context.options.outDir.isNone then []
        else compilation.context.outputs compilation.path := by
  obtain ⟨_, places⟩ := serves.context
  obtain ⟨source, text, session, _, _, prepared, ran⟩ := exists_of_emission? emitted
  obtain ⟨kept, recorded⟩ := Context.serves_recorded places.discreet serves.path
    (serves_started serves.session) prepared trivial
  obtain ⟨spelled, other, service, same, listed, _, _, emits⟩ := Context.run_emitFile recorded
    kept.workspace.service ⟨serves.path, "", "", trivial⟩
  obtain rfl := serves.path.eq_of_same listed.1 same
  rw [emits] at ran
  obtain ⟨journal, ran⟩ := Step.exists_of_journaled_eq_ok ran
  exact Context.names_of_emits places.keepsFile ran counts

/-- A compilation that has output produces the outputs of its file, and others produce nothing. -/
theorem names_produced
    (serves : compilation.Serves (fun _ _ _ _ => True) fun _ context => context.Places) :
    (compilation.HasOutput ∧ compilation.produced.map (·.name) =
      compilation.context.outputs compilation.path) ∨
      (¬compilation.HasOutput ∧ compilation.produced = []) := by
  by_cases outcome : compilation.outcome = .emitted
  · obtain ⟨emission, last, emitted, counts⟩ := outcome_eq_emitted_iff.mp outcome
    have names := names_of_emission? serves emitted counts
    rw [← produced_of_emission? emitted counts] at names
    split at names
    · next bare =>
      refine .inr ⟨fun has => ?_, List.map_eq_nil_iff.mp names⟩
      rw [Bool.and_eq_true, Option.isNone_iff_eq_none] at bare
      have some := has.2 bare.1
      rw [bare.2] at some
      cases some
    · next other =>
      refine .inl ⟨⟨outcome, fun json => ?_⟩, names⟩
      rw [json, Bool.true_and, Option.isNone_iff_eq_none] at other
      exact Option.isSome_iff_ne_none.mpr other
  · exact .inr ⟨fun has => outcome has.1, produced_of_outcome_ne outcome⟩

theorem produces_iff
    (serves : compilation.Serves (fun _ _ _ _ => True) fun _ context => context.Places) :
    compilation.Produces path ↔ compilation.HasOutput ∧
      ∃ place ∈ compilation.context.outputs compilation.path, place.same path = true := by
  unfold Produces
  rcases names_produced serves with ⟨has, names⟩ | ⟨none, made⟩
  · rw [← names]
    constructor
    · rintro ⟨file, member, same⟩
      exact ⟨has, file.name, List.mem_map_of_mem member, same⟩
    · rintro ⟨_, place, member, same⟩
      obtain ⟨file, known, rfl⟩ := List.mem_map.mp member
      exact ⟨file, known, same⟩
  · rw [made]
    simp [none]

theorem writes_iff : compilation.Writes path ↔
    compilation.context.writesFiles = true ∧ compilation.Produces path := by
  unfold Writes Produces written
  cases compilation.context.writesFiles <;> simp

end Compilation

namespace Context

variable {context : Context} {path other place : Path}

theorem mem_outputs : place ∈ context.outputs path ↔ place = context.placeOf path ∨
    context.maps path = true ∧ place = (context.placeOf path).append ".map" := by
  unfold outputs
  cases context.maps path <;> simp

/-- What an output may be called. -/
theorem extension_of_mem_outputs (member : place ∈ context.outputs path) {extension : String}
    (known : place.extension? = some extension) :
    extension ∈ ["js", "mjs", "cjs", "json", "map"] := by
  rcases mem_outputs.mp member with rfl | ⟨_, rfl⟩
  · rw [Path.extension?_outputPath known]
    have kinds := path.emittedExtension_mem
    simp only [List.mem_cons, List.not_mem_nil, or_false] at kinds ⊢
    rcases kinds with same | same | same | same <;> simp [same]
  · rw [Path.extension?_append_map known]
    simp

/-- Two files have an output in common only if their scripts are at one place. A source map is never
where a script is. -/
theorem exists_common_output_iff (normal : path.IsNormal) (normal' : other.IsNormal) :
    (∃ place, (∃ output ∈ context.outputs path, output.same place = true) ∧
      ∃ output ∈ context.outputs other, output.same place = true) ↔
      (context.placeOf path).same (context.placeOf other) = true := by
  constructor
  · rintro ⟨place, ⟨output, member, same⟩, output', member', same'⟩
    have alike := Path.same_trans same (Path.same_symm same')
    rcases mem_outputs.mp member with rfl | ⟨_, rfl⟩ <;>
      rcases mem_outputs.mp member' with rfl | ⟨_, rfl⟩
    · exact alike
    · rw [placeOf, Path.not_same_append_map] at alike
      cases alike
    · have turned := Path.same_symm alike
      rw [placeOf, Path.not_same_append_map] at turned
      cases turned
    · exact Path.same_of_same_map normal normal' alike
  · intro same
    exact ⟨context.placeOf other, ⟨_, List.mem_cons_self .., same⟩, _, List.mem_cons_self ..,
      Path.same_self _⟩

end Context

section Clobbering

/-- A script that is its own output, and two scripts with one output. -/
def clobberingRoots : List Path := [⟨true, ["a.js"]⟩, ⟨true, ["b.ts"]⟩, ⟨true, ["b.tsx"]⟩]

/-- An addon with a transformer that keeps the file of a tree. -/
def renamingAddon : Addon where
  name := "renaming"
  activate := Activation.registerTransformers .emit
    { before := [.ofFunction (·.rename "x" "y")] }

def clobberingSetup : Setup where
  projectRoot := ⟨true, []⟩
  project := { files := clobberingRoots }
  sourceMap := true
  registry :=
    { explicit := [], project? := none, resolve := fun _ _ _ => .error .notConfigured,
      entries := [("renaming", .loaded renamingAddon)] }

def clobberingSystem : Files.System :=
  .memory (clobberingRoots.foldl (fun tree root => tree.write root "let x = 1;")
    (Files.MemoryTree.new ⟨true, []⟩ false))

/-- One pass. -/
def clobberingHistory : List Event :=
  history [.configure clobberingSetup, .compile] (.ofSystem clobberingSystem)

/-- The files behind the pass. -/
def clobberedSystem : Files.System :=
  ((Compiler.ofSystem clobberingSystem).runAll
    [.configure clobberingSetup, .compile]).workspace.system

private theorem places_renamingAddon : renamingAddon.Places where
  discreet := ⟨fun _ => rfl, fun _ => rfl, fun _ => rfl, fun _ kept =>
    ⟨kept.watch, kept.generators, kept.processors, kept.resultProcessors, kept.postTransformers⟩⟩
  keepsFile := by
    intro activation kept transformer member
    have new : transformer ∈ activation.context.transformers.all ∨
        transformer = .ofFunction (·.rename "x" "y") := by
      simpa using TransformerSet.mem_all_register member
    rcases new with known | rfl
    · exact kept transformer known
    · intro tree journal tree' journal' ran
      cases ran
      rfl

private theorem orderly_clobbering :
    ∀ action ∈ [Action.configure clobberingSetup, .compile], action.Orderly Addon.Places := by
  have all : clobberingSetup.registry.All Addon.Places :=
    .of_only places_renamingAddon rfl fun _ _ _ _ => nofun
  simpa [Action.Orderly] using all

/-- What is seen of the compilations of the pass: the file, the options, the root directory, how it
came out, and the names of what is written. -/
private def seen (events : List Event) : List (Path × Options × Path × Outcome × List Path) :=
  events.filterMap fun
    | .compiled compilation => some (compilation.path, compilation.context.options,
        compilation.context.projectRoot, compilation.outcome, compilation.written.map (·.name))
    | _ => none

private theorem seen_clobbering : seen clobberingHistory =
    [(⟨true, ["a.js"]⟩, { sourceMap := some true }, ⟨true, []⟩, .emitted,
        [⟨true, ["a.js"]⟩, ⟨true, ["a.js.map"]⟩]),
      (⟨true, ["b.ts"]⟩, { sourceMap := some true }, ⟨true, []⟩, .emitted,
        [⟨true, ["b.js"]⟩, ⟨true, ["b.js.map"]⟩]),
      (⟨true, ["b.tsx"]⟩, { sourceMap := some true }, ⟨true, []⟩, .emitted,
        [⟨true, ["b.js"]⟩, ⟨true, ["b.js.map"]⟩])] := by
  decide +kernel

private theorem exists_of_seen {events : List Event}
    {entries : List (Path × Options × Path × Outcome × List Path)} (saw : seen events = entries)
    (place : Nat) {path root : Path} {options : Options} {outcome : Outcome} {names : List Path}
    (found : entries[place]? = some (path, options, root, outcome, names)) :
    ∃ compilation, .compiled compilation ∈ events ∧ compilation.path = path ∧
      compilation.context.options = options ∧ compilation.context.projectRoot = root ∧
      compilation.outcome = outcome ∧ compilation.written.map (·.name) = names := by
  rw [← saw] at found
  obtain ⟨event, known, same⟩ := List.mem_filterMap.mp (List.mem_of_getElem? found)
  cases event with
  | compiled compilation =>
    cases same
    exact ⟨compilation, known, rfl, rfl, rfl, rfl, rfl⟩
  | evicted | cleared => cases same

private theorem writes_of_mem {compilation : Compilation} {names : List Path}
    (written : compilation.written.map (·.name) = names) {path : Path} (member : path ∈ names) :
    compilation.Writes path := by
  rw [← written] at member
  obtain ⟨file, known, rfl⟩ := List.mem_map.mp member
  exact ⟨file, known, Path.same_self _⟩

end Clobbering

end Recast.Build
