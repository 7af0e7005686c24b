import Recast.Proofs.Build.Emission
import Recast.Proofs.Build.Frame
import Recast.Proofs.Emit.Outputs

/-! # Callbacks without effects

A quiet step gives the same answer in every state and changes none. In a context whose processors
and transformers are quiet, what is made of a source is a function of the file and its text.
-/

namespace Recast.Build

open Recast.Emit Recast.Script

section Steps

variable {ε σ α β : Type}

/-- A step that always gives the same answer, and changes nothing. -/
def Quiet (x : EStateM ε σ α) : Prop :=
  ∃ a, ∀ s, x s = .ok a s

/-- What a quiet step answers. -/
def answer [Inhabited σ] [Inhabited α] (x : EStateM ε σ α) : α :=
  match x default with
  | .ok a _ => a
  | .error _ _ => default

@[simp] theorem answer_pure [Inhabited σ] [Inhabited α] (a : α) :
    answer (pure a : EStateM ε σ α) = a := rfl

namespace Quiet

theorem run [Inhabited σ] [Inhabited α] {x : EStateM ε σ α} (quiet : Quiet x) (s : σ) :
    x s = .ok (answer x) s := by
  obtain ⟨a, always⟩ := quiet
  rw [answer, always, always]

theorem pure (a : α) : Quiet (Pure.pure a : EStateM ε σ α) := ⟨a, fun _ => rfl⟩

theorem bind {x : EStateM ε σ α} {f : α → EStateM ε σ β} (first : Quiet x)
    (next : ∀ a, Quiet (f a)) :
    Quiet (x >>= f) := by
  obtain ⟨a, always⟩ := first
  obtain ⟨b, after⟩ := next a
  exact ⟨b, fun s => (run_bind_ok (always s)).trans (after s)⟩

theorem answer_bind [Inhabited σ] [Inhabited α] [Inhabited β] {x : EStateM ε σ α} (first : Quiet x)
    (f : α → EStateM ε σ β) : answer (x >>= f) = answer (f (answer x)) := by
  have whole : (x >>= f) default = f (answer x) default := run_bind_ok (first.run default)
  unfold answer at whole ⊢
  rw [whole]

theorem foldlM {xs : List α} {f : β → α → EStateM ε σ β} (each : ∀ b, ∀ x ∈ xs, Quiet (f b x))
    (b : β) :
    Quiet (xs.foldlM f b) := by
  induction xs generalizing b with
  | nil => exact .pure b
  | cons x xs ih =>
    rw [List.foldlM_cons]
    exact (each b x (List.mem_cons_self ..)).bind fun c =>
      ih (fun b y member => each b y (List.mem_cons_of_mem _ member)) c

theorem leaves {γ : Type} {observe : σ → γ} {x : EStateM ε σ α} (quiet : Quiet x) :
    Leaves observe x := by
  obtain ⟨a, always⟩ := quiet
  intro s
  rw [always]
  rfl

end Quiet

end Steps

end Recast.Build

namespace Recast.Emit

open Recast.Build Recast.Script

/-- All transformers of all stages, in the order in which they run. -/
def TransformerSet.all (set : TransformerSet) : List Transformer :=
  set.preEmit.before ++ set.preEmit.after ++ set.emit.before ++ set.emit.after ++
    set.postEmit.before ++
    set.postEmit.after

/-- A property of steps that leave lines in the journal, and that everything put together from such
steps has. -/
structure Composes (P : ∀ α : Type, Journaled α → Prop) : Prop where
  pure : ∀ {α : Type} (a : α), P α (pure a)
  bind : ∀ {α β : Type} {x : Journaled α} {f : α → Journaled β}, P α x → (∀ a, P β (f a)) →
    P β (x >>= f)

theorem composes_quiet : Composes fun _ => Quiet := ⟨.pure, .bind⟩

namespace Composes

variable {P : ∀ α : Type, Journaled α → Prop} (composes : Composes P) {set : TransformerSet}

include composes

theorem applyAll {transformers : List Transformer}
    (each : ∀ transformer ∈ transformers, ∀ tree, P _ (transformer tree)) (tree : Tree) :
    P _ (applyAll transformers tree) := by
  unfold Emit.applyAll
  induction transformers generalizing tree with
  | nil => exact composes.pure tree
  | cons transformer transformers ih =>
    rw [List.foldlM_cons]
    exact composes.bind (each transformer (List.mem_cons_self ..) tree) fun tree =>
      ih (fun other member => each other (List.mem_cons_of_mem _ member)) tree

theorem run (each : ∀ transformer ∈ set.all, ∀ tree, P _ (transformer tree)) (tree : Tree) :
    P _ (set.run tree) := by
  have some (hooks : List Transformer) (within : ∀ transformer ∈ hooks, transformer ∈ set.all)
      (tree : Tree) :
      P _ (Emit.applyAll hooks tree) :=
    composes.applyAll (fun transformer member => each transformer (within transformer member)) tree
  refine composes.bind (some _ ?_ tree) fun tree => composes.bind (some _ ?_ tree) fun tree =>
    composes.bind (some _ ?_ tree) fun tree => composes.bind (some _ ?_ _) fun tree =>
      composes.bind (some _ ?_ tree) fun tree => some _ ?_ tree
  all_goals
    intro transformer member
    simp [TransformerSet.all, member]

theorem transpileModule (each : ∀ tree, P _ (set.run tree)) (path projectRoot : Path)
    (text : String) (options : Options) :
    P _ (transpileModule path text options projectRoot set) := by
  unfold Emit.transpileModule
  dsimp only
  split
  · exact composes.pure _
  · exact composes.bind (each _) fun _ => composes.pure _

theorem transpileFile (each : ∀ tree, P _ (set.run tree)) (path projectRoot : Path) (text : String)
    (options : Options) : P _ (transpileFile path text options projectRoot set) := by
  unfold Emit.transpileFile
  dsimp only
  split
  · exact composes.pure _
  · split
    · exact composes.pure _
    · refine composes.bind (composes.transpileModule each path projectRoot text options)
        fun output => ?_
      split
      · exact composes.pure _
      · exact composes.pure _

/-- What transformers have, the emission of every file has. -/
theorem emitsTree {context : Context} (each : ∀ tree, P _ (context.transformers.run tree))
    (path : Path) (text : String) (tree : Tree) : P _ (context.emitsTree path text tree) := by
  unfold Context.emitsTree
  split
  · exact composes.pure _
  · split
    · exact composes.pure _
    · split
      · exact composes.pure _
      · exact composes.bind (each tree) fun _ => composes.pure _

theorem emits {context : Context} (each : ∀ tree, P _ (context.transformers.run tree)) (path : Path)
    (text : String) :
    P _ (context.emits path text) := by
  unfold Context.emits
  split
  · exact composes.transpileFile each path _ text _
  · exact composes.emitsTree each path text _

end Composes

theorem TransformerSet.quiet_run {set : TransformerSet}
    (quiet : ∀ transformer ∈ set.all, ∀ tree, Quiet (transformer tree)) (tree : Tree) :
    Quiet (set.run tree) :=
  composes_quiet.run quiet tree

end Recast.Emit

namespace Recast.Build

open Recast.Emit Recast.Script

/-- A context in which processors and transformers only compute, and nothing else is registered. -/
structure Context.IsPure (context : Context) : Prop where
  generators : context.generators = []
  processors : ∀ processor ∈ context.processors, ∀ path source,
    Quiet (processor context.toScope path source)
  transformers : ∀ transformer ∈ context.transformers.all, ∀ tree, Quiet (transformer tree)
  resultProcessors : context.resultProcessors = []
  postTransformers : context.postTransformers = []
  resolvers : context.resolvers = []

namespace Context

variable {context : Context}

theorem IsPure.quiet_prepare (pure : context.IsPure) (path : Path) (source : String) :
    Quiet (context.prepare path source) := by
  unfold prepare
  rw [pure.generators]
  exact (Quiet.pure _).bind fun _ =>
    Quiet.foldlM (fun text processor member => pure.processors processor member path text) source

theorem IsPure.quiet_emitsTree (pure : context.IsPure) (path : Path) (text : String) (tree : Tree) :
    Quiet (context.emitsTree path text tree) :=
  composes_quiet.emitsTree (TransformerSet.quiet_run pure.transformers) path text tree

/-- What the processors make of a source. -/
def processed (context : Context) (path : Path) (source : String) : String :=
  answer (context.prepare path source)

/-- What the emission of a text gives. -/
def emission (context : Context) (path : Path) (text : String) : Emission :=
  answer (context.emits path text)

/-- An emission has no files, or the copy of a JSON file, or a rendering of what the transformers
make of the tree, placed where the path or this tree says. -/
theorem IsPure.files_emission (pure : context.IsPure) (path : Path) (text : String) :
    (context.emission path text).files = [] ∨
      (context.emission path text).files =
        jsonFiles path text context.options context.projectRoot ∨
      let tree := answer (context.transformers.run (Tree.parse path text))
      ∃ source, (source = path ∨ source = tree.file) ∧ (context.emission path text).files =
        (render tree context.options context.projectRoot).filesAt
          (source.outputPath context.options context.projectRoot) context.options.wantsBom := by
  have quiet := TransformerSet.quiet_run pure.transformers (Tree.parse path text)
  unfold emission emits
  split
  · rw [transpileFile_eq]
    split
    · exact .inl rfl
    · split
      · exact .inr (.inl rfl)
      · split
        · exact .inl rfl
        · rw [quiet.answer_bind]
          exact .inr (.inr ⟨path, .inl rfl, rfl⟩)
  · unfold emitsTree
    split
    · exact .inl rfl
    · split
      · exact .inr (.inl rfl)
      · split
        · exact .inl rfl
        · rw [quiet.answer_bind]
          exact .inr (.inr ⟨_, .inr rfl, files_render ..⟩)

/-- The outputs of a file are named after it, unless a transformer turns its tree into that of
another file. -/
theorem IsPure.name_of_mem_emission (pure : context.IsPure)
    (keepsFile : ∀ tree, (answer (context.transformers.run tree)).file = tree.file) {path : Path}
    {text : String} {file : OutputFile} (member : file ∈ (context.emission path text).files) :
    file.name = path.outputPath context.options context.projectRoot ∨
      file.name = (path.outputPath context.options context.projectRoot).append ".map" := by
  obtain none | json | ⟨source, named, files⟩ := pure.files_emission path text
  · rw [none] at member
    cases member
  · rw [json] at member
    unfold jsonFiles at member
    split at member
    · exact .inl (congrArg OutputFile.name (List.mem_singleton.mp member))
    · cases member
  · obtain rfl : source = path := named.elim id fun same => same.trans (keepsFile _)
    rw [files] at member
    rcases List.mem_cons.mp member with rfl | beside
    · exact .inl rfl
    · obtain ⟨_, _, rfl⟩ := List.mem_map.mp beside
      exact .inr rfl

/-- An emission has no files, or one with its source map beside it. -/
theorem IsPure.exists_files_emission (pure : context.IsPure) (path : Path) (text : String) :
    (context.emission path text).files = [] ∨ ∃ name printed writeBom, ∃ map : Option String,
      (context.emission path text).files = ⟨name, printed, writeBom⟩ ::
        map.toList.map fun map => ⟨name.append ".map", map, false⟩ := by
  obtain none | json | ⟨_, _, files⟩ := pure.files_emission path text
  · exact .inl none
  · unfold jsonFiles at json
    split at json
    · exact .inr ⟨_, _, _, none, json⟩
    · exact .inl json
  · exact .inr ⟨_, _, _, _, files⟩

/-- The files of an emission have different names. -/
theorem IsPure.eq_of_name_eq (pure : context.IsPure) {path : Path} {text : String}
    {file other : OutputFile} (member : file ∈ (context.emission path text).files)
    (member' : other ∈ (context.emission path text).files) (named : file.name = other.name) :
    file = other := by
  obtain none | ⟨name, printed, writeBom, map, files⟩ := pure.exists_files_emission path text
  · rw [none] at member
    cases member
  · rw [files] at member member'
    have apart := Path.append_ne name (show ".map" ≠ "" by decide)
    cases map with
    | none =>
      rw [List.mem_singleton.mp member, List.mem_singleton.mp member']
    | some map =>
      simp only [Option.toList_some, List.map_cons, List.map_nil, List.mem_cons,
        List.not_mem_nil, or_false] at member member'
      rcases member with rfl | rfl <;> rcases member' with rfl | rfl
      · rfl
      · exact absurd named.symm apart
      · exact absurd named apart
      · rfl

theorem IsPure.keepsCache (pure : context.IsPure) (watch : ∀ watch, context.watch? = some watch →
    ∀ path workspace next, watch path workspace = .ok next → next.cache = workspace.cache) :
    context.KeepsCache where
  watch := watch
  generators := by simp [pure.generators]
  processors processor member path source := (pure.processors processor member path source).leaves
  resultProcessors := by simp [pure.resultProcessors]
  postTransformers := by simp [pure.postTransformers]

end Context

end Recast.Build
