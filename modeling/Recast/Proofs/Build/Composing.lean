import Recast.Proofs.Build.Registering
import Recast.Proofs.Build.Runs
import Recast.Proofs.Emit.Agreement

/-! # A compilation as a composition

The callbacks of a context run on a file in two chains: generators and processors on its source, and
the transformers of all stages, around the erasure of types, on the tree of the processed text. The
first callback that fails ends the compilation. The main statement is
`compileFile_composed`; it holds for both ways to emit, which differ only in where the tree comes
from and where the outputs lie.
-/

namespace Recast.Build

open Recast.Emit Recast.Script

/-- How a chain of steps runs on a value. Every step gets what the step before it gave, in the state
which that left; the chain ends with the first failure, and the steps behind it do not run. -/
inductive Chain {ε σ α : Type} :
    List (α → EStateM ε σ α) → α → σ → EStateM.Result ε σ α → Prop where
  | nil {value : α} {state : σ} : Chain [] value state (.ok value state)
  | cons {step : α → EStateM ε σ α} {steps : List (α → EStateM ε σ α)} {value next : α}
      {state middle : σ} {result : EStateM.Result ε σ α}
      (ran : step value state = .ok next middle) (rest : Chain steps next middle result) :
      Chain (step :: steps) value state result
  | stop {step : α → EStateM ε σ α} {steps : List (α → EStateM ε σ α)} {value : α}
      {state last : σ} {failure : ε} (failed : step value state = .error failure last) :
      Chain (step :: steps) value state (.error failure last)

/-- A chain has exactly one result, that of the fold over its steps. -/
theorem chain_iff {ε σ α : Type} {steps : List (α → EStateM ε σ α)} {value : α} {state : σ}
    {result : EStateM.Result ε σ α} :
    Chain steps value state result ↔
      steps.foldlM (fun value step => step value) value state = result := by
  induction steps generalizing value state with
  | nil =>
    constructor
    · rintro ⟨⟩
      rfl
    · rintro rfl
      exact .nil
  | cons step steps ih =>
    rw [List.foldlM_cons, run_bind]
    cases first : step value state with
    | ok next middle =>
      constructor
      · intro chain
        cases chain with
        | cons ran rest =>
          cases first.symm.trans ran
          exact ih.mp rest
        | stop failed => cases first.symm.trans failed
      · exact fun rest => .cons first (ih.mpr rest)
    | error failure last =>
      constructor
      · intro chain
        cases chain with
        | cons ran => cases first.symm.trans ran
        | stop failed =>
          cases first.symm.trans failed
          rfl
      · rintro rfl
        exact .stop first

namespace Context

/-- What runs on the source of a file: generators, which leave it as it is, then processors. -/
def sourceSteps (context : Context) (path : Path) (source : String) : List (String → Step String) :=
  (context.callbacks .generators).map (fun generator text => do
      generator context.toScope path source
      return text) ++
    (context.callbacks .processors).map fun processor => processor context.toScope path

/-- What runs on the tree of a file. -/
def treeSteps (context : Context) : List Transformer :=
  let before (stage : Stage) : List Transformer := context.callbacks (.before stage)
  let after (stage : Stage) : List Transformer := context.callbacks (.after stage)
  before .preEmit ++ after .preEmit ++
    before .emit ++ [.ofFunction fun tree => (eraseTypes tree).1] ++ after .emit ++
    before .postEmit ++ after .postEmit

/-- The tree from which a processed text is emitted, and the session behind the parser. The language
service uses the tree again that it knows for the path, if the digest of its text is the same. -/
def parseFile (context : Context) (path : Path) (text : String) (session : Session) :
    Tree × Session :=
  if context.transpileOnly then (Tree.parse path text, session)
  else
    let (tree, service) :=
      (session.workspace.service.setHost (context.host session)).parse path text
    (tree, session.withService service)

/-- The files of a tree on which everything ran. A file that is transpiled only is named after its
path, else after its tree. -/
def filesOf (context : Context) (path : Path) (tree : Tree) : List OutputFile :=
  (render tree context.options context.projectRoot).filesAt
    ((if context.transpileOnly then path else tree.file).outputPath context.options
      context.projectRoot) context.options.wantsBom

/-- Writes outputs if the target does that. -/
def store (context : Context) (files : List OutputFile) : Step Unit :=
  if context.writesFiles then files.forM fun file => Step.write file.name file.diskText else pure ()

/-- The source was processed, and this is the tree of what came of it. -/
def Parses (context : Context) (path : Path) (source : String) (session : Session) (tree : Tree)
    (parsed : Session) : Prop :=
  ∃ text middle, Chain (context.sourceSteps path source) source session (.ok text middle) ∧
    context.parseFile path text (middle.mapCache (·.update path context.target source text)) =
      (tree, parsed)

/-- The outcomes of a compilation whose callbacks run in two chains. -/
inductive Composed (context : Context) (path : Path) (source : String) (session : Session) :
    EStateM.Result Failure Session Emission → Prop where
  /-- A generator or a processor failed. -/
  | unprocessed {failure : Failure} {last : Session}
      (processed : Chain (context.sourceSteps path source) source session (.error failure last)) :
      Composed context path source session (.error failure last)
  /-- The processed text has faults, and no transformer runs. -/
  | faulty {tree : Tree} {parsed : Session}
      (parses : context.Parses path source session tree parsed)
      (faults : Diagnostic.anyError tree.faults = true) :
      Composed context path source session
        (.ok { diagnostics := tree.faults, skipped := true }
          (parsed.mapCache (·.markFailed path context.target)))
  /-- A transformer failed. -/
  | untransformed {tree : Tree} {parsed : Session} {failure : Failure} {journal : Journal}
      (parses : context.Parses path source session tree parsed)
      (faultless : Diagnostic.anyError tree.faults = false)
      (transformed : Chain context.treeSteps tree parsed.workspace.journal
        (.error failure journal)) :
      Composed context path source session (.error failure (parsed.withJournal journal))
  /-- Everything ran, and the outputs are recorded and stored. -/
  | stored {tree tree' : Tree} {parsed last : Session} {journal : Journal}
      (parses : context.Parses path source session tree parsed)
      (faultless : Diagnostic.anyError tree.faults = false)
      (transformed : Chain context.treeSteps tree parsed.workspace.journal (.ok tree' journal))
      (done : context.store (context.filesOf path tree') ((parsed.withJournal journal).mapCache
        (·.setOutputs path context.target (context.filesOf path tree'))) = .ok () last) :
      Composed context path source session (.ok { files := context.filesOf path tree' } last)
  /-- Everything ran, and the outputs are recorded, but one of them cannot be written. -/
  | unstored {tree tree' : Tree} {parsed last : Session} {journal : Journal} {failure : Failure}
      (parses : context.Parses path source session tree parsed)
      (faultless : Diagnostic.anyError tree.faults = false)
      (transformed : Chain context.treeSteps tree parsed.workspace.journal (.ok tree' journal))
      (failed : context.store (context.filesOf path tree') ((parsed.withJournal journal).mapCache
        (·.setOutputs path context.target (context.filesOf path tree'))) = .error failure last) :
      Composed context path source session (.error failure last)

/-- The chain of a source is what runs before its text is recorded. -/
theorem chain_sourceSteps (context : Context) (path : Path) (source : String) (session : Session) :
    Chain (context.sourceSteps path source) source session
      (context.prepare path source session) := by
  -- generators leave the text as it is, so that their steps are one that runs them all
  have generated : ∀ generators : List Generator,
      (generators.map fun generator (text : String) => (do
        generator context.toScope path source
        return text : Step String)).foldlM (fun text step => step text) source =
      (do
        generators.forM fun generator => generator context.toScope path source
        return source) := by
    intro generators
    induction generators with
    | nil => rfl
    | cons generator generators ih =>
      rw [List.map_cons, List.foldlM_cons, List.forM_eq_forM, List.forM_cons, bind_assoc,
        bind_assoc]
      exact congrArg (generator context.toScope path source >>= ·) (funext fun _ => ih)
  have split : context.sourceSteps path source =
      (context.generators.map fun generator (text : String) => (do
        generator context.toScope path source
        return text : Step String)) ++
      context.processors.map fun processor => processor context.toScope path := rfl
  have whole : (context.sourceSteps path source).foldlM (fun text step => step text) source =
      context.prepare path source := by
    rw [split, List.foldlM_append, generated, bind_assoc]
    simp only [pure_bind, List.foldlM_map]
    rfl
  exact chain_iff.mpr (congrFun whole session)

/-- The transformers of all stages run in one chain. -/
theorem run_transformers (context : Context) (tree : Tree) :
    context.transformers.run tree = applyAll context.treeSteps tree := by
  have split : context.treeSteps =
      context.transformers.preEmit.before ++ context.transformers.preEmit.after ++
        context.transformers.emit.before ++ [.ofFunction fun tree => (eraseTypes tree).1] ++
        context.transformers.emit.after ++
        context.transformers.postEmit.before ++ context.transformers.postEmit.after := rfl
  rw [split]
  simp only [TransformerSet.run, applyAll, List.foldlM_append, List.foldlM_cons, List.foldlM_nil,
    bind_assoc, Transformer.ofFunction, pure_bind]

/-- The emission of a tree: its faults, or what the transformers make of it. -/
def emitsParsed (context : Context) (path : Path) (tree : Tree) : Journaled Emission :=
  if Diagnostic.anyError tree.faults then pure { diagnostics := tree.faults, skipped := true }
  else do return { files := context.filesOf path (← applyAll context.treeSteps tree) }

/-- The emission of a recorded text is that of its tree, in both ways. -/
theorem run_emitFile_of_parseFile {context : Context} {path : Path} {text : String}
    {session parsed : Session} {tree : Tree} (script : path.isJson = false)
    (emits : context.options.wantsNoEmit = false)
    (recorded : (session.workspace.cache.get path context.target).snapshot = some text)
    (made : context.parseFile path text session = (tree, parsed)) :
    context.emitFile path text session =
      Step.journaled (context.emitsParsed path tree) parsed := by
  unfold parseFile at made
  unfold emitFile emitsParsed filesOf
  cases alone : context.transpileOnly with
  | true =>
    rw [alone, if_pos rfl] at made
    cases made
    simp only [transpileFile_eq, script, emits, run_transformers, ↓reduceIte, Bool.false_eq_true]
  | false =>
    rw [alone, if_neg Bool.false_ne_true] at made
    cases made
    have emitted := emit_eq recorded
    simp only [emits, script, Bool.or_self, Bool.false_eq_true, ↓reduceIte, emitsTree,
      files_render, run_transformers] at emitted
    simp only [Bool.false_eq_true, ↓reduceIte]
    unfold emitChecked
    rw [run_bind_ok (context.run_installHost session), run_bind_ok (Step.run_workspace _)]
    dsimp only [Session.withService]
    rw [emitted]
    rfl

variable {context : Context} {path : Path} {source : String} {session : Session}

/-- Behind the parser, a compilation is one of the outcomes. -/
theorem composed_of_parses {tree : Tree} {parsed : Session}
    (parses : context.Parses path source session tree parsed) :
    context.Composed path source session
      (match Step.journaled (context.emitsParsed path tree) parsed with
      | .error failure last => .error failure last
      | .ok emission last => context.settle path emission last) := by
  rw [Step.run_journaled, emitsParsed]
  cases faults : Diagnostic.anyError tree.faults with
  | true =>
    have lacks : lacksOutput { diagnostics := tree.faults, skipped := true } = true := rfl
    simp only [↓reduceIte, run_pure, run_settle_of_lacksOutput lacks]
    exact .faulty parses faults
  | false =>
    have along : Chain context.treeSteps tree parsed.workspace.journal
        (applyAll context.treeSteps tree parsed.workspace.journal) := chain_iff.mpr rfl
    simp only [Bool.false_eq_true, ↓reduceIte, run_bind, run_pure]
    cases transformed : applyAll context.treeSteps tree parsed.workspace.journal with
    | error failure journal =>
      rw [transformed] at along
      exact .untransformed parses faults along
    | ok tree' journal =>
      rw [transformed] at along
      let outputs := context.filesOf path tree'
      let recorded := (parsed.withJournal journal).mapCache
        (·.setOutputs path context.target outputs)
      have has : lacksOutput { files := outputs } = false := rfl
      dsimp only
      rw [run_settle_of_not_lacksOutput has]
      change context.Composed path source session
        ((context.store outputs >>= fun _ => pure { files := outputs }) recorded)
      rw [run_bind]
      cases done : context.store outputs recorded with
      | ok answer last => exact .stored parses faults along done
      | error failure last => exact .unstored parses faults along done

/-- A forced compilation of a script runs its callbacks in two chains. -/
theorem composed_compileFile (readable : session.workspace.system.read path = .ok source)
    (script : path.isJson = false) (emits : context.options.wantsNoEmit = false) :
    context.Composed path source (session.mapCache (·.markStale path context.target))
      (context.compileFile path true session) := by
  let started := session.mapCache (·.markStale path context.target)
  have read : started.workspace.system.read path = .ok source := readable
  have chain := context.chain_sourceSteps path source started
  rw [run_compileFile_force, run_recompile, read]
  dsimp only
  rw [run_compileSource]
  cases processed : context.prepare path source started with
  | error failure last =>
    rw [processed] at chain
    exact .unprocessed chain
  | ok text middle =>
    rw [processed] at chain
    let recorded := middle.mapCache (·.update path context.target source text)
    rcases made : context.parseFile path text recorded with ⟨tree, parsed⟩
    have parses : context.Parses path source started tree parsed := ⟨text, middle, chain, made⟩
    have emitted : context.emitFile path text recorded =
        Step.journaled (context.emitsParsed path tree) parsed :=
      run_emitFile_of_parseFile script emits (Cache.snapshot_get_update ..) made
    dsimp only
    rw [emitted]
    exact composed_of_parses parses

/-- The tree of a text is parsed from it, unless the service has another tree for the path with the
digest of the text. -/
theorem parseFile_eq_parse_iff {text : String} :
    (context.parseFile path text session).1 = Tree.parse path text ↔
      context.transpileOnly = true ∨
        ∀ tree, session.workspace.service.parsed.get? path = some (Digest.of text, tree) →
          tree = Tree.parse path text := by
  unfold parseFile
  cases context.transpileOnly with
  | true => simp
  | false =>
    simp only [Bool.false_eq_true, ↓reduceIte, false_or]
    unfold Service.parse Service.setHost
    dsimp only
    cases known : session.workspace.service.parsed.get? path with
    | none => simp
    | some entry =>
      obtain ⟨digest, tree⟩ := entry
      by_cases same : digest = Digest.of text
      · simp [same, Option.filter_some]
      · simp [same, Option.filter_some]

end Context

section Relay

/-- Two addons, each with a processor and a transformer. -/
def relayAddons : List (String × List Registration) :=
  [("early", [.processor fun _ _ text => pure (text ++ "let b = a;\n"),
      .transformers .postEmit { after := [.ofFunction (·.rename "b" "c")] }]),
    ("late", [.transformers .preEmit { before := [.ofFunction (·.rename "a" "b")] },
      .processor fun _ _ text => pure (text ++ "type A = B;\n")])]

/-- The same addons, with two registrations in each other's place. -/
def relayAddons' : List (String × List Registration) :=
  [("early", [.processor fun _ _ text => pure (text ++ "let b = a;\n"),
      .transformers .preEmit { before := [.ofFunction (·.rename "a" "b")] }]),
    ("late", [.transformers .postEmit { after := [.ofFunction (·.rename "b" "c")] },
      .processor fun _ _ text => pure (text ++ "type A = B;\n")])]

def relayTree : Files.MemoryTree :=
  (((Files.MemoryTree.new ⟨true, []⟩ false).write Emit.scriptPath "let a = 1;\n").write
    dottedPath "let a = 1;\n")

def relayScope : Scope where
  target := "*"
  options := { sourceMap := some true }
  projectRoot := ⟨true, []⟩
  settings := {}
  transpileOnly := false
  debug := false

def relaySession : Session :=
  ⟨{ system := .memory relayTree }, [Emit.scriptPath]⟩

/-- The context without addons. -/
def relayContext : Context := { toScope := relayScope }

/-- The text of the script that an emission gives. -/
private def scriptIn : EStateM.Result Failure Session Emission → Option String
  | .ok emission _ => emission.files.head?.map (·.text)
  | .error _ _ => none

end Relay

end Recast.Build
