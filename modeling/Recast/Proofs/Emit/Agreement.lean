import Recast.Proofs.Build.Quiet
import Recast.Proofs.Emit.Transparency

/-! # Two ways to emit a file

A file is emitted by the language service, or on its own. Both ways go through the same cases in the
same order; only the names of the outputs stem from different places: the service takes them from
the tree that the transformers leave, the other way takes them from the path. The main statement is
`emit_eq_transpileFile_iff`.
-/

namespace Recast.Emit

open Recast.Build Recast.Script

/-- Whether transformers come to see a file. -/
def Host.Transforms (host : Host) (path : Path) (text : String) : Prop :=
  host.options.wantsNoEmit = false ∧ path.isJson = false ∧
    Diagnostic.anyError (Tree.parse path text).faults = false

/-- The service emits a file whose tree it parses rightly as follows. -/
theorem Service.emit_of_parse {service : Service} {host : Host} {path : Path} {text : String}
    (installed : service.host? = some host) (served : host.text? path = some text)
    (parsed : (service.parse path text).1 = Tree.parse path text) :
    (service.emit path).1 =
      if host.options.wantsNoEmit then pure { skipped := true }
      else if path.isJson then
        pure { files := jsonFiles path text host.options host.projectRoot }
      else if Diagnostic.anyError (Tree.parse path text).faults then
        pure { diagnostics := (Tree.parse path text).faults, skipped := true }
      else do
        let tree ← host.transformers.run (Tree.parse path text)
        let rendering := render tree host.options host.projectRoot
        return { files := rendering.filesAt (tree.file.outputPath host.options host.projectRoot)
                            host.options.wantsBom } := by
  unfold Service.emit emitTree
  simp only [installed, served, parsed, files_render]
  repeat' split
  all_goals rfl

/-- Steps that go on differently are the same if the difference is not reached. -/
theorem bind_pure_eq_iff {ε σ α β : Type} {x : EStateM ε σ α} {f g : α → β} :
    (x >>= fun a => pure (f a)) = (x >>= fun a => pure (g a)) ↔
      ∀ s a t, x s = .ok a t → f a = g a := by
  constructor
  · intro same s a t ran
    have step := congrFun same s
    rw [run_bind_ok ran, run_bind_ok ran] at step
    exact (EStateM.Result.ok.inj step).1
  · intro same
    funext s
    rw [run_bind, run_bind]
    cases ran : x s with
    | ok a t => exact congrArg (fun b => EStateM.Result.ok b t) (same s a t ran)
    | error e t => rfl

/-- A service with any past emits a file of its host exactly as the file is emitted on its own -
with the same failure, or the same outputs, diagnostics and answer whether it was skipped - if and
only if the transformers, where they run and succeed, leave a tree whose outputs are named as those
of the path are. -/
theorem emit_eq_transpileFile_iff (past : List Call) (host : Host) (path : Path) (text : String)
    (served : host.text? path = some text)
    (apart : Distinguished (snapshots none (past ++ [.setHost host, .emit path]))) :
    ((({} : Service).after (past ++ [.setHost host])).emit path).1 =
        transpileFile path text host.options host.projectRoot host.transformers ↔
      (host.Transforms path text → ∀ journal tree journal',
        host.transformers.run (Tree.parse path text) journal = .ok tree journal' →
          tree.file.outputPath host.options host.projectRoot =
            path.outputPath host.options host.projectRoot) := by
  have same := (answer_after_eq_fresh (past ++ [.setHost host]) (.emit path)
    (by rw [List.append_assoc]; exact apart)).1
  have last : lastHost? (past ++ [.setHost host]) = some host := by
    simp [lastHost?, Call.hostBehind]
  rw [last] at same
  have emitted := Answer.emission.inj same
  rw [emitted, Service.emit_of_parse (Service.host?_fresh _) served (Service.parse_fresh ..),
    transpileFile_eq]
  unfold Host.Transforms
  cases noEmit : host.options.wantsNoEmit with
  | true => simp
  | false =>
    cases json : path.isJson with
    | true => simp
    | false =>
      cases faulty : Diagnostic.anyError (Tree.parse path text).faults with
      | true => simp
      | false =>
        simp only [Bool.false_eq_true, ↓reduceIte, true_implies, and_self]
        rw [bind_pure_eq_iff]
        simp only [Emission.mk.injEq, and_true, Rendering.filesAt_inj]

/-- A transformer that leaves a tree of the same file where it succeeds. -/
def Transformer.KeepsFile (transformer : Transformer) : Prop :=
  ∀ tree journal tree' journal', transformer tree journal = .ok tree' journal' →
    tree'.file = tree.file

theorem keepsFile_applyAll {transformers : List Transformer}
    (each : ∀ transformer ∈ transformers, transformer.KeepsFile) :
    Transformer.KeepsFile (applyAll transformers) := by
  induction transformers with
  | nil =>
    intro tree journal tree' journal' ran
    cases ran
    rfl
  | cons transformer transformers ih =>
    intro tree journal tree' journal' ran
    change (transformer tree >>= applyAll transformers) journal = _ at ran
    rw [run_bind] at ran
    cases first : transformer tree journal with
    | error failure journal => simp [first] at ran
    | ok middle journal'' =>
      rw [first] at ran
      have rest := ih fun other member => each other (List.mem_cons_of_mem _ member)
      rw [rest middle journal'' tree' journal' ran]
      exact each transformer (List.mem_cons_self ..) tree journal middle journal'' first

/-- The transformers behind a registration are those before it and those that are registered. -/
theorem TransformerSet.mem_all_register {set : TransformerSet} {stage : Stage} {hooks : Hooks}
    {transformer : Transformer} (member : transformer ∈ (set.register stage hooks).all) :
    transformer ∈ set.all ∨ transformer ∈ hooks.before ++ hooks.after := by
  cases stage <;> simp only [register, Hooks.append, all, List.mem_append] at member ⊢ <;> grind

/-- Transformers that keep the file of a tree keep it through all stages. -/
theorem keepsFile_run {set : TransformerSet}
    (each : ∀ transformer ∈ set.all, transformer.KeepsFile) : Transformer.KeepsFile set.run := by
  have hooks (transformers : List Transformer)
      (within : ∀ transformer ∈ transformers, transformer ∈ set.all) :
      Transformer.KeepsFile (applyAll transformers) :=
    keepsFile_applyAll fun transformer member => each transformer (within transformer member)
  have behind {first next : Transformer} (kept : first.KeepsFile) (kept' : next.KeepsFile) :
      Transformer.KeepsFile fun tree => first tree >>= next := by
    intro tree journal tree' journal' ran
    change (first tree >>= next) journal = _ at ran
    rw [run_bind] at ran
    cases done : first tree journal with
    | error failure journal => simp [done] at ran
    | ok middle journal'' =>
      rw [done] at ran
      rw [kept' middle journal'' tree' journal' ran, kept tree journal middle journal'' done]
  have erased {next : Transformer} (kept : next.KeepsFile) :
      Transformer.KeepsFile fun tree => next (eraseTypes tree).1 :=
    fun tree => kept (eraseTypes tree).1
  unfold TransformerSet.run
  refine behind (hooks _ ?_) (behind (hooks _ ?_) (behind (hooks _ ?_)
    (erased (behind (hooks _ ?_) (behind (hooks _ ?_) (hooks _ ?_))))))
  all_goals
    intro transformer member
    simp [TransformerSet.all, member]

section Sole

/-- A host whose transformer renames a variable, behind one whose transformer fails. -/
def renamingHost : Host :=
  { soleHost scriptPath "type A = B;\nlet a = 1;" (.ofFunction (·.rename "a" "b")) with
    options := { sourceMap := some true } }

/-- A script that another host served differently before is emitted alike in both ways. -/
theorem emit_eq_transpileFile_renaming :
    ((({} : Service).after
        ([.setHost (soleHost scriptPath "let c = 1;" fun _ => throw (.addon "transformer" "boom")),
          .emit scriptPath] ++ [.setHost renamingHost])).emit scriptPath).1 =
      transpileFile scriptPath "type A = B;\nlet a = 1;" renamingHost.options
        renamingHost.projectRoot renamingHost.transformers := by
  refine (emit_eq_transpileFile_iff _ renamingHost scriptPath _ rfl
    ⟨by decide +kernel, by decide +kernel⟩).mpr fun _ journal tree journal' ran => ?_
  have keeps : ∀ transformer ∈ renamingHost.transformers.all, transformer.KeepsFile := by
    intro transformer member
    have only : transformer = .ofFunction (·.rename "a" "b") := by
      simpa [renamingHost, soleHost, TransformerSet.all] using member
    rw [only]
    intro tree journal tree' journal' ran
    cases ran
    rfl
  rw [keepsFile_run keeps _ journal tree journal' ran]
  rfl

/-- The names of the files that an emission gives. -/
private def namesIn (step : Journaled Emission) : List Path :=
  match step [] with
  | .ok emission _ => emission.files.map (·.name)
  | .error _ _ => []

def dottedPath : Path := ⟨true, ["p", "..ts"]⟩

/-- Another spelling of the path. -/
def slashedPath : Path := ⟨true, ["p", "..ts", ""]⟩

def dottedHost : Host := soleHost dottedPath "let a = 1;\n" (.ofFunction id)

/-- A transformer that puts the tree of another file in place. -/
def exchangingHost : Host :=
  soleHost scriptPath "let a = 1;\n" fun _ => pure (Tree.parse dottedPath "")

/-- The two ways differ for a service that was asked for another spelling of the path before, and
for transformers that put the tree of another file in place. -/
theorem emit_ne_transpileFile :
    dottedHost.text? dottedPath = some "let a = 1;\n" ∧
      namesIn ((({} : Service).after [.setHost dottedHost, .emit slashedPath]).emit dottedPath).1 =
        [⟨true, ["p", "..js"]⟩] ∧
      namesIn (transpileFile dottedPath "let a = 1;\n" dottedHost.options dottedHost.projectRoot
        dottedHost.transformers) = [⟨true, ["p", ".."]⟩] ∧
      exchangingHost.text? scriptPath = some "let a = 1;\n" ∧
      namesIn ((({} : Service).setHost exchangingHost).emit scriptPath).1 =
        [⟨true, ["p", ".."]⟩] ∧
      namesIn (transpileFile scriptPath "let a = 1;\n" exchangingHost.options
        exchangingHost.projectRoot exchangingHost.transformers) = [⟨true, ["a.js"]⟩] := by
  decide +kernel

end Sole

end Recast.Emit
