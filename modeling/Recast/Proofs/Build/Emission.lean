import Recast.Proofs.Build.Runs
import Recast.Proofs.Emit.Parsing

/-! # What the emission of a file depends on

The language service is shared by all targets, and its host is replaced before every call. So the
emission of a recorded text depends on the context and on the parsed tree only (`run_emitFile`), and
the service stays faithful to the texts that went through it.
-/

namespace Recast.Build

open Recast.Emit Recast.Script

/-- The session with another language service. -/
def Session.withService (session : Session) (service : Service) : Session :=
  { session with workspace := { session.workspace with service := service } }

namespace Context

/-- The emission of a file whose parsed tree is given. -/
def emitsTree (context : Context) (path : Path) (text : String) (tree : Tree) :
    Journaled Emission :=
  if context.options.wantsNoEmit then pure { skipped := true }
  else if path.isJson then pure { files := jsonFiles path text context.options context.projectRoot }
  else if Diagnostic.anyError tree.faults then pure { diagnostics := tree.faults, skipped := true }
  else do
    let tree ← context.transformers.run tree
    return {
      files := (render tree context.options context.projectRoot).files context.options.wantsBom }

/-- The emission of a file by a service that parses everything anew. -/
def emits (context : Context) (path : Path) (text : String) : Journaled Emission :=
  if context.transpileOnly then
    transpileFile path text context.options context.projectRoot context.transformers
  else context.emitsTree path text (Tree.parse path text)

variable {context : Context} {path : Path} {text : String} {session : Session}

theorem run_installHost (context : Context) (session : Session) :
    context.installHost session =
      .ok ⟨⟩ (session.withService (session.workspace.service.setHost (context.host session))) := rfl

/-- The service answers for the recorded text of the context whose host was installed. -/
theorem emit_eq
    (recorded : (session.workspace.cache.get path context.target).snapshot = some text) :
    (session.workspace.service.setHost (context.host session)).emit path =
      let service := session.workspace.service.setHost (context.host session)
      (context.emitsTree path text (service.parse path text).1,
        if context.options.wantsNoEmit || path.isJson then service
          else (service.parse path text).2) := by
  have asked : (context.host session).text? path = some text := recorded
  unfold Service.emit Service.setHost emitsTree
  dsimp only
  rw [asked]
  dsimp only
  change (if context.options.wantsNoEmit then _ else _) = _
  cases context.options.wantsNoEmit with
  | true => rfl
  | false =>
    cases path.isJson with
    | true => rfl
    | false =>
      simp only [Bool.false_eq_true, ↓reduceIte, Bool.or_self]
      split <;> rfl

variable {texts : Path → String → Prop}

/-- The emission of a recorded text, by a service that knows trees of these texts only. -/
theorem run_emitFile
    (recorded : (session.workspace.cache.get path context.target).snapshot = some text)
    (faithful : session.workspace.service.Faithful texts) (listed : texts path text) :
    ∃ spelled other service, path.same spelled = true ∧ texts spelled other ∧
      Digest.of other = Digest.of text ∧ service.Faithful texts ∧
      context.emitFile path text session =
        Step.journaled
          (if context.transpileOnly then
            transpileFile path text context.options context.projectRoot context.transformers
          else context.emitsTree path text (Tree.parse spelled other))
            (session.withService service) := by
  unfold emitFile
  cases alone : context.transpileOnly with
  | true => exact ⟨path, text, _, Path.same_self path, listed, rfl, faithful, rfl⟩
  | false =>
    obtain ⟨spelled, other, same, known, digests, parsed⟩ :=
      (Service.parse_spec (faithful.setHost (context.host session)) listed).1
    have emitted := emit_eq recorded
    dsimp only at emitted
    rw [parsed] at emitted
    refine ⟨spelled, other, ((session.workspace.service.setHost (context.host session)).emit
      path).2, same, known, digests, ?_, ?_⟩
    · rw [emitted]
      split
      · exact faithful
      · exact faithful.setHost _ |>.parse listed
    · simp only [Bool.false_eq_true, ↓reduceIte]
      unfold emitChecked
      rw [run_bind_ok (context.run_installHost session), run_bind_ok (Step.run_workspace _)]
      dsimp only
      rw [show ((session.withService
        (session.workspace.service.setHost (context.host session))).workspace.service) =
        session.workspace.service.setHost (context.host session) from rfl, emitted]
      rfl

/-- When digests tell the texts apart, the emission is that of a service without trees. -/
theorem run_emitFile_of_tellsApart
    (recorded : (session.workspace.cache.get path context.target).snapshot = some text)
    (faithful : session.workspace.service.Faithful texts) (listed : texts path text)
    (apart : Service.TellsApart texts path text) :
    ∃ service : Service, service.Faithful texts ∧
      context.emitFile path text session =
        Step.journaled (context.emits path text) (session.withService service) := by
  obtain ⟨spelled, other, service, same, known, digests, kept, ran⟩ :=
    run_emitFile recorded faithful listed
  obtain ⟨rfl, rfl⟩ := apart spelled other same known digests
  exact ⟨service, kept, ran⟩

/-- What is wrong with a file whose recorded text is given. -/
def faultsOf (path : Path) : Option String → List Diagnostic
  | none => []
  | some text => (Tree.parse path text).faults ++ redeclarations (Tree.parse path text)

/-- What is wrong with the place of root files. -/
def rootFaults (context : Context) (roots : List Path) : List Diagnostic :=
  Service.optionFaults { host? := some (context.host ⟨default, roots⟩) }

/-- The text that is recorded for a file. -/
def snapshot? (context : Context) (session : Session) (path : Path) : Option String :=
  (session.workspace.cache.get path context.target).snapshot

private theorem tree?_spec {service : Service}
    (installed : service.host? = some (context.host session)) (faithful : service.Faithful texts)
    (listed : ∀ text, context.snapshot? session path = some text → texts path text) :
    (service.tree? path).2.Faithful texts ∧
      (service.tree? path).2.host? = some (context.host session) ∧
      ((∀ text, context.snapshot? session path = some text → Service.TellsApart texts path text) →
        (service.tree? path).1 = (context.snapshot? session path).map (Tree.parse path)) := by
  have asked : service.host?.bind (·.text? path) = context.snapshot? session path := by
    rw [installed]
    rfl
  unfold Service.tree?
  rw [asked]
  cases known : context.snapshot? session path with
  | none => exact ⟨faithful, installed, fun _ => rfl⟩
  | some text =>
    have here := listed text known
    exact ⟨faithful.parse here, (service.parse_host? path text).trans installed,
      fun apart => congrArg some (Service.parse_eq faithful here (apart text rfl))⟩

/-- One file of `collectDiagnostics`. -/
private theorem diagnose_spec {service : Service}
    (installed : service.host? = some (context.host session)) (faithful : service.Faithful texts)
    (listed : ∀ text, context.snapshot? session path = some text → texts path text) :
    let later := ((service.syntactic path).2.semantic path).2
    later.Faithful texts ∧ later.host? = some (context.host session) ∧
      ((∀ text, context.snapshot? session path = some text → Service.TellsApart texts path text) →
        (service.syntactic path).1 ++ ((service.syntactic path).2.semantic path).1 =
          faultsOf path (context.snapshot? session path)) := by
  obtain ⟨kept, host, tree⟩ := tree?_spec installed faithful listed
  obtain ⟨kept', host', tree'⟩ := tree?_spec host kept listed
  refine ⟨kept', host', fun apart => ?_⟩
  unfold Service.syntactic Service.semantic
  dsimp only
  rw [tree apart, tree' apart]
  cases context.snapshot? session path <;> rfl

/-- The diagnostics of a pass, by a service that knows trees of these texts only. -/
theorem run_collectDiagnostics {files : List Path} (emitted : List Diagnostic)
    (faithful : session.workspace.service.Faithful texts)
    (listed : ∀ path ∈ files, ∀ text, context.snapshot? session path = some text →
      texts path text) :
    ∃ (found : List Diagnostic) (service : Service), service.Faithful texts ∧
      context.collectDiagnostics files emitted session =
        .ok (distinct Diagnostic.same (found ++ emitted)) (session.withService service) ∧
      ((∀ path ∈ files, ∀ text, context.snapshot? session path = some text →
        Service.TellsApart texts path text) →
        found = context.rootFaults session.roots ++
          files.flatMap fun path => faultsOf path (context.snapshot? session path)) := by
  let installed := session.workspace.service.setHost (context.host session)
  have folded : ∀ (found : List Diagnostic) (service : Service), service.Faithful texts →
      service.host? = some (context.host session) →
      let result := files.foldl
        (fun state path =>
          (state.1 ++ (state.2.syntactic path).1 ++ ((state.2.syntactic path).2.semantic path).1,
          ((state.2.syntactic path).2.semantic path).2)) (found, service)
      result.2.Faithful texts ∧
        ((∀ path ∈ files, ∀ text, context.snapshot? session path = some text →
          Service.TellsApart texts path text) →
          result.1 = found ++ files.flatMap fun path =>
            faultsOf path (context.snapshot? session path)) := by
    induction files with
    | nil => exact fun found service faithful _ => ⟨faithful, fun _ => by simp⟩
    | cons path files ih =>
      intro found service faithful installed
      obtain ⟨kept, host, exact⟩ :=
        diagnose_spec installed faithful (listed path (List.mem_cons_self ..))
      obtain ⟨kept', all⟩ := ih (fun other member => listed other (List.mem_cons_of_mem _ member))
        (found ++ (service.syntactic path).1 ++ ((service.syntactic path).2.semantic path).1)
          _ kept host
      refine ⟨kept', fun apart => ?_⟩
      rw [List.foldl_cons, List.flatMap_cons, ← exact (apart path (List.mem_cons_self ..))]
      exact (all fun other member => apart other (List.mem_cons_of_mem _ member)).trans (by simp)
  obtain ⟨kept, exact⟩ := folded installed.optionFaults installed (faithful.setHost _) rfl
  exact ⟨_, _, kept, rfl, exact⟩

end Context

end Recast.Build
