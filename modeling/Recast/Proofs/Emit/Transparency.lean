import Recast.Proofs.Emit.Parsing

/-! # The store of parsed trees cannot be seen

A language service keeps parsed trees across hosts, and transformers rewrite the trees that it takes
from there. A history of calls reads some snapshots. As long as their paths have one spelling each
and digests tell the snapshots of a path apart, every answer is the one that a new service gives for
the host of that moment (`answer_after_eq_fresh`).
-/

namespace Recast.Emit

open Recast.Script

/-- What the language service is asked. A host whose files have changed is one that is installed
anew. -/
inductive Call where
  | setHost (host : Host)
  | emit (path : Path)
  | syntactic (path : Path)
  | semantic (path : Path)
  | program
  | optionFaults

namespace Call

/-- The host behind a call. -/
def hostBehind (host? : Option Host) : Call → Option Host
  | setHost host => some host
  | _ => host?

/-- The file whose snapshot a call reads. -/
def path? : Call → Option Path
  | emit path => some path
  | syntactic path => some path
  | semantic path => some path
  | _ => none

/-- The snapshot that a call reads from the host. -/
def snapshot? (host? : Option Host) (call : Call) : Option (Path × String) := do
  let path ← call.path?
  let text ← (← host?).text? path
  return (path, text)

end Call

/-- The host that was installed last. -/
def lastHost? (calls : List Call) : Option Host :=
  calls.foldl Call.hostBehind none

/-- The snapshots that calls read, beginning with some host. -/
def snapshots : Option Host → List Call → List (Path × String)
  | _, [] => []
  | host?, call :: calls => (call.snapshot? host?).toList ++ snapshots (call.hostBehind host?) calls

/-- Snapshots of which each path has one spelling, and of which digests tell those of one path
apart. -/
structure Distinguished (read : List (Path × String)) : Prop where
  spelled : ∀ a ∈ read, ∀ b ∈ read, a.1.same b.1 = true → a.1 = b.1
  digests : ∀ a ∈ read, ∀ b ∈ read, a.1 = b.1 → Digest.of a.2 = Digest.of b.2 → a.2 = b.2

/-- What the service answers; an emission is a step that has not run yet. -/
inductive Answer where
  | nothing
  | emission (step : Journaled Emission)
  | faults (diagnostics : List Diagnostic)
  | program (program? : Option Program)

namespace Service

/-- The answer to a call. -/
def answer (service : Service) : Call → Answer
  | .setHost _ => .nothing
  | .emit path => .emission (service.emit path).1
  | .syntactic path => .faults (service.syntactic path).1
  | .semantic path => .faults (service.semantic path).1
  | .program => .program service.program
  | .optionFaults => .faults service.optionFaults

/-- The service behind a call. -/
def next (service : Service) : Call → Service
  | .setHost host => service.setHost host
  | .emit path => (service.emit path).2
  | .syntactic path => (service.syntactic path).2
  | .semantic path => (service.semantic path).2
  | .program | .optionFaults => service

/-- The service behind some calls. -/
def after (service : Service) (calls : List Call) : Service :=
  calls.foldl next service

/-- A new service, which was told a host if there is one. -/
def fresh : Option Host → Service
  | none => {}
  | some host => ({} : Service).setHost host

variable {service other : Service} {call : Call} {texts : Path → String → Prop}

theorem host?_fresh (host? : Option Host) : (fresh host?).host? = host? := by
  cases host? <;> rfl

theorem parse_fresh (host? : Option Host) (path : Path) (text : String) :
    ((fresh host?).parse path text).1 = Tree.parse path text := by
  cases host? <;> rfl

theorem snapshot?_eq_some {host? : Option Host} {path : Path} {text : String} :
    call.snapshot? host? = some (path, text) ↔
      call.path? = some path ∧ host?.bind (·.text? path) = some text := by
  constructor
  · intro read
    obtain ⟨_, about, read⟩ := Option.bind_eq_some_iff.mp read
    obtain ⟨host, installed, read⟩ := Option.bind_eq_some_iff.mp read
    obtain ⟨_, served, same⟩ := Option.bind_eq_some_iff.mp read
    cases same
    exact ⟨about, by rw [installed]; exact served⟩
  · rintro ⟨about, read⟩
    obtain ⟨host, rfl, served⟩ := Option.bind_eq_some_iff.mp read
    simp [Call.snapshot?, about, served]

/-- An answer depends on the host, and on the tree of the snapshot that the call reads. -/
theorem answer_congr (host : service.host? = other.host?)
    (tree : ∀ path text, call.snapshot? service.host? = some (path, text) →
      (service.parse path text).1 = (other.parse path text).1) :
    service.answer call = other.answer call := by
  have trees {path : Path} (about : call.path? = some path) :
      (service.tree? path).1 = (other.tree? path).1 := by
    unfold tree?
    rw [← host]
    cases served : service.host?.bind (·.text? path) with
    | none => rfl
    | some text => exact congrArg some (tree path text (snapshot?_eq_some.mpr ⟨about, served⟩))
  cases call with
  | setHost _ => rfl
  | program => simp only [answer, Service.program, host]
  | optionFaults => simp only [answer, Service.optionFaults, host]
  | syntactic path => simp only [answer, Service.syntactic, trees rfl]
  | semantic path => simp only [answer, Service.semantic, trees rfl]
  | emit path =>
    unfold answer Service.emit
    rw [← host]
    cases installed : service.host? with
    | none => rfl
    | some host =>
      dsimp only
      cases served : host.text? path with
      | none => rfl
      | some text =>
        have same := tree path text (snapshot?_eq_some.mpr ⟨rfl, by rw [installed]; exact served⟩)
        dsimp only
        rw [same]
        split
        · rfl
        · split
          · rfl
          · split <;> rfl

theorem tree?_spec (faithful : service.Faithful texts) {path : Path}
    (listed : ∀ text, service.host?.bind (·.text? path) = some text → texts path text) :
    (service.tree? path).2.Faithful texts ∧ (service.tree? path).2.host? = service.host? := by
  unfold tree?
  cases served : service.host?.bind (·.text? path) with
  | none => exact ⟨faithful, rfl⟩
  | some text => exact ⟨faithful.parse (listed text served), service.parse_host? path text⟩

/-- A call keeps a service faithful to texts among which is the snapshot that it reads. -/
theorem next_spec (faithful : service.Faithful texts)
    (listed : ∀ path text, call.snapshot? service.host? = some (path, text) → texts path text) :
    (service.next call).Faithful texts ∧
      (service.next call).host? = call.hostBehind service.host? := by
  have known {path : Path} (about : call.path? = some path) (text : String)
      (served : service.host?.bind (·.text? path) = some text) : texts path text :=
    listed path text (snapshot?_eq_some.mpr ⟨about, served⟩)
  cases call with
  | setHost host => exact ⟨faithful.setHost host, rfl⟩
  | program | optionFaults => exact ⟨faithful, rfl⟩
  | syntactic path | semantic path => exact tree?_spec faithful (known rfl)
  | emit path =>
    have parsed (host : Host) (installed : service.host? = some host) (text : String)
        (served : host.text? path = some text) :
        (service.parse path text).2.Faithful texts ∧
          (service.parse path text).2.host? = service.host? :=
      ⟨faithful.parse (known rfl text (by rw [installed]; exact served)),
        service.parse_host? path text⟩
    unfold next Service.emit
    dsimp only [Call.hostBehind]
    split
    · exact ⟨faithful, rfl⟩
    · next host installed =>
      split
      · exact ⟨faithful, rfl⟩
      · next text served =>
        split
        · exact ⟨faithful, rfl⟩
        · split
          · exact ⟨faithful, rfl⟩
          · split <;> exact parsed host installed text served

/-- Behind any calls a service is faithful to the snapshots that they read, and its host is the last
one. -/
theorem after_spec (faithful : service.Faithful texts) (calls : List Call)
    (listed : ∀ read ∈ snapshots service.host? calls, texts read.1 read.2) :
    (service.after calls).Faithful texts ∧
      (service.after calls).host? = calls.foldl Call.hostBehind service.host? := by
  induction calls generalizing service with
  | nil => exact ⟨faithful, rfl⟩
  | cons call calls ih =>
    have first : ∀ path text, call.snapshot? service.host? = some (path, text) → texts path text :=
      fun path text read =>
        listed (path, text) (List.mem_append_left _ (by rw [read]; exact List.mem_cons_self ..))
    obtain ⟨kept, host⟩ := next_spec faithful first
    rw [List.foldl_cons, ← host]
    refine ih kept fun read member => listed read (List.mem_append_right _ ?_)
    rwa [← host]

end Service

theorem snapshots_append (host? : Option Host) (before calls : List Call) :
    snapshots host? (before ++ calls) =
      snapshots host? before ++ snapshots (before.foldl Call.hostBehind host?) calls := by
  induction before generalizing host? with
  | nil => rfl
  | cons call before ih => simp only [List.cons_append, snapshots, ih, List.foldl_cons,
      List.append_assoc]

/-- A path and a text in a list of snapshots that are distinguished are told apart by digests. -/
theorem Distinguished.tellsApart {read : List (Path × String)} (apart : Distinguished read)
    {path : Path} {text : String} (member : (path, text) ∈ read) :
    Service.TellsApart (fun path text => (path, text) ∈ read) path text := by
  intro spelled other same known digests
  have here := apart.spelled _ member _ known same
  exact ⟨here.symm, (apart.digests _ member _ known here digests.symm).symm⟩

/-- Behind any calls, a service answers the next one as a new service does that was only told the
host of that moment; and the trees that it keeps then are parsed from snapshots that were read, with
nothing that a transformer did to them. -/
theorem answer_after_eq_fresh (before : List Call) (call : Call)
    (apart : Distinguished (snapshots none (before ++ [call]))) :
    (({} : Service).after before).answer call =
        (Service.fresh (lastHost? before)).answer call ∧
      (({} : Service).after (before ++ [call])).Faithful fun path text =>
        (path, text) ∈ snapshots none (before ++ [call]) := by
  have split := snapshots_append none before [call]
  have start : ({} : Service).Faithful fun path text =>
      (path, text) ∈ snapshots none (before ++ [call]) := Service.faithful_empty none
  obtain ⟨faithful, host⟩ := Service.after_spec start before fun read member => by
    rw [split]
    exact List.mem_append_left _ member
  refine ⟨Service.answer_congr (host.trans (Service.host?_fresh _).symm) fun path text read => ?_,
    (Service.after_spec (Service.faithful_empty none) _ fun _ member => member).1⟩
  rw [host] at read
  have member : (path, text) ∈ snapshots none (before ++ [call]) := by
    rw [split]
    refine List.mem_append_right _ (List.mem_append_left _ ?_)
    rw [read]
    exact List.mem_cons_self ..
  rw [Service.parse_eq faithful member (apart.tellsApart member), Service.parse_fresh]

section Rewriting

def scriptPath : Path := ⟨true, ["a.ts"]⟩

/-- A host with one script and one transformer. -/
def soleHost (script : Path) (text : String) (transformer : Transformer) : Host where
  projectName := "/"
  projectRoot := ⟨true, []⟩
  roots := [script]
  options := {}
  transformers := { emit := { before := [transformer] } }
  version _ := 1
  text? path := if path.same script then some text else none

/-- A transformer throws all tokens away, another one fails on another text, and the first text
comes back. -/
def rewritingCalls : List Call :=
  [.setHost (soleHost scriptPath "let a = 1;" (.ofFunction (·.withTokens []))), .emit scriptPath,
    .setHost (soleHost scriptPath "let b = 2;" fun _ => throw (.addon "transformer" "boom")),
    .emit scriptPath, .semantic scriptPath,
    .setHost (soleHost scriptPath "let a = 1;" (.ofFunction id))]

/-- The text is emitted as if no transformer had seen it before. -/
theorem answer_after_rewritingCalls :
    (({} : Service).after rewritingCalls).answer (.emit scriptPath) =
        (Service.fresh (lastHost? rewritingCalls)).answer (.emit scriptPath) ∧
      (({} : Service).after (rewritingCalls ++ [.emit scriptPath])).Faithful fun path text =>
        (path, text) ∈ snapshots none (rewritingCalls ++ [.emit scriptPath]) :=
  answer_after_eq_fresh rewritingCalls (.emit scriptPath) ⟨by decide +kernel, by decide +kernel⟩

end Rewriting

end Recast.Emit
