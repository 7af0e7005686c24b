import Recast.Json
import Recast.Path.Basic
import Recast.Position

/-!
# Diagnostics

What the program tells its user about scripts, configuration and addons.
-/

namespace Recast

/-- How serious a diagnostic is. -/
inductive Severity where
  | error
  | warning
  | message
deriving DecidableEq, Repr, Inhabited

namespace Severity

/-- The word in front of a printed message. -/
def label : Severity → String
  | error => "error"
  | warning => "warning"
  | message => "info"

/-- The word in a structured report. -/
def keyword : Severity → String
  | error => "error"
  | warning => "warning"
  | message => "message"

end Severity

/-- A message, and where it applies. The chain holds lines that explain it. -/
structure Diagnostic where
  severity : Severity
  code : Option Nat := none
  file : Option Path := none
  position : Option Position := none
  message : String
  chain : List String := []
deriving Repr, Inhabited

namespace Diagnostic

def error (message : String) : Diagnostic :=
  ⟨.error, none, none, none, message, []⟩

def warning (message : String) : Diagnostic :=
  ⟨.warning, none, none, none, message, []⟩

def note (message : String) : Diagnostic :=
  ⟨.message, none, none, none, message, []⟩

def withCode (d : Diagnostic) (code : Nat) : Diagnostic :=
  { d with code := some code }

def withFile (d : Diagnostic) (file : Path) : Diagnostic :=
  { d with file := some file }

def withPosition (d : Diagnostic) (position : Option Position) : Diagnostic :=
  { d with position := position }

def isError (d : Diagnostic) : Bool :=
  d.severity == .error

/-- Whether an error is among the diagnostics. -/
def anyError (ds : List Diagnostic) : Bool :=
  ds.any isError

/-- Files that name the same, or none on both sides. -/
def sameFile : Option Path → Option Path → Bool
  | some p, some q => p.same q
  | none, none => true
  | _, _ => false

/-- Diagnostics that say the same about the same place. -/
def same (a b : Diagnostic) : Bool :=
  a.severity == b.severity && a.code == b.code && sameFile a.file b.file && a.position == b.position &&
    a.message == b.message && a.chain == b.chain

/-- Where a diagnostic applies, as the text in front of it. -/
def place (d : Diagnostic) : String :=
  match d.file, d.position with
  | none, _ => ""
  | some file, none => file.toString ++ " - "
  | some file, some p => file.toString ++ s!":{p.line}:{p.column} - "

/-- The severity and the code. -/
def head (d : Diagnostic) : String :=
  d.severity.label ++
    match d.code with
    | none => ""
    | some code => s!" TP{code}"

/-- The diagnostic as text, each line of the chain indented by two. -/
def text (d : Diagnostic) : String :=
  d.place ++ d.head ++ ": " ++ d.message ++ String.join (d.chain.map fun line => "\n  " ++ line)

/-- The diagnostic as a structured report; what it does not have is left out. -/
def toJson (d : Diagnostic) : Json :=
  .objOf [
    ("category", some (.str d.severity.keyword)),
    ("chain", if d.chain.isEmpty then none else some (.strs d.chain)),
    ("code", d.code.map .nat),
    ("file", d.file.map fun file => .str file.toString),
    ("message", some (.str d.message)),
    ("position", d.position.map fun p => .obj [("column", .nat p.column), ("line", .nat p.line)])]

end Diagnostic

end Recast
