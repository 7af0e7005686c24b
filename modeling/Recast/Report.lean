import Recast.Diagnostic

/-!
# Reports

What a build says while it runs: diagnostics, and statuses of watch mode. A report is written as text for people,
or as one event for programs.
-/

namespace Recast

/-- Something that is reported. -/
inductive Report where
  | diagnostic (diagnostic : Diagnostic)
  | status (message newLine : String)
deriving Repr, Inhabited

/-- A colour of a terminal, by its number. -/
structure Color where
  number : Nat

namespace Color

def red : Color := ⟨9⟩
def yellow : Color := ⟨11⟩
def cyan : Color := ⟨14⟩
def darkGrey : Color := ⟨8⟩

/-- A text in a colour. -/
def paint (color : Color) (text : String) : String :=
  "\x1b[38;5;" ++ toString color.number ++ "m" ++ text ++ "\x1b[39m"

end Color

def Severity.color : Severity → Color
  | error => .red
  | warning => .yellow
  | message => .cyan

/-- The lines of a chain, each two columns deeper than the one before. -/
def chainLines (depth : Nat) : List String → String
  | [] => ""
  | line :: rest => "\n" ++ String.ofList (List.replicate (2 * depth) ' ') ++ line ++ chainLines (depth + 1) rest

/-- A diagnostic for people. -/
def Diagnostic.consoleText (colored : Bool) (d : Diagnostic) : String :=
  let file := match d.file with
    | none => ""
    | some file =>
      let place := match d.position with
        | some p => ":" ++ toString p.line ++ ":" ++ toString p.column
        | none => ""
      file.toString ++ place ++ " - "
  let label := d.severity.label ++ (d.code.map fun code => " TP" ++ toString code).getD ""
  file ++ (if colored then d.severity.color.paint label else label) ++ ": " ++ d.message ++ chainLines 1 d.chain

namespace Report

/-- What is written for people when the clock shows a time. -/
def consoleText (colored : Bool) (clock : String) : Report → String
  | diagnostic d => d.consoleText colored ++ "\n"
  | status message newLine =>
    "[" ++ (if colored then Color.darkGrey.paint clock else clock) ++ "] " ++ message ++ newLine

/-- The event that is written for programs. -/
def event (time : String) : Report → Json
  | diagnostic d => .obj [("diagnostic", d.toJson), ("event", .str "diagnostic")]
  | status message _ => .obj [("event", .str "watch_status"), ("message", .str message), ("time", .str time)]

def diagnostic? : Report → Option Diagnostic
  | diagnostic d => some d
  | status .. => none

def status? : Report → Option String
  | diagnostic _ => none
  | status message _ => some message

/-- The line ending that a status brings. -/
def newLine? : Report → Option String
  | diagnostic _ => none
  | status _ newLine => some newLine

end Report

end Recast
