import Recast.Script.Token

/-!
# Brackets

Every closing bracket must match the last one that is open. A bracket that does not match closes the open one
all the same, so that one slip is reported once; what stays open at the end is reported for the innermost.
-/

namespace Recast.Script

/-- The kinds of brackets. -/
inductive Bracket where
  | round
  | square
  | curly
deriving DecidableEq, Repr, Inhabited

/-- The closing mark of a bracket. -/
def Bracket.closing : Bracket → String
  | round => ")"
  | square => "]"
  | curly => "\x7d"

/-- What a token does to the brackets that are open. -/
inductive BracketRole where
  | opens (bracket : Bracket)
  | closes (bracket : Bracket)
  | none
deriving DecidableEq, Repr, Inhabited

/-- The role of a text. -/
def roleOfText (text : String) : BracketRole :=
  if text = "(" then .opens .round
  else if text = "[" then .opens .square
  else if text = "\x7b" then .opens .curly
  else if text = ")" then .closes .round
  else if text = "]" then .closes .square
  else if text = "\x7d" then .closes .curly
  else .none

namespace Token

/-- The role of a token; only punctuation has one. -/
def role (t : Token) : BracketRole :=
  if t.kind = .punctuation then roleOfText t.text else .none

def isOpen (t : Token) : Bool :=
  match t.role with
  | .opens _ => true
  | _ => false

def isClose (t : Token) : Bool :=
  match t.role with
  | .closes _ => true
  | _ => false

/-- How many brackets are open behind the token; below zero when more were closed. -/
def depthAfter (t : Token) (depth : Int) : Int :=
  match t.role with
  | .opens _ => depth + 1
  | .closes _ => depth - 1
  | .none => depth

end Token

/-- What is wrong with a bracket. -/
inductive BracketFault where
  | expected (bracket : Bracket)
  | stray
deriving DecidableEq, Repr, Inhabited

namespace BracketFault

def code : BracketFault → Nat
  | expected _ => 1005
  | stray => 1128

def message : BracketFault → String
  | expected bracket => "'" ++ bracket.closing ++ "' expected."
  | stray => "Declaration or statement expected."

end BracketFault

/-- The faults of the brackets, each with the offset of its token; `finish` is the offset of the end. The
brackets that are open are listed innermost first. -/
def bracketFaults (finish : Nat) : List Bracket → List Token → List (Nat × BracketFault)
  | [], [] => []
  | bracket :: _, [] => [(finish, .expected bracket)]
  | stack, t :: ts =>
    match t.role, stack with
    | .none, _ => bracketFaults finish stack ts
    | .opens bracket, _ => bracketFaults finish (bracket :: stack) ts
    | .closes _, [] => (t.offset.getD 0, .stray) :: bracketFaults finish [] ts
    | .closes bracket, opened :: stack =>
      if bracket = opened then bracketFaults finish stack ts
      else (t.offset.getD 0, .expected opened) :: bracketFaults finish stack ts

end Recast.Script
