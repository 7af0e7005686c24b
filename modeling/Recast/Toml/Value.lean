import Recast.Decimal.Shortest

/-!
# TOML values

Tables keep the order of the document.
-/

namespace Recast.Toml

/-- A day of the calendar. -/
structure Date where
  year : Nat
  month : Nat
  day : Nat
deriving DecidableEq, Repr, Inhabited

/-- A time of day. -/
structure Time where
  hour : Nat
  minute : Nat
  second : Nat
  nanosecond : Nat
deriving DecidableEq, Repr, Inhabited

/-- A distance from universal time. -/
inductive Offset where
  | utc
  | minutes (count : Int)
deriving DecidableEq, Repr, Inhabited

/-- A date, a time, or both; an offset goes with both. -/
structure Datetime where
  date : Option Date
  time : Option Time
  offset : Option Offset
deriving DecidableEq, Repr, Inhabited

/-- A value of a document. -/
inductive Value where
  | string (text : String)
  | integer (value : Int)
  | float (value : Float)
  | boolean (value : Bool)
  | datetime (value : Datetime)
  | array (items : List Value)
  /-- An array that headers build, a table each. -/
  | tables (elements : List (List (String × Value)))
  | table (entries : List (String × Value))
deriving Inhabited, Repr

/-- A table: keys with their values. -/
abbrev Table := List (String × Value)

/-- The decimal digits of a number, with zeros in front up to a width. -/
def padded (width n : Nat) : String :=
  let digits := Nat.toDigits 10 n
  String.ofList (List.replicate (width - digits.length) '0' ++ digits)

def Date.text (d : Date) : String :=
  padded 4 d.year ++ "-" ++ padded 2 d.month ++ "-" ++ padded 2 d.day

/-- A time, with a fraction of the second when it is not zero. -/
def Time.text (t : Time) : String :=
  let fraction :=
    if t.nanosecond = 0 then ""
    else String.ofList ('.' :: ((padded 9 t.nanosecond).toList.reverse.dropWhile (· == '0')).reverse)
  padded 2 t.hour ++ ":" ++ padded 2 t.minute ++ ":" ++ padded 2 t.second ++ fraction

def Offset.text : Offset → String
  | utc => "Z"
  | minutes count =>
    (if count < 0 then "-" else "+") ++ padded 2 (count.natAbs / 60) ++ ":" ++ padded 2 (count.natAbs % 60)

def Datetime.text (d : Datetime) : String :=
  let date := (d.date.map Date.text).getD ""
  let time := (d.time.map Time.text).getD ""
  date ++ (if d.date.isSome && d.time.isSome then "T" else "") ++ time ++ (d.offset.map Offset.text).getD ""

/-- The name of the type of a value. -/
def Value.typeName : Value → String
  | string _ => "string"
  | integer _ => "integer"
  | float _ => "float"
  | boolean _ => "boolean"
  | datetime _ => "datetime"
  | array _ => "array"
  | tables _ => "array"
  | table _ => "table"

/-- The value of a key. -/
def Table.get? (t : Table) (key : String) : Option Value :=
  t.lookup key

/-- Puts a pair into its place of a sorted table, or the value behind the key that is there. -/
def Table.insert (key : String) (value : Value) : Table → Table
  | [] => [(key, value)]
  | (other, old) :: rest =>
    if key = other then (key, value) :: rest
    else if key < other then (key, value) :: (other, old) :: rest
    else (other, old) :: Table.insert key value rest

/-- The entries of a table by key. -/
def Table.sorted (t : Table) : Table :=
  t.foldl (fun sorted entry => Table.insert entry.1 entry.2 sorted) []

/-- A table with the entries of another one laid over it. -/
def Table.overlaid (base top : Table) : Table :=
  top.foldl (fun merged entry => Table.insert entry.1 entry.2 merged) base

end Recast.Toml
