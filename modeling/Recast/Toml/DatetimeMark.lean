import Recast.Toml.Document

/-!
# Tables that stand for dates and times

Where values are kept as they are, a table whose first key is a certain mark is the date or time that the text
behind the mark spells, whatever other keys it has. A list of tables is kept as an array.
-/

namespace Recast.Toml

/-- The key under which a date or a time appears as a map. -/
def datetimeKey : String := "$__toml_private_datetime"

/-- The date or time that the whole text spells, as in a document. -/
def Datetime.ofText? (text : String) : Option Datetime :=
  match numeric? text.toList with
  | some (.datetime d, []) => some d
  | _ => none

mutual

/-- A value as it is kept; nothing when a marked table spells no date or time. -/
def Value.settled? : Value → Option Value
  | .array items => (settledItems? items).map .array
  | .tables elements => (settledTables? elements).map .array
  | .table entries => settledTable? entries
  | v => some v

def settledItems? : List Value → Option (List Value)
  | [] => some []
  | v :: rest => do
    let v ← v.settled?
    let rest ← settledItems? rest
    some (v :: rest)

def settledTables? : List (List (String × Value)) → Option (List Value)
  | [] => some []
  | entries :: rest => do
    let v ← settledTable? entries
    let rest ← settledTables? rest
    some (v :: rest)

def settledTable? : List (String × Value) → Option Value
  | [] => some (.table [])
  | (key, v) :: rest =>
    if key = datetimeKey then
      match v with
      | .string text => (Datetime.ofText? text).map .datetime
      | _ => none
    else do
      let v ← v.settled?
      let rest ← settledEntries? rest
      some (.table ((key, v) :: rest))

def settledEntries? : List (String × Value) → Option (List (String × Value))
  | [] => some []
  | (key, v) :: rest => do
    let v ← v.settled?
    let rest ← settledEntries? rest
    some ((key, v) :: rest)

end

/-- A table whose values are kept as they are. A mark among its own keys does not count. -/
def Table.settled? (t : Table) : Option Table :=
  settledEntries? t

/-- The table of a document, as it is kept. -/
def readTable? (text : String) : Option Table := do
  Table.settled? (← parse? text)

end Recast.Toml
