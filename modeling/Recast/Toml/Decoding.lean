import Recast.Path.Basic
import Recast.Text.Visible
import Recast.Toml.DatetimeMark

/-!
# Typed reading of TOML values

A value is read as what the program expects there. The first value that does not fit ends the reading with an
offence; keys that nobody expects are collected, in the order of the document.
-/

namespace Recast.Toml

/-- Why a value does not fit. -/
inductive Offence where
  | wrongType (found : String) (expected : String)
  | unknownVariant (name : String) (expected : List String)
  | unknownField (name : String) (expected : List String)
  | notAVariant
  | notOneEntry (isEmpty : Bool)
  | notEmpty (kind : String)
  | notATable (found : String)
  | notADatetime
deriving DecidableEq, Repr, Inhabited

/-- Names in marks, the last two joined by a word. -/
def alternatives (names : List String) : String :=
  let marked := names.map fun name => "\x60" ++ name ++ "\x60"
  match marked with
  | [first, second] => first ++ " or " ++ second
  | [only] => only
  | names => "one of " ++ ", ".intercalate names

/-- The wording of an offence. -/
def Offence.message : Offence → String
  | wrongType found expected => "invalid type: " ++ found ++ ", expected " ++ expected
  | unknownVariant name expected => "unknown variant \x60" ++ name ++ "\x60, expected " ++ alternatives expected
  | unknownField name expected => "unknown field \x60" ++ name ++ "\x60, expected " ++ alternatives expected
  | notAVariant => "wanted string or table"
  | notOneEntry isEmpty =>
    "wanted exactly 1 element, " ++ if isEmpty then "found 0 elements" else "more than 1 element"
  | notEmpty kind => "expected empty " ++ kind
  | notATable found => "expected table, found " ++ found
  | notADatetime => "failed to parse datetime"

/-- How numbers are written in a message. -/
def messageFormat : Decimal.Format := ⟨none, none, true⟩

/-- What a value is, for a message. Dates and times count as maps. -/
def Value.description : Value → String
  | string text => "string " ++ Text.quoteVisible text
  | integer n => "integer \x60" ++ toString n ++ "\x60"
  | float x => "floating point \x60" ++ Decimal.floatText messageFormat x ++ "\x60"
  | boolean b => "boolean \x60" ++ (if b then "true" else "false") ++ "\x60"
  | datetime _ => "map"
  | array _ => "sequence"
  | tables _ => "sequence"
  | table _ => "map"

/-- A reading that may end with an offence and collects the keys that nobody expects. -/
abbrev Decoding := StateT (List String) (Except Offence)

/-- A value of another type than expected. -/
def mismatch {α : Type} (v : Value) (expected : String) : Decoding α :=
  throw (.wrongType v.description expected)

/-- Notes a key that nobody expects. -/
def unexpected (key : String) : Decoding Unit :=
  modify (· ++ [key])

/-- The items of a value that counts as a sequence. -/
def Value.items? : Value → Option (List Value)
  | array items => some items
  | tables elements => some (elements.map table)
  | _ => none

/-- The entries of a value that counts as a map. -/
def Value.entries? : Value → Option Table
  | table entries => some entries
  | datetime d => some [(datetimeKey, .string d.text)]
  | _ => none

def asBool (v : Value) : Decoding Bool :=
  match v with
  | .boolean b => pure b
  | v => mismatch v "a boolean"

def asText (v : Value) : Decoding String :=
  match v with
  | .string text => pure text
  | v => mismatch v "a string"

def asPath (v : Value) : Decoding Path :=
  match v with
  | .string text => pure (.ofString text)
  | v => mismatch v "path string"

/-- A list, read item by item. -/
def asList {α : Type} (item : Value → Decoding α) (v : Value) : Decoding (List α) :=
  match v.items? with
  | some items => items.mapM item
  | none => mismatch v "a sequence"

/-- A map, read entry by entry. -/
def asMap {α : Type} (item : Value → Decoding α) (v : Value) : Decoding (List (String × α)) :=
  match v.entries? with
  | some entries => entries.mapM fun (key, v) => do return (key, ← item v)
  | none => mismatch v "a map"

/-- A table that is kept as it is, by key. -/
def asTable (v : Value) : Decoding Table :=
  match v.entries? with
  | some entries =>
    match entries.settled? with
    | some entries => pure entries.sorted
    | none => throw .notADatetime
  | none => mismatch v "a map"

/-- The entries of a record: a map, or a list of the fields in their order. -/
def asRecord (name : String) (fields : List String) (v : Value) : Decoding Table :=
  match v.items?, v.entries? with
  | some items, _ => pure (fields.zip items)
  | none, some entries => pure entries
  | none, none => mismatch v ("struct " ++ name)

/-- A value without content, as it may stand behind the name of a variant. -/
def asNothing (v : Value) : Decoding Unit :=
  match v with
  | .array items => if items.isEmpty then pure () else throw (.notEmpty "table")
  | .tables elements => if elements.isEmpty then pure () else throw (.notEmpty "array")
  | .table entries => if entries.isEmpty then pure () else throw (.notEmpty "table")
  | v => throw (.notATable v.typeName)

/-- One of some names: a text, or a map with the name as its only key. -/
def asVariant (names : List String) (v : Value) : Decoding String := do
  let check (name : String) : Decoding Unit :=
    if names.contains name then pure () else throw (.unknownVariant name names)
  match v with
  | .string name =>
    check name
    return name
  | .table [] => throw (.notOneEntry true)
  | .table [(name, content)] =>
    check name
    asNothing content
    return name
  | .table _ => throw (.notOneEntry false)
  | _ => throw .notAVariant

end Recast.Toml
