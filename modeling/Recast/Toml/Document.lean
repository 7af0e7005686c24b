import Recast.Toml.Scalar

/-!
# TOML documents

A document is read in two steps: its statements, and the tables that they build. Every table is defined once; a
table that a longer header or a dotted key implies may still be filled, in the way that implied it.
-/

namespace Recast.Toml

/-- How a table came to be. -/
inductive TableKind where
  /-- By a header, or as a value in braces. -/
  | explicit
  /-- As a part of a longer header. -/
  | implied
  /-- As a part of a dotted key. -/
  | dotted
deriving DecidableEq, Repr, Inhabited

/-- What a key of an unfinished document stands for. -/
inductive Node where
  | value (v : Value)
  | table (kind : TableKind) (entries : List (String × Node))
  | tables (elements : List (List (String × Node)))
deriving Inhabited, Repr

/-- The entries of an unfinished table. -/
abbrev Entries := List (String × Node)

mutual

def Node.toValue : Node → Value
  | .value v => v
  | .table _ entries => .table (entriesToTable entries)
  | .tables elements => .tables (elementsToTables elements)

def entriesToTable : List (String × Node) → List (String × Value)
  | [] => []
  | (key, node) :: rest => (key, node.toValue) :: entriesToTable rest

def elementsToTables : List (List (String × Node)) → List (List (String × Value))
  | [] => []
  | element :: rest => entriesToTable element :: elementsToTables rest

end

/-- The entries with another node behind a key that is there. -/
def replaceNode (key : String) (node : Node) (entries : Entries) : Entries :=
  entries.map fun entry => if entry.1 = key then (key, node) else entry

/-- Changes the table at the end of a path, making tables on the way; the last table of a list of tables stands
for the list. A dotted path enters only tables that are not explicit. -/
def descend {α : Type} (dotted : Bool) (change : TableKind → Entries → Option (α × Entries)) :
    List String → TableKind → Entries → Option (α × Entries)
  | [], kind, entries => change kind entries
  | key :: path, _, entries =>
    match entries.lookup key with
    | none => do
      let kind := if dotted then TableKind.dotted else .implied
      let (found, inner) ← descend dotted change path kind []
      some (found, entries ++ [(key, .table kind inner)])
    | some (.table kind inner) =>
      if dotted && kind = .explicit then none
      else do
        let (found, inner) ← descend dotted change path kind inner
        some (found, replaceNode key (.table kind inner) entries)
    | some (.tables elements) => do
      let last ← elements.getLast?
      let (found, inner) ← descend dotted change path .explicit last
      some (found, replaceNode key (.tables (elements.dropLast ++ [inner])) entries)
    | some (.value _) => none

/-- Sets a key, which may have parts, in a table. -/
def addPair (entries : Entries) (path : List String) (key : String) (v : Value) : Option Entries :=
  let set (kind : TableKind) (entries : Entries) : Option (Unit × Entries) :=
    if (kind == .dotted) == path.isEmpty || (entries.lookup key).isSome then none
    else some ((), entries ++ [(key, .value v)])
  (descend true set path .explicit entries).map (·.2)

/-- Cuts the last part off. -/
def splitLast : List String → Option (List String × String)
  | [] => none
  | parts => parts.getLast?.map (parts.dropLast, ·)

/-- The table of the pairs between braces. -/
def inlineTable? (pairs : List (List String × Value)) : Option Value := do
  let entries ← pairs.foldlM (fun entries (parts, v) => do
    let (path, key) ← splitLast parts
    addPair entries path key v) ([] : Entries)
  some (.table (entriesToTable entries))

/-- Skips a comment. -/
def skipComment? : List Char → Option (List Char)
  | '#' :: cs => some (cs.dropWhile isPlain)
  | cs => some cs

/-- Skips blanks, line breaks and comments; `fuel` bounds their number. -/
def skipLines (fuel : Nat) (cs : List Char) : Option (List Char) :=
  match fuel with
  | 0 => some cs
  | fuel + 1 =>
    match skipSpace cs with
    | '#' :: cs => do
      let rest ← newLine? (cs.dropWhile isPlain)
      skipLines fuel rest
    | '\n' :: cs => skipLines fuel cs
    | '\r' :: cs => do
      let rest ← newLine? ('\r' :: cs)
      skipLines fuel rest
    | cs => some cs

/-- The items of an array behind its opening bracket; `fuel` bounds their number. -/
def items? (item? : Reader Value) (fuel : Nat) (cs : List Char) : Option (List Value × List Char) :=
  match fuel with
  | 0 => none
  | fuel + 1 => do
    let cs ← skipLines cs.length cs
    match cs with
    | ']' :: rest => some ([], rest)
    | cs =>
      let (item, rest) ← item? cs
      let rest ← skipLines rest.length rest
      match rest with
      | ',' :: rest =>
        let (others, rest) ← items? item? fuel rest
        some (item :: others, rest)
      | ']' :: rest => some ([item], rest)
      | _ => none

/-- A key and its value. -/
def pair? (item? : Reader Value) (cs : List Char) : Option ((List String × Value) × List Char) := do
  let (key, rest) ← key? cs
  let '=' :: rest := rest | none
  let (v, rest) ← item? (skipSpace rest)
  some ((key, v), skipSpace rest)

/-- The pairs of a table behind its opening brace, of which there is one at least. -/
def pairs? (item? : Reader Value) (fuel : Nat) (cs : List Char) :
    Option (List (List String × Value) × List Char) :=
  match fuel with
  | 0 => none
  | fuel + 1 => do
    let (pair, rest) ← pair? item? cs
    match rest with
    | ',' :: rest =>
      let (others, rest) ← pairs? item? fuel rest
      some (pair :: others, rest)
    | '\x7d' :: rest => some ([pair], rest)
    | _ => none

/-- A value; `depth` bounds how many arrays and tables may stand inside one another. -/
def value? (depth : Nat) (cs : List Char) : Option (Value × List Char) :=
  match depth, cs with
  | depth + 1, '[' :: cs => (items? (value? depth) (cs.length + 1) cs).map fun (items, rest) => (.array items, rest)
  | depth + 1, '\x7b' :: cs =>
    match skipSpace cs with
    | '\x7d' :: rest => some (.table [], rest)
    | cs => do
      let (pairs, rest) ← pairs? (value? depth) (cs.length + 1) cs
      let table ← inlineTable? pairs
      some (table, rest)
  | _, '"' :: _ => (string? cs).map fun (text, rest) => (.string (String.ofList text), rest)
  | _, '\'' :: _ => (string? cs).map fun (text, rest) => (.string (String.ofList text), rest)
  | _, 't' :: 'r' :: 'u' :: 'e' :: rest => some (.boolean true, rest)
  | _, 'f' :: 'a' :: 'l' :: 's' :: 'e' :: rest => some (.boolean false, rest)
  | _, _ => numeric? cs

/-- A statement of a document. -/
inductive Statement where
  | pair (key : List String) (v : Value)
  | header (key : List String)
  | arrayHeader (key : List String)

/-- The end of a line behind a statement. -/
def lineEnd? (cs : List Char) : Option (List Char) := do
  let rest ← skipComment? (skipSpace cs)
  match rest with
  | [] => some []
  | rest => newLine? rest

/-- A statement with the end of its line. -/
def statement? : Reader Statement
  | '[' :: '[' :: cs => do
    let (key, rest) ← key? cs
    let ']' :: ']' :: rest := rest | none
    let rest ← lineEnd? rest
    some (.arrayHeader key, rest)
  | '[' :: cs => do
    let (key, rest) ← key? cs
    let ']' :: rest := rest | none
    let rest ← lineEnd? rest
    some (.header key, rest)
  | cs => do
    let ((key, v), rest) ← pair? (value? depthLimit) cs
    let rest ← lineEnd? rest
    some (.pair key v, rest)

/-- The statements of a document; `fuel` bounds the number of its lines. -/
def statements? (fuel : Nat) (cs : List Char) : Option (List Statement) :=
  match fuel with
  | 0 => none
  | fuel + 1 =>
    match skipSpace cs with
    | [] => some []
    | '#' :: cs => do
      let rest ← lineEnd? ('#' :: cs)
      statements? fuel rest
    | '\n' :: cs => statements? fuel cs
    | '\r' :: cs => do
      let rest ← newLine? ('\r' :: cs)
      statements? fuel rest
    | cs => do
      let (statement, rest) ← statement? cs
      let others ← statements? fuel rest
      some (statement :: others)

/-- A document in the making: the finished tables, and the one that is being filled, which belongs to the
header above it. -/
structure Draft where
  root : Entries
  header : Option (List String × Bool)
  entries : Entries

/-- Puts the table that was filled into its place. -/
def Draft.finish (draft : Draft) : Option Entries :=
  match draft.header with
  | none => some draft.entries
  | some (parts, isArray) => do
    let (path, key) ← splitLast parts
    let put (_ : TableKind) (entries : Entries) : Option (Unit × Entries) :=
      match entries.lookup key with
      | none => some ((), entries ++ [(key, if isArray then .tables [draft.entries] else .table .explicit draft.entries)])
      | some (.tables elements) =>
        if isArray then some ((), replaceNode key (.tables (elements ++ [draft.entries])) entries) else none
      | some _ => none
    (descend false put path .explicit draft.root).map (·.2)

/-- Begins a table. A table that longer headers implied is taken out and filled further. -/
def beginTable (root : Entries) (parts : List String) : Option Draft := do
  let (path, key) ← splitLast parts
  let take (_ : TableKind) (entries : Entries) : Option (Entries × Entries) :=
    match entries.lookup key with
    | none => some ([], entries)
    | some (.table .implied inner) => some (inner, entries.filter (·.1 ≠ key))
    | some _ => none
  let (inner, root) ← descend false take path .explicit root
  some ⟨root, some (parts, false), inner⟩

/-- Begins the next table of a list of tables. -/
def beginArrayTable (root : Entries) (parts : List String) : Option Draft := do
  let (path, key) ← splitLast parts
  let look (_ : TableKind) (entries : Entries) : Option (Unit × Entries) :=
    match entries.lookup key with
    | none => some ((), entries ++ [(key, .tables [])])
    | some (.tables _) => some ((), entries)
    | some _ => none
  let (_, root) ← descend false look path .explicit root
  some ⟨root, some (parts, true), []⟩

/-- Takes a statement in. -/
def Draft.step (draft : Draft) : Statement → Option Draft
  | .pair parts v => do
    let (path, key) ← splitLast parts
    let entries ← addPair draft.entries path key v
    some { draft with entries := entries }
  | .header parts => do
    let root ← draft.finish
    beginTable root parts
  | .arrayHeader parts => do
    let root ← draft.finish
    beginArrayTable root parts

/-- The table that statements build. -/
def build? (statements : List Statement) : Option Table := do
  let draft ← statements.foldlM Draft.step ⟨[], none, []⟩
  let root ← draft.finish
  some (entriesToTable root)

/-- The table of a document; nothing when its text is not valid. -/
def parse? (text : String) : Option Table := do
  let chars :=
    match text.toList with
    | '\ufeff' :: cs => cs
    | cs => cs
  let statements ← statements? (chars.length + 1) chars
  build? statements

end Recast.Toml
