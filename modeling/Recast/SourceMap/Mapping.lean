import Recast.Json
import Recast.Path.Normal
import Recast.Script.Tree
import Recast.SourceMap.Vlq
import Recast.Text.Pieces

/-!
# Source maps

A printed tree has one segment for each line on which a token begins that stems from the text: the column at
which the first such token is printed, in UTF-16 units, and where it stood. Segments are written as
differences to the one before.
-/

namespace Recast.SourceMap

open Recast.Script

/-- Where the first mapped token of a printed line stands there, and where it stood in the text. -/
structure Segment where
  column : Nat
  sourceLine : Nat
  sourceColumn : Nat
deriving DecidableEq, Repr, Inhabited

/-- The number of UTF-16 units of a character. -/
def units16 (c : Char) : Nat :=
  if c.toNat < 0x10000 then 1 else 2

/-- The line that is being printed: how many units it has so far, and its segment. -/
structure Line where
  column : Nat
  segment : Option Segment
deriving DecidableEq, Repr, Inhabited

/-- A line without text. -/
def Line.fresh : Line := ⟨0, none⟩

/-- Prints characters behind a line: the lines that they end, and the line that they begin or go on with. -/
def Line.printChars (line : Line) : List Char → List Line × Line
  | [] => ([], line)
  | c :: cs =>
    if c = '\n' then
      let (ended, last) := Line.fresh.printChars cs
      (line :: ended, last)
    else { line with column := line.column + units16 c }.printChars cs

/-- The line with the segment of a token that is printed at its end, unless it has one. -/
def Line.mark (tree : Tree) (line : Line) (t : Token) : Line :=
  match line.segment, t.kind, t.offset with
  | some _, _, _ => line
  | none, .whitespace, _ => line
  | none, _, none => line
  | none, _, some offset =>
    let (sourceLine, sourceColumn) := tree.location offset
    { line with segment := some ⟨line.column, sourceLine, sourceColumn⟩ }

/-- A tree that is being printed: the text so far, the lines that have ended, and the last one. -/
structure Printing where
  text : String := ""
  ended : List Line := []
  last : Line := .fresh
deriving Repr, Inhabited

namespace Printing

/-- Prints a token. -/
def add (tree : Tree) (printing : Printing) (t : Token) : Printing :=
  let (ended, last) := (printing.last.mark tree t).printChars t.text.toList
  ⟨printing.text ++ t.text, printing.ended ++ ended, last⟩

/-- The segments of the printed lines. -/
def segments (printing : Printing) : List (Option Segment) :=
  (printing.ended ++ [printing.last]).map (·.segment)

end Printing

/-- The printing of some tokens of a tree. -/
def printTokens (tree : Tree) (tokens : List Token) : Printing :=
  tokens.foldl (Printing.add tree) {}

/-- The text of the segments, each written against the last source line and column before it. -/
def encodeSegments : Int → Int → List (Option Segment) → List (List Char)
  | _, _, [] => []
  | line, column, none :: rest => [] :: encodeSegments line column rest
  | line, column, some segment :: rest =>
    (encode (Int64.ofNat segment.column) ++ encode 0 ++ encode (Int64.ofInt (segment.sourceLine - line)) ++
      encode (Int64.ofInt (segment.sourceColumn - column))) ::
      encodeSegments segment.sourceLine segment.sourceColumn rest

/-- The mappings of printed lines: their segments with a semicolon between. -/
def mappings (segments : List (Option Segment)) : String :=
  String.ofList (List.intercalate [';'] (encodeSegments 0 0 segments))

/-- The text of a tree, and the mappings beside it. -/
def printWithMappings (tree : Tree) : String × String :=
  let printing := printTokens tree tree.tokens
  (printing.text, mappings printing.segments)

/-- The source map of an output file. The source is given relative to the directory of the output. -/
def document (output source : Path) (mappings : String) : Json :=
  let reference :=
    match output.parent? with
    | some directory => source.relativeTo directory
    | none => source
  .obj [
    ("file", .str (output.fileName?.getD "")),
    ("mappings", .str mappings),
    ("names", .arr []),
    ("sourceRoot", .str ""),
    ("sources", .strs [Text.replace "\\" "/" reference.toString]),
    ("version", .num 3)]

end Recast.SourceMap
