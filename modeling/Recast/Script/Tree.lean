import Recast.Diagnostic
import Recast.Script.Bracket
import Recast.Script.Lexeme

/-!
# Syntax trees

A tree is the flat list of the tokens of a script. A tree that was not touched prints as the text it was
parsed from (`print_parse`), and tokens that stem from the text know where they stood.
-/

namespace Recast.Script

/-- A parsed script. -/
structure Tree where
  file : Path
  tokens : List Token
  /-- The byte offsets at which the lines of the text began. -/
  lineStarts : List Nat
  faults : List Diagnostic
deriving Repr, Inhabited

/-- The tokens of lexemes of which the first one begins at an offset. -/
def tokensFrom : Nat → List Lexeme → List Token
  | _, [] => []
  | offset, lexeme :: rest =>
    ⟨lexeme.kind, String.ofList lexeme.chars, some offset⟩ :: tokensFrom (offset + Text.byteLength lexeme.chars) rest

/-- The faults of lexemes, each with the offset at which its lexeme begins. -/
def lexicalFaults : Nat → List Lexeme → List (Nat × LexicalFault)
  | _, [] => []
  | offset, lexeme :: rest =>
    let later := lexicalFaults (offset + Text.byteLength lexeme.chars) rest
    match lexeme.fault with
    | some fault => (offset, fault) :: later
    | none => later

/-- The offsets behind the line breaks. -/
def startsBehindBreaks : Nat → List Char → List Nat
  | _, [] => []
  | offset, c :: cs =>
    let later := startsBehindBreaks (offset + c.utf8Size) cs
    if c = '\n' then (offset + c.utf8Size) :: later else later

namespace Tree

/-- An error at an offset of the text. -/
def errorAt (file : Path) (text : List Char) (offset code : Nat) (message : String) : Diagnostic :=
  (((Diagnostic.error message).withCode code).withFile file).withPosition (Position.ofOffset? text offset)

/-- Parses a script. Pieces without an end come first among the faults, then brackets. -/
def parse (file : Path) (text : String) : Tree :=
  let chars := text.toList
  let pieces := lexemes chars
  let tokens := tokensFrom 0 pieces
  { file := file
    tokens := tokens
    lineStarts := 0 :: startsBehindBreaks 0 chars
    faults :=
      (lexicalFaults 0 pieces).map (fun (offset, fault) => errorAt file chars offset fault.code fault.message) ++
        (bracketFaults (Text.byteLength chars) [] tokens).map
          (fun (offset, fault) => errorAt file chars offset fault.code fault.message) }

/-- The text that the tokens make up. -/
def print (tree : Tree) : String :=
  String.ofList (printChars tree.tokens)

/-- The tree with other tokens. -/
def withTokens (tree : Tree) (tokens : List Token) : Tree :=
  { tree with tokens := tokens }

/-- The indices of the tokens that mean something. -/
def significantIndices (tree : Tree) : List Nat :=
  (tree.tokens.zipIdx.filter fun (t, _) => !t.isTrivia).map (·.2)

/-- The tree with every identifier of one name renamed. -/
def rename (tree : Tree) (name newName : String) : Tree :=
  tree.withTokens (tree.tokens.map fun t => if t.isIdentifier name then { t with text := newName } else t)

/-- How many identifiers have the name. -/
def countIdentifiers (tree : Tree) (name : String) : Nat :=
  tree.tokens.countP fun t => t.isIdentifier name

/-- The tree with the identifiers renamed that a table lists. -/
def renameAll (tree : Tree) (newName? : String → Option String) : Tree :=
  tree.withTokens (tree.tokens.map fun t =>
    if t.kind = .identifier then { t with text := (newName? t.text).getD t.text } else t)

/-- The tree with a comment line in front. -/
def prependComment (tree : Tree) (comment : String) : Tree :=
  tree.withTokens (.made .comment ("// " ++ comment) :: .made .whitespace "\n" :: tree.tokens)

/-- The line and the column of an offset of the text, both counted from zero; columns count bytes. -/
def location (tree : Tree) (offset : Nat) : Nat × Nat :=
  let before := tree.lineStarts.filter (· ≤ offset)
  (before.length - 1, offset - before.getLastD 0)

theorem printChars_tokensFrom (offset : Nat) (pieces : List Lexeme) :
    printChars (tokensFrom offset pieces) = pieces.flatMap (·.chars) := by
  induction pieces generalizing offset with
  | nil => rfl
  | cons lexeme rest ih => simpa [tokensFrom, printChars] using ih _

/-- An untouched tree prints its text. -/
theorem print_parse (file : Path) (text : String) : (parse file text).print = text := by
  simp [print, parse, printChars_tokensFrom, chars_lexemes]

end Tree

end Recast.Script
