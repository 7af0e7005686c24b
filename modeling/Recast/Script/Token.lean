import Recast.Text.Letter

/-!
# Tokens

A token is a kind and a text. Tokens cut from a text know the byte offset at which they began; others were
made later.
-/

namespace Recast.Script

/-- The kinds of tokens. -/
inductive TokenKind where
  | identifier
  | number
  | string
  | template
  | punctuation
  | whitespace
  | comment
deriving DecidableEq, Repr, Inhabited

/-- Kinds without meaning for the script. -/
def TokenKind.isTrivia : TokenKind → Bool
  | whitespace => true
  | comment => true
  | _ => false

/-- A piece of a script. -/
structure Token where
  kind : TokenKind
  text : String
  offset : Option Nat
deriving DecidableEq, Repr, Inhabited

namespace Token

/-- A token that no text held. -/
def made (kind : TokenKind) (text : String) : Token :=
  ⟨kind, text, none⟩

def isTrivia (t : Token) : Bool :=
  t.kind.isTrivia

/-- An identifier with that name. -/
def isIdentifier (t : Token) (name : String) : Bool :=
  t.kind == .identifier && t.text == name

/-- A punctuation token with that text. -/
def isPunct (t : Token) (text : String) : Bool :=
  t.kind == .punctuation && t.text == text

/-- Whitespace that holds a line break. -/
def breaksLine (t : Token) : Bool :=
  t.kind == .whitespace && t.text.toList.contains '\n'

end Token

/-- The tokens that mean something. -/
def significant (tokens : List Token) : List Token :=
  tokens.filter fun t => !t.isTrivia

/-- The texts of the tokens, one behind the other. -/
def printChars (tokens : List Token) : List Char :=
  tokens.flatMap fun t => t.text.toList

/-- A character that begins an identifier. -/
def startsName (c : Char) : Bool :=
  Text.isLetter c || c == '_' || c == '$'

/-- A character inside an identifier. -/
def continuesName (c : Char) : Bool :=
  Text.isLetterOrNumber c || c == '_' || c == '$'

/-- A character inside a number. -/
def continuesNumber (c : Char) : Bool :=
  c.isAlphanum || c == '.' || c == '_'

end Recast.Script
