import Recast.Script.Token
import Recast.Text.Blank

/-!
# Lexemes

`lexemes` cuts any text into nonempty pieces that are the text again when put together (`chars_lexemes`).
A piece that misses its closing mark carries a fault. A slash that begins no comment is punctuation, so
regular expressions are not recognized.
-/

namespace Recast.Script

/-- What a piece misses. -/
inductive LexicalFault where
  | unclosedComment
  | unclosedString
  | unclosedTemplate
deriving DecidableEq, Repr, Inhabited

namespace LexicalFault

def code : LexicalFault → Nat
  | unclosedComment => 1010
  | unclosedString => 1002
  | unclosedTemplate => 1160

def message : LexicalFault → String
  | unclosedComment => "'*/' expected."
  | unclosedString => "Unterminated string literal."
  | unclosedTemplate => "Unterminated template literal."

end LexicalFault

/-- A piece of a text. -/
structure Lexeme where
  kind : TokenKind
  chars : List Char
  fault : Option LexicalFault := none
deriving DecidableEq, Repr, Inhabited

/-- A scan: what it took, what is left, and whether it met its closing mark. -/
structure Scan where
  taken : List Char
  rest : List Char
  closed : Bool
deriving DecidableEq, Repr, Inhabited

/-- The scan with more taken in front. -/
def Scan.push (scan : Scan) (front : List Char) : Scan :=
  { scan with taken := front ++ scan.taken }

/-- Scans to the end of a block comment, from behind its opening mark. -/
def scanComment : List Char → Scan
  | [] => ⟨[], [], false⟩
  | '*' :: '/' :: cs => ⟨['*', '/'], cs, true⟩
  | c :: cs => (scanComment cs).push [c]

/-- Scans a string from behind its opening quote. It ends at the quote, and is broken off before the end of
the line; a backslash takes the next character with it. -/
def scanString (quote : Char) : List Char → Scan
  | [] => ⟨[], [], false⟩
  | '\n' :: cs => ⟨[], '\n' :: cs, false⟩
  | ['\\'] => ⟨['\\'], [], false⟩
  | '\\' :: c :: cs => (scanString quote cs).push ['\\', c]
  | c :: cs => if c = quote then ⟨[c], cs, true⟩ else (scanString quote cs).push [c]

/-- Scans a template from behind its opening mark, with the number of open braces of a substitution. It ends
at a backtick outside substitutions. -/
def scanTemplate : Nat → List Char → Scan
  | _, [] => ⟨[], [], false⟩
  | _, ['\\'] => ⟨['\\'], [], false⟩
  | depth, '\\' :: c :: cs => (scanTemplate depth cs).push ['\\', c]
  | 0, '$' :: '\x7b' :: cs => (scanTemplate 1 cs).push ['$', '\x7b']
  | 0, c :: cs => if c = '\x60' then ⟨[c], cs, true⟩ else (scanTemplate 0 cs).push [c]
  | depth + 1, c :: cs =>
    if c = '\x7b' then (scanTemplate (depth + 2) cs).push [c]
    else if c = '\x7d' then (scanTemplate depth cs).push [c]
    else (scanTemplate (depth + 1) cs).push [c]

/-- A lexeme of characters that pass a test, and what is left. -/
def runOf (kind : TokenKind) (test : Char → Bool) (cs : List Char) : Lexeme × List Char :=
  (⟨kind, cs.takeWhile test, none⟩, cs.dropWhile test)

/-- A lexeme of an opening mark and a scan behind it, and what is left. -/
def scanned (kind : TokenKind) (opening : List Char) (fault : LexicalFault) (scan : Scan) :
    Lexeme × List Char :=
  (⟨kind, opening ++ scan.taken, if scan.closed then none else some fault⟩, scan.rest)

/-- The first lexeme of a nonempty text, and what is left. -/
def nextLexeme (c : Char) (cs : List Char) : Lexeme × List Char :=
  if Text.isBlank c then runOf .whitespace Text.isBlank (c :: cs)
  else if c = '/' ∧ cs.head? = some '/' then runOf .comment (· ≠ '\n') (c :: cs)
  else if c = '/' ∧ cs.head? = some '*' then
    scanned .comment [c, '*'] .unclosedComment (scanComment cs.tail)
  else if startsName c then
    (⟨.identifier, c :: cs.takeWhile continuesName, none⟩, cs.dropWhile continuesName)
  else if c.isDigit then
    (⟨.number, c :: cs.takeWhile continuesNumber, none⟩, cs.dropWhile continuesNumber)
  else if c = '"' ∨ c = '\'' then scanned .string [c] .unclosedString (scanString c cs)
  else if c = '\x60' then scanned .template [c] .unclosedTemplate (scanTemplate 0 cs)
  else (⟨.punctuation, [c], none⟩, cs)

theorem scanComment_taken_rest (cs : List Char) : (scanComment cs).taken ++ (scanComment cs).rest = cs := by
  fun_induction scanComment cs <;> simp_all [Scan.push]

theorem scanString_taken_rest (quote : Char) (cs : List Char) :
    (scanString quote cs).taken ++ (scanString quote cs).rest = cs := by
  fun_induction scanString quote cs <;> simp_all [Scan.push]

theorem scanTemplate_taken_rest (depth : Nat) (cs : List Char) :
    (scanTemplate depth cs).taken ++ (scanTemplate depth cs).rest = cs := by
  fun_induction scanTemplate depth cs <;> simp_all [Scan.push]

/-- Nothing is lost between the first lexeme and the rest. -/
theorem nextLexeme_chars_append (c : Char) (cs : List Char) :
    (nextLexeme c cs).1.chars ++ (nextLexeme c cs).2 = c :: cs := by
  unfold nextLexeme runOf scanned
  split
  · simp
  · split
    · simp
    · split
      · next comment =>
        obtain ⟨_, star⟩ := comment
        cases cs with
        | nil => simp at star
        | cons d ds =>
          simp only [List.head?_cons, Option.some.injEq] at star
          simp [star, scanComment_taken_rest]
      · repeat' split
        all_goals simp [scanString_taken_rest, scanTemplate_taken_rest]

/-- The first lexeme takes something. -/
theorem nextLexeme_chars_ne_nil (c : Char) (cs : List Char) : (nextLexeme c cs).1.chars ≠ [] := by
  unfold nextLexeme runOf scanned
  split
  · next blank => simp [blank]
  · split
    · next comment => simp [comment.1]
    · repeat' split
      all_goals simp

theorem length_nextLexeme_rest (c : Char) (cs : List Char) : (nextLexeme c cs).2.length < cs.length + 1 := by
  have whole := congrArg List.length (nextLexeme_chars_append c cs)
  have some := List.length_pos_iff.mpr (nextLexeme_chars_ne_nil c cs)
  simp only [List.length_append, List.length_cons] at whole
  omega

/-- The lexemes of a text. -/
def lexemes : List Char → List Lexeme
  | [] => []
  | c :: cs => (nextLexeme c cs).1 :: lexemes (nextLexeme c cs).2
termination_by cs => cs.length
decreasing_by exact length_nextLexeme_rest c cs

/-- The lexemes make up the text. -/
theorem chars_lexemes (cs : List Char) : (lexemes cs).flatMap (·.chars) = cs := by
  fun_induction lexemes cs with
  | case1 => rfl
  | case2 c cs ih => simp [ih, nextLexeme_chars_append]

end Recast.Script
