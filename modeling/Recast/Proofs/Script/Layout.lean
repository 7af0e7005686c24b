import Mathlib.Data.List.Basic
import Recast.Script.Bracket
import Recast.Script.Tree

/-! # Layouts of a script

A script is laid out when words stand in it with gaps between them: blanks, line breaks and
comments. The lexer gives back the words, and in front of each of them tokens without meaning, one
of which breaks the line exactly when the gap does (`exists_laid`). So whatever is said of the words
of a script holds of all its layouts.
-/

namespace Recast.Script

open Recast.Text

/-! ## Words -/

/-- A name. -/
structure Identifier where
  first : Char
  rest : List Char
  starts : startsName first = true := by decide
  continues : rest.all continuesName = true := by decide

/-- A number. -/
structure Numeral where
  first : Char
  rest : List Char
  starts : first.isDigit = true := by decide
  continues : rest.all continuesNumber = true := by decide

/-- Whether a text between quotes holds neither the quote nor a line break, unless a backslash is in
front of it. -/
def staysQuoted (quote : Char) : List Char → Bool
  | [] => true
  | '\\' :: _ :: cs => staysQuoted quote cs
  | c :: cs => c != quote && c != '\n' && c != '\\' && staysQuoted quote cs

/-- A string. -/
structure Quoted where
  quote : Char
  body : List Char
  isQuote : quote = '"' ∨ quote = '\''
  closes : staysQuoted quote body = true

/-- The marks that stand in declarations. An arrow is two of them. -/
inductive Mark where
  | less
  | greater
  | comma
  | bar
  | ampersand
  | openSquare
  | closeSquare
  | openRound
  | closeRound
  | openCurly
  | closeCurly
  | colon
  | semicolon
  | equals
  | star
deriving DecidableEq

namespace Mark

def char : Mark → Char
  | less => '<'
  | greater => '>'
  | comma => ','
  | bar => '|'
  | ampersand => '&'
  | openSquare => '['
  | closeSquare => ']'
  | openRound => '('
  | closeRound => ')'
  | openCurly => '\x7b'
  | closeCurly => '\x7d'
  | colon => ':'
  | semicolon => ';'
  | equals => '='
  | star => '*'

/-- What the mark does to the brackets that are open. -/
def role : Mark → BracketRole
  | openRound => .opens .round
  | openSquare => .opens .square
  | openCurly => .opens .curly
  | closeRound => .closes .round
  | closeSquare => .closes .square
  | closeCurly => .closes .curly
  | _ => .none

end Mark

/-- What stands between gaps. -/
inductive Word where
  | name (identifier : Identifier)
  | numeral (digits : Numeral)
  | quoted (string : Quoted)
  | mark (sign : Mark)

namespace Word

def kind : Word → TokenKind
  | name _ => .identifier
  | numeral _ => .number
  | quoted _ => .string
  | mark _ => .punctuation

def chars : Word → List Char
  | name identifier => identifier.first :: identifier.rest
  | numeral digits => digits.first :: digits.rest
  | quoted string => string.quote :: (string.body ++ [string.quote])
  | mark sign => [sign.char]

/-- The token of the word, where it stands in a text. -/
def token (word : Word) (offset : Option Nat) : Token :=
  ⟨word.kind, String.ofList word.chars, offset⟩

/-- Whether a name or a number directly behind the word would become a part of it. -/
def runsOn : Word → Bool
  | name _ | numeral _ => true
  | quoted _ | mark _ => false

/-- A character that ends the word. -/
def EndsBefore : Word → Char → Prop
  | name _, c => continuesName c = false
  | numeral _, c => continuesNumber c = false
  | quoted _, _ | mark _, _ => True

end Word

/-! ## Gaps -/

/-- What stands between words. A comment to the end of the line has its line break. -/
inductive Filler where
  | blank (c : Char) (isBlank : isBlank c = true := by decide)
  | line (text : List Char) (unbroken : '\n' ∉ text := by decide)
  | block (text : List Char) (unclosed : ¬ ['*', '/'] <:+: text := by decide)

namespace Filler

def chars : Filler → List Char
  | blank c _ => [c]
  | line text _ => '/' :: '/' :: (text ++ ['\n'])
  | block text _ => '/' :: '*' :: (text ++ ['*', '/'])

/-- Whether the line ends there. A line break inside a comment does not count. -/
def breaks : Filler → Bool
  | blank c _ => c == '\n'
  | line _ _ => true
  | block _ _ => false

end Filler

abbrev Gap := List Filler

namespace Gap

def chars (gap : Gap) : List Char :=
  gap.flatMap Filler.chars

def breaks (gap : Gap) : Bool :=
  gap.any Filler.breaks

end Gap

/-! ## Characters -/

/-- The code points of blanks. -/
private def blankCodes : List Nat :=
  [9, 10, 11, 12, 13, 0x20, 0x85, 0xA0, 0x1680, 0x2000, 0x2001, 0x2002, 0x2003, 0x2004, 0x2005,
    0x2006, 0x2007, 0x2008, 0x2009, 0x200A, 0x2028, 0x2029, 0x202F, 0x205F, 0x3000]

/-- A blank is no part of a word. -/
theorem ends_of_isBlank {c : Char} (blank : isBlank c = true) :
    startsName c = false ∧ continuesName c = false ∧ continuesNumber c = false ∧ c.isDigit = false ∧
      c ≠ '/' ∧ c ≠ '"' ∧ c ≠ '\'' := by
  have code : c.toNat ∈ blankCodes := by
    simp only [isBlank, Bool.or_eq_true, Bool.and_eq_true, decide_eq_true_eq, beq_iff_eq] at blank
    simp only [blankCodes, List.mem_cons, List.not_mem_nil, or_false]
    omega
  have each : ∀ n ∈ blankCodes, startsName (Char.ofNat n) = false ∧
      continuesName (Char.ofNat n) = false ∧ continuesNumber (Char.ofNat n) = false ∧
      (Char.ofNat n).isDigit = false ∧
        Char.ofNat n ≠ '/' ∧ Char.ofNat n ≠ '"' ∧ Char.ofNat n ≠ '\'' := by
    decide +kernel
  have here := each c.toNat code
  rwa [Char.ofNat_toNat] at here

private theorem startsName_of_isDigit {c : Char} (digit : c.isDigit = true) :
    startsName c = false := by
  have code : c.toNat - 48 < 10 ∧ c.toNat = 48 + (c.toNat - 48) := by
    simp only [Char.isDigit, Bool.and_eq_true, decide_eq_true_eq] at digit
    have low : 48 ≤ c.toNat := digit.1
    have high : c.toNat ≤ 57 := digit.2
    omega
  have each : ∀ n < 10, startsName (Char.ofNat (48 + n)) = false := by decide +kernel
  have here := each _ code.1
  rwa [← code.2, Char.ofNat_toNat] at here

private theorem mark_spec (sign : Mark) :
    isBlank sign.char = false ∧ startsName sign.char = false ∧ continuesName sign.char = false ∧
      continuesNumber sign.char = false ∧ sign.char.isDigit = false ∧ sign.char ≠ '/' ∧
        sign.char ≠ '"' ∧
      sign.char ≠ '\'' ∧ sign.char ≠ '\x60' := by
  cases sign <;> decide +kernel

/-! ## Lexing -/

theorem lexemes_cons (c : Char) (cs : List Char) :
    lexemes (c :: cs) = (nextLexeme c cs).1 :: lexemes (nextLexeme c cs).2 := by
  rw [lexemes]

/-- A run of characters that pass a test ends before the first one that does not. -/
theorem span_append {p : Char → Bool} {cs : List Char} (after : List Char)
    (all : cs.all p = true) (ends : ∀ c, after.head? = some c → p c = false) :
    (cs ++ after).takeWhile p = cs ∧ (cs ++ after).dropWhile p = after := by
  rw [List.all_eq_true] at all
  rw [List.takeWhile_append_of_pos all, List.dropWhile_append_of_pos all]
  cases after with
  | nil => simp
  | cons c after => simp [ends c rfl]

/-- A string ends at its quote. -/
theorem scanString_of_staysQuoted {quote : Char} (isQuote : quote = '"' ∨ quote = '\'')
    {body : List Char} (closes : staysQuoted quote body = true) (after : List Char) :
    scanString quote (body ++ quote :: after) = ⟨body ++ [quote], after, true⟩ := by
  have plain : quote ≠ '\n' ∧ quote ≠ '\\' := by rcases isQuote with rfl | rfl <;> decide
  fun_induction staysQuoted quote body with
  | case1 =>
    rw [List.nil_append, scanString.eq_5]
    · simp
    · exact plain.1
    · exact fun same _ => absurd same plain.2
    · exact fun _ _ same => absurd same plain.2
  | case2 c cs ih => simp [scanString, ih closes, Scan.push]
  | case3 c cs apart ih =>
    simp only [Bool.and_eq_true, bne_iff_ne, ne_eq] at closes
    obtain ⟨⟨⟨other, unbroken⟩, unescaped⟩, closes⟩ := closes
    rw [List.cons_append, scanString.eq_5]
    · simp [other, ih closes, Scan.push]
    · exact unbroken
    · exact fun same _ => absurd same unescaped
    · exact fun _ _ same => absurd same unescaped

/-- A comment ends at its closing mark. -/
theorem scanComment_append {text : List Char} (unclosed : ¬ ['*', '/'] <:+: text)
    (after : List Char) :
    scanComment (text ++ '*' :: '/' :: after) = ⟨text ++ ['*', '/'], after, true⟩ := by
  induction text with
  | nil => rfl
  | cons c text ih =>
    have inner : ¬ ['*', '/'] <:+: text :=
      fun inside => unclosed (inside.trans (List.suffix_cons c text).isInfix)
    have opens : ∀ cs, c = '*' → text ++ '*' :: '/' :: after = '/' :: cs → False := by
      rintro cs rfl front
      cases text with
      | nil => simp at front
      | cons d text =>
        rw [List.cons_append, List.cons.injEq] at front
        exact unclosed ⟨[], text, by rw [front.1]; rfl⟩
    rw [List.cons_append, scanComment.eq_3 _ _ opens, ih inner]
    rfl

/-- A word is a lexeme, if what stands behind it does not go on with it. -/
theorem Word.lexemes_append (word : Word) {after : List Char}
    (ends : ∀ c, after.head? = some c → word.EndsBefore c) :
    lexemes (word.chars ++ after) = ⟨word.kind, word.chars, none⟩ :: lexemes after := by
  cases word with
  | name identifier =>
    obtain ⟨first, rest, starts, continues⟩ := identifier
    have unblank : isBlank first = false := by
      rw [Bool.eq_false_iff]
      intro blank
      rw [(ends_of_isBlank blank).1] at starts
      contradiction
    have noSlash : first ≠ '/' := by
      rintro rfl
      exact absurd starts (by decide +kernel)
    obtain ⟨taken, left⟩ := span_append after continues ends
    change lexemes (first :: (rest ++ after)) = _
    rw [lexemes_cons]
    simp [nextLexeme, unblank, noSlash, starts, taken, left, Word.kind, Word.chars]
  | numeral digits =>
    obtain ⟨first, rest, starts, continues⟩ := digits
    have unblank : isBlank first = false := by
      rw [Bool.eq_false_iff]
      intro blank
      rw [(ends_of_isBlank blank).2.2.2.1] at starts
      contradiction
    have noSlash : first ≠ '/' := by
      rintro rfl
      exact absurd starts (by decide)
    obtain ⟨taken, left⟩ := span_append after continues ends
    change lexemes (first :: (rest ++ after)) = _
    rw [lexemes_cons]
    simp [nextLexeme, unblank, noSlash, startsName_of_isDigit starts, starts, taken, left,
      Word.kind, Word.chars]
  | quoted string =>
    obtain ⟨quote, body, isQuote, closes⟩ := string
    have scan := scanString_of_staysQuoted isQuote closes after
    have plain : isBlank quote = false ∧ quote ≠ '/' ∧ startsName quote = false ∧
        quote.isDigit = false := by
      rcases isQuote with rfl | rfl <;> decide +kernel
    change lexemes (quote :: (body ++ [quote] ++ after)) = _
    rw [lexemes_cons, List.append_assoc]
    simp [nextLexeme, plain, isQuote, scanned, scan, Word.kind, Word.chars]
  | mark sign =>
    obtain ⟨unblank, noName, _, _, noDigit, noSlash, noQuote, noQuote', noTick⟩ := mark_spec sign
    change lexemes (sign.char :: after) = _
    rw [lexemes_cons]
    simp [nextLexeme, unblank, noSlash, noName, noDigit, noQuote, noQuote', noTick, Word.kind,
      Word.chars]

private theorem Word.exists_head (word : Word) (more : List Char) :
    ∃ c, (word.chars ++ more).head? = some c ∧ isBlank c = false := by
  cases word with
  | name identifier =>
    refine ⟨identifier.first, rfl, Bool.eq_false_iff.mpr fun blank => ?_⟩
    exact absurd ((ends_of_isBlank blank).1.symm.trans identifier.starts) (by decide)
  | numeral digits =>
    refine ⟨digits.first, rfl, Bool.eq_false_iff.mpr fun blank => ?_⟩
    exact absurd ((ends_of_isBlank blank).2.2.2.1.symm.trans digits.starts) (by decide)
  | quoted string =>
    refine ⟨string.quote, rfl, ?_⟩
    rcases string.isQuote with same | same <;> rw [same] <;> decide
  | mark sign => exact ⟨sign.char, rfl, (mark_spec sign).1⟩

/-- Pieces without meaning, one of which breaks the line or none does. -/
private structure Spaces (pieces : List Lexeme) (breaks : Bool) : Prop where
  trivial : ∀ piece ∈ pieces, piece.kind.isTrivia = true
  breaks : (pieces.any fun piece => piece.kind == .whitespace && piece.chars.contains '\n') = breaks

private theorem Spaces.append {pieces more : List Lexeme} {breaks later : Bool}
    (front : Spaces pieces breaks) (back : Spaces more later) :
    Spaces (pieces ++ more) (breaks || later) where
  trivial piece member := (List.mem_append.mp member).elim (front.trivial piece)
    (back.trivial piece)
  breaks := by rw [List.any_append, front.breaks, back.breaks]

/-- Blanks are one piece, unless there are none. -/
private theorem exists_spaces_blank {blanks : List Char} (after : List Char)
    (blank : blanks.all isBlank = true) (starts : ∀ c, after.head? = some c → isBlank c = false) :
    ∃ pieces, lexemes (blanks ++ after) = pieces ++ lexemes after ∧
      Spaces pieces (blanks.contains '\n') := by
  cases blanks with
  | nil => exact ⟨[], rfl, ⟨by simp, rfl⟩⟩
  | cons c blanks =>
    obtain ⟨taken, left⟩ := span_append after blank starts
    refine ⟨[⟨.whitespace, c :: blanks, none⟩], ?_, ⟨by simp [TokenKind.isTrivia], by simp⟩⟩
    have first : isBlank c = true := List.all_eq_true.mp blank c List.mem_cons_self
    rw [List.cons_append] at taken left ⊢
    rw [lexemes_cons]
    simp [nextLexeme, first, runOf, taken, left]

theorem lexemes_line {text : List Char} (unbroken : '\n' ∉ text) (after : List Char) :
    lexemes ('/' :: '/' :: (text ++ '\n' :: after)) =
      ⟨.comment, '/' :: '/' :: text, none⟩ :: lexemes ('\n' :: after) := by
  have inside : ('/' :: '/' :: text).all (fun c => decide (c ≠ '\n')) = true := by
    rw [List.all_eq_true]
    intro c member
    simp only [List.mem_cons] at member
    rcases member with rfl | rfl | member
    · decide
    · decide
    · exact decide_eq_true fun same => unbroken (same ▸ member)
  obtain ⟨taken, left⟩ := span_append ('\n' :: after) inside (by simp)
  have slash : isBlank '/' = false := by decide
  rw [List.cons_append, List.cons_append] at taken left
  rw [lexemes_cons]
  simp only [nextLexeme, slash, runOf, taken, left, List.head?_cons, and_self, if_true,
    Bool.false_eq_true, if_false]

private theorem lexemes_block {text : List Char} (unclosed : ¬ ['*', '/'] <:+: text)
    (after : List Char) :
    lexemes ('/' :: '*' :: (text ++ '*' :: '/' :: after)) =
      ⟨.comment, '/' :: '*' :: (text ++ ['*', '/']), none⟩ :: lexemes after := by
  have slash : isBlank '/' = false := by decide
  rw [lexemes_cons]
  simp [nextLexeme, slash, scanned, scanComment_append unclosed]

/-- The pieces of a gap. Blanks in front belong to the gap, for a comment may leave a line break
behind. -/
private theorem exists_spaces (gap : Gap) (blanks after : List Char)
    (blank : blanks.all isBlank = true) (starts : ∀ c, after.head? = some c → isBlank c = false) :
    ∃ pieces, lexemes (blanks ++ (gap.chars ++ after)) = pieces ++ lexemes after ∧
      Spaces pieces (blanks.contains '\n' || gap.breaks) := by
  induction gap generalizing blanks with
  | nil =>
    obtain ⟨pieces, cut, spaces⟩ := exists_spaces_blank after blank starts
    exact ⟨pieces, cut, by simpa [Gap.breaks] using spaces⟩
  | cons filler gap ih =>
    cases filler with
    | blank c isBlank =>
      have longer : (blanks ++ [c]).all Text.isBlank = true := by
        rw [List.all_append, blank, List.all_cons, isBlank]
        rfl
      obtain ⟨pieces, cut, spaces⟩ := ih _ longer
      refine ⟨pieces, by simpa [Gap.chars, Filler.chars] using cut, ?_⟩
      have same : (blanks.contains '\n' || Gap.breaks (.blank c isBlank :: gap)) =
          ((blanks ++ [c]).contains '\n' || Gap.breaks gap) := by
        simp [Gap.breaks, Filler.breaks, Bool.or_assoc, Bool.beq_eq_decide_eq, eq_comm]
      exact same ▸ spaces
    | line text unbroken =>
      obtain ⟨front, frontCut, frontSpaces⟩ :=
        exists_spaces_blank ('/' :: '/' :: (text ++ '\n' :: (Gap.chars gap ++ after))) blank
          (by rintro c ⟨⟩; decide)
      obtain ⟨back, backCut, backSpaces⟩ := ih ['\n'] (by decide)
      refine ⟨front ++ ⟨.comment, '/' :: '/' :: text, none⟩ :: back, ?_, ?_⟩
      · rw [List.append_assoc, List.cons_append, ← backCut, List.singleton_append,
          ← lexemes_line unbroken, ← frontCut]
        simp [Gap.chars, Filler.chars]
      · have comment : Spaces [⟨.comment, '/' :: '/' :: text, none⟩] false :=
          ⟨by simp [TokenKind.isTrivia], by simp⟩
        simpa [Gap.breaks, Filler.breaks] using frontSpaces.append (comment.append backSpaces)
    | block text unclosed =>
      obtain ⟨front, frontCut, frontSpaces⟩ :=
        exists_spaces_blank ('/' :: '*' :: (text ++ '*' :: '/' :: (Gap.chars gap ++ after))) blank
          (by rintro c ⟨⟩; decide)
      obtain ⟨back, backCut, backSpaces⟩ := ih [] (by simp)
      refine ⟨front ++ ⟨.comment, '/' :: '*' :: (text ++ ['*', '/']), none⟩ :: back, ?_, ?_⟩
      · rw [List.append_assoc, List.cons_append, ← backCut, List.nil_append,
          ← lexemes_block unclosed, ← frontCut]
        simp [Gap.chars, Filler.chars]
      · have comment : Spaces [⟨.comment, '/' :: '*' :: (text ++ ['*', '/']), none⟩] false :=
          ⟨by simp [TokenKind.isTrivia], by simp⟩
        simpa [Gap.breaks, Filler.breaks] using frontSpaces.append (comment.append backSpaces)

/-! ## Layouts -/

/-- Words, each with the gap in front of it. -/
abbrev Layout := List (Gap × Word)

namespace Layout

def chars (layout : Layout) : List Char :=
  layout.flatMap fun piece => piece.1.chars ++ piece.2.chars

def words (layout : Layout) : List Word :=
  layout.map Prod.snd

/-- Whether names and numbers that follow one another have a gap between them. -/
def Parted (layout : Layout) : Prop :=
  layout.IsChain fun before behind => behind.1 ≠ [] ∨ before.2.runsOn = false ∨
    behind.2.runsOn = false

end Layout

/-- The tokens of a layout. Those in front of a word mean nothing, and one of them breaks the line
exactly when the gap does. -/
inductive Laid : Layout → List Token → Prop where
  | nil : Laid [] []
  | cons {gap : Gap} {word : Word} {layout : Layout} {spaces tokens : List Token}
    {offset : Option Nat}
      (trivial : ∀ t ∈ spaces, t.isTrivia = true)
        (breaks : spaces.any Token.breaksLine = gap.breaks)
      (rest : Laid layout tokens) :
        Laid ((gap, word) :: layout) (spaces ++ word.token offset :: tokens)

private theorem Filler.head_chars (filler : Filler) (more : List Char) {c : Char}
    (head : (filler.chars ++ more).head? = some c) : isBlank c = true ∨ c = '/' := by
  cases filler with
  | blank d isBlank =>
    simp only [Filler.chars, List.singleton_append, List.head?_cons, Option.some.injEq] at head
    exact .inl (head ▸ isBlank)
  | line text unbroken =>
    simp only [Filler.chars, List.cons_append, List.head?_cons, Option.some.injEq] at head
    exact .inr head.symm
  | block text unclosed =>
    simp only [Filler.chars, List.cons_append, List.head?_cons, Option.some.injEq] at head
    exact .inr head.symm

private theorem Word.endsBefore_gap (word : Word) {gap : Gap} (some : gap ≠ []) (more : List Char)
    {c : Char} (head : (gap.chars ++ more).head? = .some c) : word.EndsBefore c := by
  obtain ⟨filler, gap, rfl⟩ := List.exists_cons_of_ne_nil some
  rw [Gap.chars, List.flatMap_cons, List.append_assoc] at head
  have first := filler.head_chars _ head
  cases word with
  | name identifier =>
    rcases first with blank | rfl
    · exact (ends_of_isBlank blank).2.1
    · exact (by decide +kernel : continuesName '/' = false)
  | numeral digits =>
    rcases first with blank | rfl
    · exact (ends_of_isBlank blank).2.2.1
    · exact (by decide : continuesNumber '/' = false)
  | quoted _ => exact trivial
  | mark _ => exact trivial

private theorem Word.endsBefore_word (word : Word) {behind : Word}
    (apart : word.runsOn = false ∨ behind.runsOn = false) (more : List Char) {c : Char}
    (head : (behind.chars ++ more).head? = some c) : word.EndsBefore c := by
  rcases apart with apart | apart
  · cases word with
    | name _ => cases apart
    | numeral _ => cases apart
    | quoted _ => exact trivial
    | mark _ => exact trivial
  · have ends : continuesName c = false ∧ continuesNumber c = false := by
      cases behind with
      | name _ => cases apart
      | numeral _ => cases apart
      | quoted string =>
        cases head
        rcases string.isQuote with same | same <;> rw [same] <;> decide +kernel
      | mark sign =>
        cases head
        exact ⟨(mark_spec sign).2.2.1, (mark_spec sign).2.2.2.1⟩
    cases word with
    | name _ => exact ends.1
    | numeral _ => exact ends.2
    | quoted _ => exact trivial
    | mark _ => exact trivial

private theorem Layout.Parted.endsBefore {gap : Gap} {word : Word} {layout : Layout}
    (parted : Layout.Parted ((gap, word) :: layout)) (final : Gap) {c : Char}
    (head : (layout.chars ++ final.chars).head? = some c) : word.EndsBefore c := by
  cases layout with
  | nil =>
    rcases final with _ | ⟨filler, final⟩
    · cases head
    · exact word.endsBefore_gap (List.cons_ne_nil filler final) [] (by rwa [List.append_nil])
  | cons piece layout =>
    obtain ⟨gap', behind⟩ := piece
    rw [Layout.chars, List.flatMap_cons, List.append_assoc, List.append_assoc] at head
    rcases gap' with _ | ⟨filler, gap'⟩
    · have apart := ((List.isChain_cons_cons.mp parted).1).resolve_left (by simp)
      exact word.endsBefore_word apart _ head
    · exact word.endsBefore_gap (List.cons_ne_nil filler gap') _ head

theorem tokensFrom_append (offset : Nat) (pieces more : List Lexeme) :
    tokensFrom offset (pieces ++ more) = tokensFrom offset pieces ++
      tokensFrom (offset + byteLength (pieces.flatMap (·.chars))) more := by
  induction pieces generalizing offset with
  | nil => rfl
  | cons piece pieces ih =>
    rw [List.cons_append, tokensFrom, ih, tokensFrom, List.flatMap_cons, byteLength_append,
      Nat.add_assoc]
    rfl

private theorem any_breaksLine_tokensFrom (offset : Nat) (pieces : List Lexeme) :
    (tokensFrom offset pieces).any Token.breaksLine =
      pieces.any fun piece => piece.kind == .whitespace && piece.chars.contains '\n' := by
  induction pieces generalizing offset with
  | nil => rfl
  | cons piece pieces ih => simp [tokensFrom, ih, Token.breaksLine]

private theorem isTrivia_tokensFrom {pieces : List Lexeme}
    (trivial : ∀ piece ∈ pieces, piece.kind.isTrivia = true) (offset : Nat) :
    ∀ t ∈ tokensFrom offset pieces, t.isTrivia = true := by
  induction pieces generalizing offset with
  | nil => simp [tokensFrom]
  | cons piece pieces ih =>
    intro t member
    rcases List.mem_cons.mp member with rfl | member
    · exact trivial piece List.mem_cons_self
    · exact ih (fun piece inside => trivial piece (List.mem_cons_of_mem _ inside)) _ t member

/-- The first word of a layout, and the pieces of the gap in front of it. -/
private theorem exists_cut {gap : Gap} {word : Word} {layout : Layout}
    (parted : Layout.Parted ((gap, word) :: layout)) (final : Gap) :
    ∃ pieces, lexemes (Layout.chars ((gap, word) :: layout) ++ final.chars) =
        pieces ++ ⟨word.kind, word.chars, none⟩ :: lexemes (layout.chars ++ final.chars) ∧
      Spaces pieces gap.breaks := by
  have starts : ∀ c, (word.chars ++ (layout.chars ++ final.chars)).head? = some c →
      isBlank c = false := by
    obtain ⟨d, head, unblank⟩ := word.exists_head (layout.chars ++ final.chars)
    intro c same
    rw [head, Option.some.injEq] at same
    exact same ▸ unblank
  obtain ⟨pieces, cut, spaces⟩ := exists_spaces gap [] _ (by simp) starts
  rw [word.lexemes_append fun c => parted.endsBefore final] at cut
  refine ⟨pieces, ?_, spaces⟩
  rw [← cut, List.nil_append, Layout.chars, List.flatMap_cons, List.append_assoc,
    List.append_assoc]
  rfl

/-- The lexer gives back what was laid out. -/
theorem exists_laid {layout : Layout} (parted : layout.Parted) (final : Gap) (offset : Nat) :
    ∃ tokens trailing, tokensFrom offset (lexemes (layout.chars ++ final.chars)) =
      tokens ++ trailing ∧ Laid layout tokens ∧ ∀ t ∈ trailing, t.isTrivia = true := by
  induction layout generalizing offset with
  | nil =>
    obtain ⟨pieces, cut, spaces⟩ := exists_spaces final [] [] (by simp) (by simp)
    refine ⟨[], tokensFrom offset pieces, ?_, .nil, isTrivia_tokensFrom spaces.trivial offset⟩
    rw [List.nil_append, List.append_nil, lexemes, List.append_nil] at cut
    rw [Layout.chars, List.flatMap_nil, List.nil_append, cut]
    rfl
  | cons piece layout ih =>
    obtain ⟨gap, word⟩ := piece
    obtain ⟨pieces, cut, spaces⟩ := exists_cut parted final
    have split := tokensFrom_append offset pieces
      (⟨word.kind, word.chars, none⟩ :: lexemes (Layout.chars layout ++ final.chars))
    generalize offset + byteLength (pieces.flatMap (·.chars)) = later at split
    obtain ⟨tokens, trailing, rest, laid, trivial⟩ :=
      ih (List.IsChain.of_cons parted) (later + byteLength word.chars)
    refine ⟨tokensFrom offset pieces ++ word.token (some later) :: tokens, trailing, ?_,
      ?_, trivial⟩
    · rw [cut, split, tokensFrom, rest, List.append_assoc]
      rfl
    · refine .cons (isTrivia_tokensFrom spaces.trivial offset) ?_ laid
      rw [any_breaksLine_tokensFrom, spaces.breaks]

/-! ## Offsets -/

/-- The tokens of the words of a layout that begins at an offset. -/
def Layout.tokensAt : Nat → Layout → List Token
  | _, [] => []
  | offset, (gap, word) :: layout =>
    word.token (some (offset + byteLength gap.chars)) ::
      tokensAt (offset + byteLength gap.chars + byteLength word.chars) layout

theorem Layout.tokensAt_append (offset : Nat) (front back : Layout) :
    Layout.tokensAt offset (front ++ back) = Layout.tokensAt offset front ++
      Layout.tokensAt (offset + byteLength front.chars) back := by
  induction front generalizing offset with
  | nil => rfl
  | cons piece front ih =>
    obtain ⟨gap, word⟩ := piece
    rw [List.cons_append, tokensAt, ih, tokensAt, Layout.chars, Layout.chars, List.flatMap_cons,
      byteLength_append, byteLength_append, ← Nat.add_assoc, ← Nat.add_assoc]
    rfl

/-- The tokens that mean something are the words, and each begins behind what stands before it. -/
theorem significant_tokensFrom {layout : Layout} (parted : layout.Parted) (final : Gap)
    (offset : Nat) :
    significant (tokensFrom offset (lexemes (layout.chars ++ final.chars))) =
      layout.tokensAt offset := by
  have dropped {pieces : List Lexeme} (trivial : ∀ piece ∈ pieces, piece.kind.isTrivia = true)
      (offset : Nat) : significant (tokensFrom offset pieces) = [] :=
    List.filter_eq_nil_iff.mpr fun t member => by
      rw [isTrivia_tokensFrom trivial offset t member]
      decide
  induction layout generalizing offset with
  | nil =>
    obtain ⟨pieces, cut, spaces⟩ := exists_spaces final [] [] (by simp) (by simp)
    rw [List.nil_append, List.append_nil, lexemes, List.append_nil] at cut
    rw [Layout.chars, List.flatMap_nil, List.nil_append, cut, dropped spaces.trivial]
    rfl
  | cons piece layout ih =>
    obtain ⟨gap, word⟩ := piece
    obtain ⟨pieces, cut, spaces⟩ := exists_cut parted final
    have taken : pieces.flatMap (·.chars) = gap.chars := by
      have whole := congrArg (List.flatMap (·.chars)) cut
      rw [List.flatMap_append, List.flatMap_cons, chars_lexemes, chars_lexemes, Layout.chars,
        List.flatMap_cons, List.append_assoc, List.append_assoc] at whole
      exact (List.append_cancel_right whole).symm
    have means : (word.token (some (offset + byteLength gap.chars))).isTrivia = false := by
      cases word <;> rfl
    rw [cut, tokensFrom_append, taken, significant, List.filter_append, tokensFrom,
      List.filter_cons_of_pos (by simpa [Word.token] using means)]
    change significant _ ++ _ :: significant _ = _
    rw [dropped spaces.trivial, ih (List.IsChain.of_cons parted)]
    rfl

theorem Laid.append_iff {front back : Layout} {tokens : List Token} :
    Laid (front ++ back) tokens ↔
      ∃ before behind, tokens = before ++ behind ∧ Laid front before ∧ Laid back behind := by
  induction front generalizing tokens with
  | nil =>
    constructor
    · exact fun laid => ⟨[], tokens, rfl, .nil, laid⟩
    · rintro ⟨before, behind, rfl, ⟨⟩, laid⟩
      exact laid
  | cons piece front ih =>
    constructor
    · intro laid
      cases laid with
      | @cons gap word _ spaces _ offset trivial breaks rest =>
        obtain ⟨before, behind, rfl, laid, more⟩ := ih.mp rest
        exact ⟨spaces ++ word.token offset :: before, behind, by simp,
          .cons trivial breaks laid, more⟩
    · rintro ⟨before, behind, rfl, _ | ⟨trivial, breaks, rest⟩, more⟩
      rw [List.append_assoc, List.cons_append]
      exact .cons trivial breaks (ih.mpr ⟨_, behind, rfl, rest, more⟩)

end Recast.Script
