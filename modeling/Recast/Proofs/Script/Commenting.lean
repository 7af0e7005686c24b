import Mathlib.Data.List.TakeWhile
import Recast.Proofs.Script.Renaming

/-! # Comments in front of a script

A line that is put in front of a script is read together with it. If it ends with a line break, and
blanks and closed comments are all that is read in it, then nothing is changed by it: the last of its
pieces is blank and only takes the blanks behind it (`telling_append_of_quiet`). Nothing else will do
(`isInert_iff`): a piece that means something is there in front of every script, and an open comment
takes the script behind it.
-/

namespace Recast.Script

open Recast.Text

/-! ## What a script means -/

/-- The kinds and the texts of the tokens that mean something. -/
def Tree.meaning (tree : Tree) : List (TokenKind × String) :=
  (significant tree.tokens).map Token.key

/-- The kinds and the texts of the pieces that mean something. -/
def meaningOf (pieces : List Lexeme) : List (TokenKind × String) :=
  (pieces.filter fun piece => !piece.kind.isTrivia).map fun piece =>
    (piece.kind, String.ofList piece.chars)

theorem Tree.meaning_eq (tree : Tree) :
    tree.meaning = (tree.tokens.map Token.key).filter fun key => !key.1.isTrivia := by
  rw [List.filter_map]
  rfl

theorem meaning_parse (file : Path) (text : String) :
    (Tree.parse file text).meaning = meaningOf (lexemes text.toList) := by
  rw [Tree.meaning_eq]
  change ((tokensFrom 0 (lexemes text.toList)).map Token.key).filter _ = _
  rw [map_key_tokensFrom, List.filter_map]
  rfl

/-- Whoever knows the pieces that tell something knows what they mean. -/
theorem meaningOf_telling (pieces : List Lexeme) : meaningOf (telling pieces) = meaningOf pieces := by
  unfold meaningOf telling
  rw [List.filter_filter]
  congr 1
  exact List.filter_congr fun piece _ => by cases piece.kind.isTrivia <;> simp

/-! ## Pieces of comment lines -/

/-- Pieces without meaning are runs of blanks, comments up to the end of the line, and comments in a
block. -/
theorem cases_of_isTrivia {c : Char} {cs : List Char}
    (trivial : (nextLexeme c cs).1.kind.isTrivia = true) :
    nextLexeme c cs = runOf .whitespace isBlank (c :: cs) ∨
      nextLexeme c cs = runOf .comment (· ≠ '\n') (c :: cs) ∨
      ∃ inner, c = '/' ∧ cs = '*' :: inner ∧
        nextLexeme c cs = scanned .comment ['/', '*'] .unclosedComment (scanComment inner) := by
  by_cases blank : isBlank c = true
  · exact .inl (by rw [nextLexeme, if_pos blank])
  by_cases line : c = '/' ∧ cs.head? = some '/'
  · exact .inr (.inl (by rw [nextLexeme, if_neg blank, if_pos line]))
  by_cases block : c = '/' ∧ cs.head? = some '*'
  · obtain ⟨rfl, star⟩ := block
    obtain ⟨inner, rfl⟩ := List.head?_eq_some_iff.mp star
    exact .inr (.inr ⟨inner, rfl, rfl, rfl⟩)
  · rw [nextLexeme, if_neg blank, if_neg line, if_neg block] at trivial
    exfalso
    repeat' split at trivial
    all_goals cases trivial

/-- A comment that ends does so with its closing mark. -/
theorem getLast?_scanComment {cs : List Char} (closed : (scanComment cs).closed = true) :
    (scanComment cs).taken.getLast? = some '/' := by
  fun_induction scanComment cs with
  | case1 => cases closed
  | case2 => rfl
  | case3 c cs _ ih =>
    change (c :: (scanComment cs).taken).getLast? = some '/'
    rw [List.getLast?_cons, ih closed]
    rfl

/-- A comment that does not end goes on in front of a letter. -/
theorem scanComment_concat {cs : List Char} (opened : (scanComment cs).closed = false) :
    scanComment (cs ++ ['a']) = ⟨cs ++ ['a'], [], false⟩ := by
  fun_induction scanComment cs with
  | case1 => rfl
  | case2 => cases opened
  | case3 c cs opens ih =>
    have opens' : ∀ rest, c = '*' → cs ++ ['a'] = '/' :: rest → False := by
      intro rest star slash
      cases cs with
      | nil => simp at slash
      | cons d cs =>
        obtain ⟨rfl, -⟩ := List.cons.inj slash
        exact opens cs star rfl
    rw [List.cons_append, scanComment.eq_3 _ _ opens', ih opened]
    rfl

/-- The last piece of a line is blank, if it is closed and has no meaning. -/
theorem kind_of_line_end {c : Char} {cs : List Char} (ends : (c :: cs).getLast? = some '\n')
    (trivial : (nextLexeme c cs).1.kind.isTrivia = true) (whole : (nextLexeme c cs).1.fault = none)
    (alone : (nextLexeme c cs).2 = []) : (nextLexeme c cs).1.kind = .whitespace := by
  have chars := nextLexeme_chars_append c cs
  rw [alone, List.append_nil] at chars
  rw [← chars] at ends
  rcases cases_of_isTrivia trivial with blank | line | ⟨inner, rfl, rfl, block⟩
  · rw [blank]
    rfl
  · -- no line break stands in such a comment
    rw [line] at ends
    have member := List.mem_takeWhile_imp (List.mem_of_getLast? ends)
    simp at member
  · rw [block] at whole ends
    have closed : (scanComment inner).closed = true := by
      by_contra opened
      simp [scanned, opened] at whole
    have last := getLast?_scanComment closed
    rw [scanned, List.getLast?_append, last] at ends
    cases ends

theorem telling_cons_eq_nil {piece : Lexeme} {pieces : List Lexeme}
    (quiet : telling (piece :: pieces) = []) :
    piece.kind.isTrivia = true ∧ piece.fault = none ∧ telling pieces = [] := by
  unfold telling at quiet
  rw [List.filter_cons] at quiet
  split at quiet
  · cases quiet
  · next silent =>
    simp only [Bool.or_eq_true, not_or, Bool.not_eq_true', Bool.not_eq_false,
      Option.not_isSome_iff_eq_none] at silent
    exact ⟨silent.1, silent.2, quiet⟩

/-! ## Reading on behind a line -/

/-- A piece that has something behind it is cut off there, whatever follows later. -/
private theorem lexemes_cons_append {c : Char} {cs : List Char} (more : (nextLexeme c cs).2 ≠ [])
    (after : List Char) : lexemes (c :: cs ++ after) =
      (nextLexeme c cs).1 :: lexemes ((nextLexeme c cs).2 ++ after) := by
  have whole := nextLexeme_chars_append c cs
  have alike : Alike (nextLexeme c cs).1.kind (nextLexeme c cs).2 ((nextLexeme c cs).2 ++ after) :=
    .inl (by rw [List.head?_append_of_ne_nil _ more])
  rw [← lexemes_kept alike, ← List.append_assoc, whole]

/-- A line in which only blanks and closed comments are read changes nothing behind it. -/
theorem telling_append_of_quiet {front : List Char} (quiet : telling (lexemes front) = [])
    (ends : front.getLast? = some '\n') (after : List Char) :
    telling (lexemes (front ++ after)) = telling (lexemes after) := by
  fun_induction lexemes front with
  | case1 => cases ends
  | case2 c cs ih =>
    obtain ⟨trivial, whole, quiet⟩ := telling_cons_eq_nil quiet
    have chars := nextLexeme_chars_append c cs
    by_cases alone : (nextLexeme c cs).2 = []
    · have blank := kind_of_line_end ends trivial whole alone
      have all : (c :: cs).all isBlank = true := by
        have first := (nextLexeme_kind_eq_whitespace_iff c cs).mp blank
        rw [alone, List.append_nil, nextLexeme, if_pos first] at chars
        rw [← chars]
        exact List.all_takeWhile
      exact telling_append_of_blank all after
    · rw [lexemes_cons_append alone, telling_cons_of_isTrivia trivial whole]
      refine ih quiet ?_
      rwa [← chars, List.getLast?_append_of_ne_nil _ alone] at ends

/-- An open comment takes what stands behind it. -/
private theorem meaningOf_behind_open {front : List Char} (silent : meaningOf (lexemes front) = [])
    (faulty : telling (lexemes front) ≠ []) : meaningOf (lexemes (front ++ ['a'])) = [] := by
  have dropped {piece : Lexeme} {pieces : List Lexeme} (trivial : piece.kind.isTrivia = true) :
      meaningOf (piece :: pieces) = meaningOf pieces := by
    unfold meaningOf
    rw [List.filter_cons_of_neg (by simp [trivial])]
  fun_induction lexemes front with
  | case1 => exact absurd rfl faulty
  | case2 c cs ih =>
    have trivial : (nextLexeme c cs).1.kind.isTrivia = true := by
      by_contra means
      unfold meaningOf at silent
      rw [List.filter_cons_of_pos (by simpa using means)] at silent
      cases silent
    rw [dropped trivial] at silent
    by_cases whole : (nextLexeme c cs).1.fault = none
    · rw [telling_cons_of_isTrivia trivial whole] at faulty
      have more : (nextLexeme c cs).2 ≠ [] := by
        intro alone
        rw [alone, lexemes] at faulty
        exact faulty rfl
      rw [lexemes_cons_append more, dropped trivial]
      exact ih silent faulty
    · rcases cases_of_isTrivia trivial with blank | line | ⟨inner, rfl, rfl, block⟩
      · exact absurd (by rw [blank]; rfl) whole
      · exact absurd (by rw [line]; rfl) whole
      · have opened : (scanComment inner).closed = false := by
          by_contra closed
          exact whole (by rw [block]; simp [scanned, closed])
        have cut : nextLexeme '/' ('*' :: inner ++ ['a']) =
            scanned .comment ['/', '*'] .unclosedComment (scanComment (inner ++ ['a'])) := rfl
        have none : lexemes [] = [] := lexemes.eq_1
        rw [List.cons_append, lexemes_cons, cut, scanComment_concat opened, dropped rfl]
        exact congrArg meaningOf none

/-- A text that changes the meaning of no script that it is put in front of. -/
def IsInert (front : String) : Prop :=
  ∀ file source, (Tree.parse file (front ++ source)).meaning = (Tree.parse file source).meaning

/-- A line is inert exactly if blanks and closed comments are all that is read in it. -/
theorem isInert_iff {front : String} (ends : front.toList.getLast? = some '\n') :
    IsInert front ↔ telling (lexemes front.toList) = [] := by
  constructor
  · intro inert
    have means (source : String) : meaningOf (lexemes (front.toList ++ source.toList)) =
        meaningOf (lexemes source.toList) := by
      have same := inert .empty source
      rwa [meaning_parse, meaning_parse, String.toList_append] at same
    have silent : meaningOf (lexemes front.toList) = [] := by
      have alone := means ""
      rw [String.toList_empty, List.append_nil] at alone
      rw [alone, lexemes]
      rfl
    by_contra faulty
    have taken := meaningOf_behind_open silent faulty
    have kept := means "a"
    rw [show "a".toList = ['a'] from rfl, taken] at kept
    exact absurd kept (by decide +kernel)
  · intro quiet file source
    rw [meaning_parse, meaning_parse, String.toList_append, ← meaningOf_telling,
      telling_append_of_quiet quiet ends, meaningOf_telling]

/-! ## Comment lines -/

/-- A text as a comment line. -/
def commentLine (comment : String) : String :=
  "// " ++ comment ++ "\n"

theorem toList_commentLine (comment : String) :
    (commentLine comment).toList = '/' :: '/' :: (' ' :: comment.toList ++ ['\n']) := by
  simp [commentLine]

theorem getLast?_commentLine (comment : String) :
    (commentLine comment).toList.getLast? = some '\n' := by
  rw [toList_commentLine, ← List.cons_append, ← List.cons_append, List.getLast?_concat]

/-- A comment without a line break is read as one comment. -/
theorem telling_commentLine {comment : String} (single : '\n' ∉ comment.toList) :
    telling (lexemes (commentLine comment).toList) = [] := by
  have unbroken : '\n' ∉ ' ' :: comment.toList := by
    simpa using single
  have behind : telling (lexemes ['\n']) = [] := by decide +kernel
  rw [toList_commentLine, lexemes_line unbroken, telling_cons_of_isTrivia rfl rfl, behind]

theorem isInert_commentLine_iff (comment : String) :
    IsInert (commentLine comment) ↔ telling (lexemes (commentLine comment).toList) = [] :=
  isInert_iff (getLast?_commentLine comment)

/-- A tree that is printed and parsed as itself. -/
def Tree.Reproduced (tree : Tree) : Prop :=
  (parse tree.file tree.print).tokens.map Token.key = tree.tokens.map Token.key

theorem Tree.reproduced_parse (file : Path) (text : String) : (parse file text).Reproduced := by
  rw [Reproduced, print_parse]
  rfl

theorem Tree.Reproduced.meaning {tree : Tree} (reproduced : tree.Reproduced) :
    (parse tree.file tree.print).meaning = tree.meaning := by
  rw [Tree.meaning_eq, Tree.meaning_eq, reproduced]

theorem Tree.print_prependComment (tree : Tree) (comment : String) :
    (tree.prependComment comment).print = commentLine comment ++ tree.print := by
  rw [← String.toList_inj, String.toList_append, toList_commentLine]
  simp [Tree.print, Tree.prependComment, Tree.withTokens, printChars_cons, Token.made]

end Recast.Script
