import Mathlib.Data.List.Chain
import Recast.Proofs.Script.Standing

/-! # Renamed identifiers are read again

Renaming changes tokens, but what is emitted is their text, and that may be read again. A new name is
cut off there as the old one was, and its neighbours still are what they were: no lexeme but a number
looks further than to see that a name begins behind it (`Alike`), also one that misses its closing mark.
So the lexemes of the renamed text are the renamed lexemes (`lexemes_rename`).
-/

namespace Recast.Script

open Recast.Text

/-! ## Names -/

/-- A name takes all that can stand in a name. -/
theorem nextLexeme_of_startsName {c : Char} (starts : startsName c = true) (cs : List Char) :
    nextLexeme c cs =
      (⟨.identifier, c :: cs.takeWhile continuesName, none⟩, cs.dropWhile continuesName) := by
  have unblank : isBlank c = false := by
    by_contra blank
    rw [(ends_of_isBlank (Bool.not_eq_false _ ▸ blank)).1] at starts
    cases starts
  have slash : c ≠ '/' := by
    rintro rfl
    cases starts
  simp [nextLexeme, unblank, slash, starts]

theorem nextLexeme_kind_eq_identifier_iff (c : Char) (cs : List Char) :
    (nextLexeme c cs).1.kind = .identifier ↔ startsName c = true := by
  constructor
  · unfold nextLexeme runOf scanned
    repeat' split
    all_goals simp_all
  · intro starts
    rw [nextLexeme_of_startsName starts]

/-- A text that is read as one identifier. -/
def IsName (name : String) : Prop :=
  (lexemes name.toList).map (·.kind) = [.identifier]

instance (name : String) : Decidable (IsName name) :=
  inferInstanceAs (Decidable (_ = _))

theorem IsName.exists_cons {name : String} (isName : IsName name) :
    ∃ c cs, name.toList = c :: cs ∧ startsName c = true ∧ cs.all continuesName = true := by
  unfold IsName at isName
  cases chars : name.toList with
  | nil =>
    rw [chars, lexemes] at isName
    cases isName
  | cons c cs =>
    rw [chars, lexemes_cons, List.map_cons, List.cons.injEq, List.map_eq_nil_iff] at isName
    obtain ⟨kind, alone⟩ := isName
    have starts := (nextLexeme_kind_eq_identifier_iff c cs).mp kind
    refine ⟨c, cs, rfl, starts, ?_⟩
    rw [nextLexeme_of_startsName starts] at alone
    cases left : cs.dropWhile continuesName with
    | nil =>
      rw [← List.takeWhile_append_dropWhile (p := continuesName) (l := cs), left, List.append_nil]
      exact List.all_takeWhile
    | cons d ds =>
      dsimp only at alone
      rw [left, lexemes_cons] at alone
      cases alone

/-! ## Lexemes that miss their closing mark -/

theorem scanComment_rest {cs : List Char} (opened : (scanComment cs).closed = false) :
    (scanComment cs).rest = [] := by
  fun_induction scanComment cs with
  | case1 => rfl
  | case2 => cases opened
  | case3 c cs _ ih => exact ih opened

theorem scanTemplate_rest {depth : Nat} {cs : List Char}
    (opened : (scanTemplate depth cs).closed = false) : (scanTemplate depth cs).rest = [] := by
  fun_induction scanTemplate depth cs <;> simp_all [Scan.push]

/-- A string without a quote at its end is broken off at the end of the line, and so it is in front of
every text that begins alike. -/
theorem scanString_of_open {quote : Char} {cs : List Char}
    (opened : (scanString quote cs).closed = false) :
    ((scanString quote cs).rest = [] ∨ (scanString quote cs).rest.head? = some '\n') ∧
      ∀ after, after.head? = (scanString quote cs).rest.head? →
        scanString quote ((scanString quote cs).taken ++ after) =
          ⟨(scanString quote cs).taken, after, false⟩ := by
  fun_induction scanString quote cs with
  | case1 => exact ⟨.inl rfl, fun after none => by rw [List.head?_eq_none_iff.mp none]; rfl⟩
  | case2 cs =>
    refine ⟨.inr rfl, fun after some => ?_⟩
    obtain ⟨rest, rfl⟩ := List.head?_eq_some_iff.mp some
    rfl
  | case3 => exact ⟨.inl rfl, fun after none => by rw [List.head?_eq_none_iff.mp none]; rfl⟩
  | case4 c cs ih =>
    obtain ⟨ends, again⟩ := ih opened
    refine ⟨ends, fun after same => ?_⟩
    change scanString quote ('\\' :: c :: ((scanString quote cs).taken ++ after)) = _
    rw [scanString, again after same]
    rfl
  | case5 => cases opened
  | case6 c cs unbroken unended unescaped other ih =>
    obtain ⟨ends, again⟩ := ih opened
    have plain := ne_backslash unended unescaped
    refine ⟨ends, fun after same => ?_⟩
    change scanString quote (c :: ((scanString quote cs).taken ++ after)) = _
    rw [scanString.eq_5 _ _ _ unbroken (fun same => absurd same plain)
      fun _ _ same => absurd same plain, if_neg other, again after same]
    rfl

theorem nextLexeme_of_quote {quote : Char} (isQuote : quote = '"' ∨ quote = '\'') (cs : List Char) :
    nextLexeme quote cs = scanned .string [quote] .unclosedString (scanString quote cs) := by
  rcases isQuote with rfl | rfl <;> rfl

/-- Behind a lexeme that misses its closing mark nothing is left, unless it is a string and the line ends
there. -/
theorem rest_of_fault {c : Char} {cs : List Char} (faulty : (nextLexeme c cs).1.fault ≠ none) :
    (nextLexeme c cs).2 = [] ∨ ((c = '"' ∨ c = '\'') ∧ (scanString c cs).closed = false) := by
  have opened {scan : Scan} {kind : TokenKind} {opening : List Char} {fault : LexicalFault}
      (faulty : (scanned kind opening fault scan).1.fault ≠ none) : scan.closed = false := by
    by_contra closed
    simp [scanned, closed] at faulty
  unfold nextLexeme at faulty ⊢
  split at faulty
  · exact absurd rfl faulty
  split at faulty
  · exact absurd rfl faulty
  split at faulty
  · next unblank noLine block =>
    rw [if_neg unblank, if_neg noLine, if_pos block]
    exact .inl (scanComment_rest (opened faulty))
  split at faulty
  · exact absurd rfl faulty
  split at faulty
  · exact absurd rfl faulty
  split at faulty
  · next quote => exact .inr ⟨quote, opened faulty⟩
  split at faulty
  · next unblank noLine noBlock noName noDigit noQuote tick =>
    rw [if_neg unblank, if_neg noLine, if_neg noBlock, if_neg noName, if_neg noDigit, if_neg noQuote,
      if_pos tick]
    exact .inl (scanTemplate_rest (opened faulty))
  · exact absurd rfl faulty

/-! ## Lexemes in front of a renamed text -/

/-- What a lexeme is, with or without a fault, shows in front of every text that it cannot tell from what
was behind it. -/
theorem nextLexeme_of_alike {piece : Lexeme} {c : Char} {inner after after' : List Char}
    (cut : nextLexeme c (inner ++ after) = (piece, after)) (chars : piece.chars = c :: inner)
    (alike : Alike piece.kind after after') : nextLexeme c (inner ++ after') = (piece, after') := by
  obtain ⟨kind, _, fault⟩ := piece
  obtain rfl : _ = c :: inner := chars
  cases fault with
  | none => exact nextLexeme_congr cut alike
  | some fault =>
    have faulty : (nextLexeme c (inner ++ after)).1.fault ≠ none := by
      rw [cut]
      exact Option.some_ne_none fault
    have same (ends : after = [] ∨ after.head? = some '\n') : after.head? = after'.head? := by
      rcases alike with same | ⟨-, d, e, first, -, starts, -⟩
      · exact same
      · rcases ends with rfl | newline
        · cases first
        · obtain rfl : d = '\n' := Option.some.inj (first.symm.trans newline)
          cases starts
    rcases rest_of_fault faulty with none | ⟨quote, opened⟩
    · rw [cut] at none
      obtain rfl : after = [] := none
      rw [List.head?_eq_none_iff.mp (same (.inl rfl)).symm]
      exact cut
    · obtain ⟨ends, again⟩ := scanString_of_open opened
      rw [nextLexeme_of_quote quote] at cut ⊢
      simp only [scanned, Prod.mk.injEq, Lexeme.mk.injEq] at cut
      obtain ⟨⟨rfl, taken, fault⟩, left⟩ := cut
      have taken : (scanString c (inner ++ after)).taken = inner := (List.cons.inj taken).2
      rw [left] at ends again
      rw [taken] at again
      rw [again after' (same ends).symm, ← fault, opened]
      rfl

/-- A lexeme that is left alone is cut off from the renamed text behind it. -/
theorem lexemes_kept {c : Char} {cs after : List Char}
    (alike : Alike (nextLexeme c cs).1.kind (nextLexeme c cs).2 after) :
    lexemes ((nextLexeme c cs).1.chars ++ after) = (nextLexeme c cs).1 :: lexemes after := by
  obtain ⟨d, inner, chars⟩ := List.exists_cons_of_ne_nil (nextLexeme_chars_ne_nil c cs)
  have whole := nextLexeme_chars_append c cs
  rw [chars, List.cons_append] at whole
  obtain ⟨rfl, rest⟩ := List.cons.inj whole
  have cut : nextLexeme d (inner ++ (nextLexeme d cs).2) =
      ((nextLexeme d cs).1, (nextLexeme d cs).2) := by rw [rest]
  rw [chars, List.cons_append, lexemes_cons, nextLexeme_of_alike cut chars alike]

/-- So is a new name. -/
private theorem lexemes_named {c : Char} {cs after : List Char} (starts : startsName c = true)
    (alike : Alike .identifier (nextLexeme c cs).2 after) {name : String} (isName : IsName name) :
    lexemes (name.toList ++ after) = { (nextLexeme c cs).1 with chars := name.toList } :: lexemes after := by
  obtain ⟨d, ds, spelled, starts', all⟩ := isName.exists_cons
  have ends : ∀ e, after.head? = some e → continuesName e = false := by
    refine alike.ends (fun _ => ⟨true, fun _ => continuesName_of_startsName⟩) fun e head => ?_
    have stops := List.head?_dropWhile_not continuesName cs
    rw [nextLexeme_of_startsName starts] at head
    rw [head] at stops
    simpa using stops
  obtain ⟨taken, left⟩ := span_append after all ends
  rw [spelled, List.cons_append, lexemes_cons, nextLexeme_of_startsName starts',
    nextLexeme_of_startsName starts, taken, left]

section Renaming

variable (newName? : String → Option String)

/-- The name that a table gives to a name; it keeps a name that it does not list. -/
def newName (name : String) : String :=
  (newName? name).getD name

/-- The lexeme with another name, if it is a listed identifier. -/
def Lexeme.rename (piece : Lexeme) : Lexeme :=
  if piece.kind = .identifier then
    { piece with chars := (newName newName? (String.ofList piece.chars)).toList }
  else piece

/-- Whether a table changes a token of a kind and a text. -/
def Changes (kind : TokenKind) (text : String) : Prop :=
  kind = .identifier ∧ newName newName? text ≠ text

instance (kind : TokenKind) (text : String) : Decidable (Changes newName? kind text) :=
  inferInstanceAs (Decidable (_ ∧ _))

@[simp] theorem Lexeme.kind_rename (piece : Lexeme) : (piece.rename newName?).kind = piece.kind := by
  unfold Lexeme.rename
  split <;> rfl

/-- The characters of the renamed lexemes of a text. -/
def renamedChars (cs : List Char) : List Char :=
  ((lexemes cs).map (Lexeme.rename newName?)).flatMap (·.chars)

/-- A table either leaves a lexeme alone or gives another name to an identifier. -/
theorem Lexeme.rename_cases (piece : Lexeme) :
    piece.rename newName? = piece ∨ (Changes newName? piece.kind (String.ofList piece.chars) ∧
      ∃ name, newName? (String.ofList piece.chars) = some name ∧
        piece.rename newName? = { piece with chars := name.toList }) := by
  unfold Lexeme.rename Changes newName
  by_cases identifier : piece.kind = .identifier
  · rw [if_pos identifier]
    cases listed : newName? (String.ofList piece.chars) with
    | none => exact .inl (by simp)
    | some name =>
      by_cases same : name = String.ofList piece.chars
      · exact .inl (by simp [same])
      · exact .inr ⟨⟨identifier, same⟩, name, rfl, rfl⟩
  · exact .inl (if_neg identifier)

variable {newName?}

theorem renamedChars_cons (c : Char) (cs : List Char) :
    renamedChars newName? (c :: cs) = ((nextLexeme c cs).1.rename newName?).chars ++
      renamedChars newName? (nextLexeme c cs).2 := by
  rw [renamedChars, lexemes_cons]
  rfl

variable (names : ∀ name new, newName? name = some new → IsName new)
include names

/-- Behind a lexeme, a text begins as its renamed text does, unless a number stands before a name that
is changed. -/
private theorem alike_renamedChars {kind : TokenKind} {cs : List Char}
    (apart : ∀ piece ∈ (lexemes cs).head?, kind = .number →
      ¬Changes newName? piece.kind (String.ofList piece.chars)) :
    Alike kind cs (renamedChars newName? cs) := by
  cases cs with
  | nil =>
    rw [renamedChars, lexemes]
    exact .inl rfl
  | cons c cs =>
    have first : (nextLexeme c cs).1 ∈ (lexemes (c :: cs)).head? := by rw [lexemes_cons]; rfl
    rw [renamedChars_cons]
    rcases (nextLexeme c cs).1.rename_cases newName? with kept | ⟨changes, name, listed, new⟩
    · rw [kept]
      obtain ⟨d, inner, chars⟩ := List.exists_cons_of_ne_nil (nextLexeme_chars_ne_nil c cs)
      have whole := nextLexeme_chars_append c cs
      rw [chars, List.cons_append] at whole ⊢
      exact .inl (congrArg some (List.cons.inj whole).1.symm)
    · obtain ⟨d, ds, spelled, starts, -⟩ := (names _ _ listed).exists_cons
      refine .inr ⟨fun number => apart _ first number changes, c, d, rfl, ?_, ?_, starts⟩
      · rw [new, spelled]
        rfl
      · exact (nextLexeme_kind_eq_identifier_iff c cs).mp changes.1

/-- Reading the renamed text gives the renamed lexemes, if no name that is changed follows a number. -/
theorem lexemes_rename {cs : List Char}
    (apart : (lexemes cs).IsChain fun first second => first.kind = .number →
      ¬Changes newName? second.kind (String.ofList second.chars)) :
    lexemes (renamedChars newName? cs) = (lexemes cs).map (Lexeme.rename newName?) := by
  fun_induction lexemes cs with
  | case1 =>
    rw [renamedChars, lexemes]
    exact lexemes.eq_1
  | case2 c cs ih =>
    obtain ⟨first, rest⟩ := List.isChain_cons.mp apart
    have behind := ih rest
    have alike := alike_renamedChars names first
    rw [renamedChars_cons, List.map_cons, ← behind]
    rcases (nextLexeme c cs).1.rename_cases newName? with kept | ⟨changes, name, listed, new⟩
    · rw [kept]
      exact lexemes_kept alike
    · rw [new]
      rw [changes.1] at alike
      exact lexemes_named ((nextLexeme_kind_eq_identifier_iff c cs).mp changes.1) alike
        (names _ _ listed)

end Renaming

/-! ## Renamed trees -/

section Trees

variable (newName? : String → Option String)

/-- The token with another name, if it is a listed identifier. -/
def Token.rename (t : Token) : Token :=
  if t.kind = .identifier then { t with text := newName newName? t.text } else t

/-- No token that a table changes lies directly behind a number. -/
def Tree.Apart (tree : Tree) : Prop :=
  tree.tokens.IsChain fun t u => t.kind = .number → ¬Changes newName? u.kind u.text

instance (tree : Tree) : Decidable (tree.Apart newName?) :=
  inferInstanceAs (Decidable (List.IsChain _ _))

theorem Tree.tokens_renameAll (tree : Tree) :
    (tree.renameAll newName?).tokens = tree.tokens.map (Token.rename newName?) :=
  rfl

/-- What a token is without its place. -/
def Token.key (t : Token) : TokenKind × String :=
  (t.kind, t.text)

theorem map_key_tokensFrom (offset : Nat) (pieces : List Lexeme) :
    (tokensFrom offset pieces).map Token.key =
      pieces.map fun piece => (piece.kind, String.ofList piece.chars) := by
  induction pieces generalizing offset with
  | nil => rfl
  | cons piece pieces ih =>
    rw [tokensFrom, List.map_cons, ih, List.map_cons]
    rfl

/-- Renaming the token of a lexeme is renaming the lexeme. -/
theorem rename_token (piece : Lexeme) (offset : Option Nat) :
    (⟨piece.kind, String.ofList piece.chars, offset⟩ : Token).rename newName? =
      ⟨piece.kind, String.ofList (piece.rename newName?).chars, offset⟩ := by
  unfold Token.rename Lexeme.rename
  split <;> simp

theorem map_key_rename_tokensFrom (offset : Nat) (pieces : List Lexeme) :
    ((tokensFrom offset pieces).map (Token.rename newName?)).map Token.key =
      (pieces.map (Lexeme.rename newName?)).map fun piece =>
        (piece.kind, String.ofList piece.chars) := by
  induction pieces generalizing offset with
  | nil => rfl
  | cons piece pieces ih =>
    rw [tokensFrom, List.map_cons, List.map_cons, ih, rename_token, List.map_cons, List.map_cons,
      Lexeme.kind_rename]
    rfl

theorem printChars_rename_tokensFrom (offset : Nat) (pieces : List Lexeme) :
    printChars ((tokensFrom offset pieces).map (Token.rename newName?)) =
      (pieces.map (Lexeme.rename newName?)).flatMap (·.chars) := by
  induction pieces generalizing offset with
  | nil => rfl
  | cons piece pieces ih =>
    rw [tokensFrom, List.map_cons, rename_token, List.map_cons, List.flatMap_cons,
      ← ih (offset + byteLength piece.chars)]
    simp [printChars]

variable {newName?}

/-- A tree that was renamed is read again as the renamed tokens. -/
theorem map_key_parse_renameAll (file : Path) {text : String}
    (names : ∀ name new, newName? name = some new → IsName new)
    (apart : (Tree.parse file text).Apart newName?) :
    (Tree.parse file ((Tree.parse file text).renameAll newName?).print).tokens.map Token.key =
      ((Tree.parse file text).renameAll newName?).tokens.map Token.key := by
  have printed : ((Tree.parse file text).renameAll newName?).print.toList =
      renamedChars newName? text.toList := by
    rw [Tree.print, String.toList_ofList, Tree.tokens_renameAll]
    exact printChars_rename_tokensFrom newName? 0 _
  have chained : (lexemes text.toList).IsChain fun first second => first.kind = .number →
      ¬Changes newName? second.kind (String.ofList second.chars) := by
    have keys := (List.isChain_map (R := fun k l : TokenKind × String => k.1 = .number →
      ¬Changes newName? l.1 l.2) Token.key).mpr apart
    have spelled := map_key_tokensFrom 0 (lexemes text.toList)
    exact (List.isChain_map _).mp (spelled ▸ keys)
  change (tokensFrom 0 (lexemes (String.toList _))).map Token.key = _
  rw [printed, lexemes_rename names chained, map_key_tokensFrom, Tree.tokens_renameAll]
  exact (map_key_rename_tokensFrom newName? 0 _).symm

end Trees

end Recast.Script
