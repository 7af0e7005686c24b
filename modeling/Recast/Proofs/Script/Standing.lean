import Recast.Proofs.Script.Erasure
import Recast.Proofs.Script.Partition
import Recast.Proofs.Script.Portions

/-! # Tokens that stand

A token stands in front of a text if the lexer cuts it off there without a fault. Whether it does
depends on the first character behind it at most (`Token.Stands.congr`), and not even on that if it
is a semicolon, a closing brace or a comment with an end.

So when the eraser takes statements out of a script without faults, the tokens that it keeps stand
in what is left: it takes a statement out only where a script begins, or behind a token that stands
in front of anything (`telling_remainsOf`).
-/

namespace Recast.Script

open Recast.Text

/-! ## Scans that end -/

/-- A comment that ends does so in front of anything. -/
theorem scanComment_of_closed {cs : List Char} (closed : (scanComment cs).closed = true)
    (after : List Char) :
    scanComment ((scanComment cs).taken ++ after) = ⟨(scanComment cs).taken, after, true⟩ ∧
      (scanComment cs).taken ≠ [] := by
  fun_induction scanComment cs with
  | case1 => cases closed
  | case2 cs => exact ⟨rfl, by simp⟩
  | case3 c cs opens ih =>
    obtain ⟨again, some⟩ := ih closed
    refine ⟨?_, by simp [Scan.push]⟩
    have opens' : ∀ rest, c = '*' → (scanComment cs).taken ++ after = '/' :: rest → False := by
      intro rest star slash
      have whole := scanComment_taken_rest cs
      obtain ⟨d, taken, split⟩ := List.exists_cons_of_ne_nil some
      rw [split] at whole slash
      obtain ⟨rfl, -⟩ := List.cons.inj slash
      exact opens _ star whole.symm
    change scanComment (c :: ((scanComment cs).taken ++ after)) = _
    rw [scanComment.eq_3 _ _ opens', again]
    rfl

/-- A character that takes none with it is no backslash. -/
theorem ne_backslash {c : Char} {cs : List Char} (unended : c = '\\' → cs = [] → False)
    (unescaped : ∀ d ds, c = '\\' → cs = d :: ds → False) : c ≠ '\\' := by
  intro same
  cases cs with
  | nil => exact unended same rfl
  | cons d ds => exact unescaped d ds same rfl

/-- A string that ends does so in front of anything. -/
theorem scanString_of_closed {quote : Char} {cs : List Char}
    (closed : (scanString quote cs).closed = true) (after : List Char) :
    scanString quote ((scanString quote cs).taken ++ after) =
      ⟨(scanString quote cs).taken, after, true⟩ := by
  fun_induction scanString quote cs with
  | case1 => cases closed
  | case2 => cases closed
  | case3 => cases closed
  | case4 c cs ih =>
    change scanString quote ('\\' :: c :: ((scanString quote cs).taken ++ after)) = _
    rw [scanString, ih closed]
    rfl
  | case5 cs unbroken unended unescaped =>
    have plain := ne_backslash unended unescaped
    change scanString quote (quote :: after) = _
    rw [scanString.eq_5 _ _ _ unbroken (fun same => absurd same plain)
      fun _ _ same => absurd same plain, if_pos rfl]
  | case6 c cs unbroken unended unescaped other ih =>
    have plain := ne_backslash unended unescaped
    change scanString quote (c :: ((scanString quote cs).taken ++ after)) = _
    rw [scanString.eq_5 _ _ _ unbroken (fun same => absurd same plain)
      fun _ _ same => absurd same plain, if_neg other, ih closed]
    rfl

/-- A template that ends does so in front of anything. -/
theorem scanTemplate_of_closed {depth : Nat} {cs : List Char}
    (closed : (scanTemplate depth cs).closed = true) (after : List Char) :
    scanTemplate depth ((scanTemplate depth cs).taken ++ after) =
        ⟨(scanTemplate depth cs).taken, after, true⟩ ∧
      (scanTemplate depth cs).taken ≠ [] := by
  fun_induction scanTemplate depth cs with
  | case1 => cases closed
  | case2 => cases closed
  | case3 depth c cs ih => simp [scanTemplate, Scan.push, ih closed]
  | case4 cs ih => simp [scanTemplate, Scan.push, ih closed]
  | case5 cs _ _ _ => simp [scanTemplate]
  | case6 c cs unended unescaped unopened other ih =>
    have plain := ne_backslash unended unescaped
    obtain ⟨again, some⟩ := ih closed
    have unopened' : ∀ rest, c = '$' → (scanTemplate 0 cs).taken ++ after = '\x7b' :: rest →
        False := by
      intro rest dollar brace
      have whole := scanTemplate_taken_rest 0 cs
      obtain ⟨d, taken, split⟩ := List.exists_cons_of_ne_nil some
      rw [split] at whole brace
      obtain ⟨rfl, -⟩ := List.cons.inj brace
      exact unopened _ dollar whole.symm
    refine ⟨?_, by simp [Scan.push]⟩
    change scanTemplate 0 (c :: ((scanTemplate 0 cs).taken ++ after)) = _
    rw [scanTemplate.eq_5 _ _ (fun same => absurd same plain) (fun _ _ same => absurd same plain)
      unopened', if_neg other, again]
    rfl
  | case7 depth cs _ _ ih => simp [scanTemplate, Scan.push, ih closed]
  | case8 depth cs _ _ _ ih => simp [scanTemplate, Scan.push, ih closed]
  | case9 depth c cs unended unescaped noOpen noClose ih =>
    have plain := ne_backslash unended unescaped
    refine ⟨?_, by simp [Scan.push]⟩
    change scanTemplate (depth + 1) (c :: ((scanTemplate (depth + 1) cs).taken ++ after)) = _
    rw [scanTemplate.eq_6 _ _ _ (fun same => absurd same plain) (fun _ _ same => absurd same plain),
      if_neg noOpen, if_neg noClose, (ih closed).1]
    rfl

/-! ## Lexemes in front of another text -/

theorem continuesName_of_startsName {c : Char} (starts : startsName c = true) :
    continuesName c = true := by
  simp only [startsName, continuesName, isLetterOrNumber, Bool.or_eq_true] at starts ⊢
  rcases starts with (letter | underscore) | dollar
  · exact .inl (.inl (.inl letter))
  · exact .inl (.inr underscore)
  · exact .inr dollar

/-- Two texts that a lexeme of a kind cannot tell apart: they begin with the same character or, behind
anything but a number, both with a character that begins a name. -/
def Alike (kind : TokenKind) (after after' : List Char) : Prop :=
  after.head? = after'.head? ∨ kind ≠ .number ∧ ∃ d e, after.head? = some d ∧
    after'.head? = some e ∧ startsName d = true ∧ startsName e = true

namespace Alike

variable {kind : TokenKind} {after after' : List Char}

/-- A test that all beginnings of names pass, or none of them, cannot tell them apart. -/
theorem ends (alike : Alike kind after after') {p : Char → Bool}
    (uniform : kind ≠ .number → ∃ answer, ∀ d, startsName d = true → p d = answer)
    (ends : ∀ d, after.head? = some d → p d = false) :
    ∀ e, after'.head? = some e → p e = false := by
  intro e head
  rcases alike with same | ⟨other, d, e', first, second, starts, starts'⟩
  · exact ends e (same.trans head)
  · obtain rfl : e' = e := Option.some.inj (second.symm.trans head)
    obtain ⟨answer, always⟩ := uniform other
    rw [always e' starts', ← always d starts]
    exact ends d first

/-- Which mark begins what is left is the same, if the mark begins no name. -/
theorem head?_append_eq_some_iff (alike : Alike kind after after') (cs : List Char) {mark : Char}
    (noName : startsName mark = false) :
    (cs ++ after').head? = some mark ↔ (cs ++ after).head? = some mark := by
  cases cs with
  | cons c cs => rfl
  | nil =>
    rcases alike with same | ⟨-, d, e, first, second, starts, starts'⟩
    · rw [List.nil_append, List.nil_append, same]
    · have apart {c : Char} (starts : startsName c = true) : c ≠ mark := by
        rintro rfl
        rw [starts] at noName
        cases noName
      simp [first, second, apart starts, apart starts']

end Alike

section Spans

variable {kind kind' : TokenKind} {p : Char → Bool} {cs after after' : List Char}
  (uniform : kind' ≠ .number → ∃ answer, ∀ d, startsName d = true → p d = answer)
  (alike : Alike kind' after after')
include uniform alike

/-- A run of characters that pass a test ends in front of every text that begins alike. -/
private theorem span_congr (taken : (cs ++ after).takeWhile p = cs)
    (left : (cs ++ after).dropWhile p = after) :
    (cs ++ after').takeWhile p = cs ∧ (cs ++ after').dropWhile p = after' := by
  refine span_append after' ?_ (alike.ends uniform fun c head => ?_)
  · rw [← taken]
    exact List.all_takeWhile
  · have stops := List.head?_dropWhile_not p (cs ++ after)
    rw [left, head] at stops
    simpa using stops

private theorem runOf_congr (cut : runOf kind p (cs ++ after) = (⟨kind', cs, none⟩, after)) :
    runOf kind p (cs ++ after') = (⟨kind', cs, none⟩, after') := by
  simp only [runOf, Prod.mk.injEq, Lexeme.mk.injEq, and_true] at cut ⊢
  obtain ⟨⟨rfl, taken⟩, left⟩ := cut
  obtain ⟨taken', left'⟩ := span_congr uniform alike taken left
  exact ⟨⟨rfl, taken'⟩, left'⟩

private theorem headed_congr {c : Char}
    (cut : ((⟨kind, c :: (cs ++ after).takeWhile p, none⟩ : Lexeme), (cs ++ after).dropWhile p) =
      (⟨kind', c :: cs, none⟩, after)) :
    ((⟨kind, c :: (cs ++ after').takeWhile p, none⟩ : Lexeme), (cs ++ after').dropWhile p) =
      (⟨kind', c :: cs, none⟩, after') := by
  simp only [Prod.mk.injEq, Lexeme.mk.injEq, List.cons.injEq, true_and, and_true] at cut
  obtain ⟨⟨rfl, taken⟩, left⟩ := cut
  obtain ⟨taken', left'⟩ := span_congr uniform alike taken left
  rw [taken', left']

end Spans

/-- A scan without a fault met its closing mark. -/
private theorem closed_of_scanned {kind kind' : TokenKind} {opening cs after : List Char}
    {fault : LexicalFault} {scan : Scan}
    (cut : scanned kind opening fault scan = (⟨kind', opening ++ cs, none⟩, after)) :
    scan.closed = true ∧ scan.taken = cs ∧ kind = kind' := by
  simp only [scanned, Prod.mk.injEq, Lexeme.mk.injEq, List.append_cancel_left_eq] at cut
  obtain ⟨⟨rfl, taken, whole⟩, -⟩ := cut
  refine ⟨?_, taken, rfl⟩
  split at whole
  · assumption
  · cases whole

/-- A comment in a block ends in front of anything. -/
private theorem scanned_comment {kind : TokenKind} {c : Char} {cs after : List Char}
    (cut : scanned .comment [c, '*'] .unclosedComment (scanComment (cs ++ after).tail) =
      (⟨kind, c :: cs, none⟩, after)) (after' : List Char) :
    ∃ inner, cs = '*' :: inner ∧
      scanned .comment [c, '*'] .unclosedComment (scanComment (inner ++ after')) =
        (⟨kind, c :: cs, none⟩, after') := by
  obtain ⟨inner, rfl⟩ : ∃ inner, cs = '*' :: inner := by
    have chars := congrArg (fun cut => cut.1.chars) cut
    exact ⟨_, (List.cons.inj chars).2.symm⟩
  refine ⟨inner, rfl, ?_⟩
  have here : scanned .comment [c, '*'] .unclosedComment (scanComment (inner ++ after)) =
      (⟨kind, [c, '*'] ++ inner, none⟩, after) := cut
  obtain ⟨closed, taken, rfl⟩ := closed_of_scanned here
  have again := (scanComment_of_closed closed after').1
  rw [taken] at again
  rw [again]
  rfl

/-- What a lexeme is depends on the first character behind it at most, and tells the beginnings of
names apart only behind a number. -/
theorem nextLexeme_congr {kind : TokenKind} {c : Char} {cs after after' : List Char}
    (cut : nextLexeme c (cs ++ after) = (⟨kind, c :: cs, none⟩, after))
    (alike : Alike kind after after') :
    nextLexeme c (cs ++ after') = (⟨kind, c :: cs, none⟩, after') := by
  have opens (mark : Char) (noName : startsName mark = false) :
      c = '/' ∧ (cs ++ after').head? = some mark ↔ c = '/' ∧ (cs ++ after).head? = some mark :=
    and_congr_right fun _ => alike.head?_append_eq_some_iff cs noName
  have slash := opens '/' (by decide +kernel)
  have star := opens '*' (by decide +kernel)
  unfold nextLexeme at cut ⊢
  split at cut
  · next blank =>
    rw [if_pos blank]
    rw [← List.cons_append] at cut ⊢
    refine runOf_congr (fun _ => ⟨false, fun d starts => ?_⟩) alike cut
    by_contra white
    rw [(ends_of_isBlank (Bool.not_eq_false _ ▸ white)).1] at starts
    cases starts
  next unblank =>
  rw [if_neg unblank]
  split at cut
  · next line =>
    rw [if_pos (slash.mpr line)]
    rw [← List.cons_append] at cut ⊢
    refine runOf_congr (fun _ => ⟨true, fun d starts => decide_eq_true ?_⟩) alike cut
    rintro rfl
    cases starts
  next noLine =>
  rw [if_neg (mt slash.mp noLine)]
  split at cut
  · next block =>
    rw [if_pos (star.mpr block)]
    obtain ⟨inner, rfl, again⟩ := scanned_comment cut after'
    exact again
  next noBlock =>
  rw [if_neg (mt star.mp noBlock)]
  split at cut
  · next starts =>
    rw [if_pos starts]
    exact headed_congr (fun _ => ⟨true, fun _ => continuesName_of_startsName⟩) alike cut
  next noName =>
  rw [if_neg noName]
  split at cut
  · next digit =>
    rw [if_pos digit]
    have number : kind = .number := (congrArg (fun cut => cut.1.kind) cut).symm
    exact headed_congr (fun other => absurd number other) alike cut
  next noDigit =>
  rw [if_neg noDigit]
  split at cut
  · next quote =>
    rw [if_pos quote]
    obtain ⟨closed, taken, rfl⟩ := @closed_of_scanned _ _ [c] _ _ _ _ cut
    have again := scanString_of_closed closed after'
    rw [taken] at again
    rw [again]
    rfl
  next noQuote =>
  rw [if_neg noQuote]
  split at cut
  · next tick =>
    rw [if_pos tick]
    obtain ⟨closed, taken, rfl⟩ := @closed_of_scanned _ _ [c] _ _ _ _ cut
    have again := (scanTemplate_of_closed closed after').1
    rw [taken] at again
    rw [again]
    rfl
  next noTick =>
  rw [if_neg noTick]
  simp only [Prod.mk.injEq, Lexeme.mk.injEq, List.cons.injEq, true_and, and_true] at cut
  obtain ⟨⟨rfl, rfl⟩, -⟩ := cut
  rfl

/-! ## Tokens -/

namespace Token

/-- The lexeme of a token with which nothing is wrong. -/
def lexeme (t : Token) : Lexeme :=
  ⟨t.kind, t.text.toList, none⟩

/-- Whether the lexer cuts the token off from a text behind it, and finds nothing wrong with it. -/
def Stands (t : Token) (after : List Char) : Prop :=
  ∃ c cs, t.text.toList = c :: cs ∧ nextLexeme c (cs ++ after) = (t.lexeme, after)

namespace Stands

variable {t : Token} {after : List Char}

theorem text_ne_empty (stands : t.Stands after) : t.text ≠ "" := by
  obtain ⟨c, cs, chars, -⟩ := stands
  rintro empty
  rw [empty] at chars
  cases chars

theorem congr (stands : t.Stands after) {after' : List Char}
    (same : after.head? = after'.head?) : t.Stands after' := by
  obtain ⟨c, cs, chars, cut⟩ := stands
  rw [lexeme, chars] at cut
  refine ⟨c, cs, chars, ?_⟩
  rw [lexeme, chars]
  exact nextLexeme_congr cut (.inl same)

theorem lexemes_append (stands : t.Stands after) :
    lexemes (t.text.toList ++ after) = t.lexeme :: lexemes after := by
  obtain ⟨c, cs, chars, cut⟩ := stands
  rw [chars, List.cons_append, lexemes_cons, cut]

/-- Whitespace is blank. -/
theorem all_isBlank (stands : t.Stands after) (white : t.kind = .whitespace) :
    t.text.toList.all isBlank = true := by
  obtain ⟨c, cs, chars, cut⟩ := stands
  have kind := congrArg (fun cut => cut.1.kind) cut
  have blank : isBlank c = true :=
    (nextLexeme_kind_eq_whitespace_iff c _).mp (kind.trans white)
  have taken := congrArg (fun cut => cut.1.chars) cut
  simp only [nextLexeme, blank, if_true, runOf, lexeme] at taken
  rw [← taken]
  exact List.all_takeWhile

/-- What is no whitespace does not begin with a blank character. -/
theorem isBlank_head (stands : t.Stands after) (other : t.kind ≠ .whitespace) :
    ∃ c, t.text.toList.head? = some c ∧ isBlank c = false := by
  obtain ⟨c, cs, chars, cut⟩ := stands
  refine ⟨c, by rw [chars]; rfl, ?_⟩
  rw [← Bool.not_eq_true, ← nextLexeme_kind_eq_whitespace_iff c (cs ++ after), cut]
  exact other

/-- A comment that something follows on its line stands in front of anything. -/
theorem of_comment (stands : t.Stands after) (comment : t.kind = .comment)
    (follows : ∃ c, after.head? = some c ∧ c ≠ '\n') (after' : List Char) : t.Stands after' := by
  obtain ⟨c, cs, chars, cut⟩ := stands
  refine ⟨c, cs, chars, ?_⟩
  rw [lexeme, chars, comment] at cut ⊢
  unfold nextLexeme at cut ⊢
  split at cut
  · cases congrArg (fun cut => cut.1.kind) cut
  next unblank =>
  rw [if_neg unblank]
  split at cut
  · obtain ⟨d, head, unbroken⟩ := follows
    have left := congrArg Prod.snd cut
    have stops := List.head?_dropWhile_not (fun c => decide (c ≠ '\n')) (c :: (cs ++ after))
    rw [show (c :: (cs ++ after)).dropWhile (fun c => decide (c ≠ '\n')) = after from left,
      head] at stops
    simp [unbroken] at stops
  next noLine =>
  split at cut
  · next block =>
    obtain ⟨inner, rfl, again⟩ := scanned_comment cut after'
    have noLine' : ¬ (c = '/' ∧ ('*' :: inner ++ after').head? = some '/') := by simp
    rw [if_neg noLine', if_pos ⟨block.1, rfl⟩]
    exact again
  · repeat' split at cut
    all_goals cases congrArg (fun cut => cut.1.kind) cut

end Stands

/-- A semicolon and a closing brace stand in front of anything. -/
theorem stands_of_endsStatement {t : Token} (ends : endsStatement (some t) false = true)
    (after : List Char) : t.Stands after := by
  obtain ⟨kind, text, offset⟩ := t
  simp only [endsStatement, isPunct, Bool.false_and, Bool.or_false, Bool.or_eq_true,
    Bool.and_eq_true, beq_iff_eq] at ends
  have plain (c : Char) (sign : c = ';' ∨ c = '\x7d') :
      nextLexeme c after = (⟨.punctuation, [c], none⟩, after) := by
    have spec : isBlank c = false ∧ startsName c = false ∧ c.isDigit = false ∧ c ≠ '/' ∧
        c ≠ '"' ∧ c ≠ '\'' ∧ c ≠ '\x60' := by
      rcases sign with rfl | rfl <;> decide +kernel
    obtain ⟨unblank, noName, noDigit, noSlash, noQuote, noQuote', noTick⟩ := spec
    simp [nextLexeme, unblank, noName, noDigit, noSlash, noQuote, noQuote', noTick]
  rcases ends with ⟨rfl, rfl⟩ | ⟨rfl, rfl⟩
  · exact ⟨';', [], by simp, by simpa [lexeme] using plain ';' (.inl rfl)⟩
  · exact ⟨'\x7d', [], by simp, by simpa [lexeme] using plain '\x7d' (.inr rfl)⟩

end Token

/-- Whether every token stands in front of those behind it. -/
def AllStand : List Token → Prop
  | [] => True
  | t :: ts => t.Stands (printChars ts) ∧ AllStand ts

theorem AllStand.of_append {front back : List Token} (stand : AllStand (front ++ back)) :
    AllStand back := by
  induction front with
  | nil => exact stand
  | cons t front ih => exact ih stand.2

/-- The tokens of a text without faults stand. -/
theorem allStand_tokensFrom {cs : List Char} {offset : Nat}
    (faultless : lexicalFaults offset (lexemes cs) = []) :
    AllStand (tokensFrom offset (lexemes cs)) := by
  fun_induction lexemes cs generalizing offset with
  | case1 => trivial
  | case2 c cs ih =>
    have whole : (nextLexeme c cs).1.fault = none ∧
        lexicalFaults (offset + byteLength (nextLexeme c cs).1.chars)
          (lexemes (nextLexeme c cs).2) = [] := by
      rw [lexicalFaults] at faultless
      split at faultless
      · cases faultless
      · next none => exact ⟨none, faultless⟩
    obtain ⟨d, front, chars⟩ := List.exists_cons_of_ne_nil (nextLexeme_chars_ne_nil c cs)
    have parts := nextLexeme_chars_append c cs
    rw [chars, List.cons_append] at parts
    obtain ⟨rfl, rest⟩ := List.cons.inj parts
    refine ⟨⟨d, front, by rw [String.toList_ofList, chars], ?_⟩, ih whole.2⟩
    rw [Tree.printChars_tokensFrom, chars_lexemes, rest]
    refine Prod.ext ?_ rfl
    rw [Token.lexeme, String.toList_ofList, ← whole.1]

/-! ## Pieces that tell something -/

/-- The lexemes that mean something, or with which something is wrong. -/
def telling (pieces : List Lexeme) : List Lexeme :=
  pieces.filter fun piece => !piece.kind.isTrivia || piece.fault.isSome

theorem telling_cons_of_isTrivia {piece : Lexeme} (trivial : piece.kind.isTrivia = true)
    (whole : piece.fault = none) (pieces : List Lexeme) :
    telling (piece :: pieces) = telling pieces :=
  List.filter_cons_of_neg (by simp [trivial, whole])

private theorem telling_cons {piece : Lexeme} (means : piece.kind.isTrivia = false)
    (pieces : List Lexeme) : telling (piece :: pieces) = piece :: telling pieces :=
  List.filter_cons_of_pos (by simp [means])

/-- If only tokens tell something, nothing is wrong, and they are what the text means. -/
theorem bare_of_telling {pieces : List Lexeme} {ts : List Token}
    (told : telling pieces = (significant ts).map Token.lexeme) (offset : Nat) :
    lexicalFaults offset pieces = [] ∧ bare (tokensFrom offset pieces) = bare ts := by
  rw [show bare ts = (significant ts).map fun t => { t with offset := none } from rfl]
  have meaning : ∀ t ∈ significant ts, t.isTrivia = false := by simp [significant]
  generalize significant ts = means at told meaning
  induction pieces generalizing means offset with
  | nil =>
    rw [List.map_eq_nil_iff.mp told.symm]
    exact ⟨rfl, rfl⟩
  | cons piece pieces ih =>
    by_cases trivial : piece.kind.isTrivia = true
    · have whole : piece.fault = none := by
        cases fault : piece.fault with
        | none => rfl
        | some _ =>
          have member : piece ∈ telling (piece :: pieces) :=
            List.mem_filter.mpr ⟨List.mem_cons_self, by simp [fault]⟩
          rw [told] at member
          obtain ⟨t, _, rfl⟩ := List.mem_map.mp member
          cases fault
      rw [telling_cons_of_isTrivia trivial whole] at told
      obtain ⟨faultless, same⟩ := ih (offset + byteLength piece.chars) means told meaning
      have space : (⟨piece.kind, String.ofList piece.chars, some offset⟩ : Token).isTrivia = true :=
        trivial
      refine ⟨by rw [lexicalFaults, whole]; exact faultless, ?_⟩
      rw [tokensFrom, bare_cons_of_isTrivia space]
      exact same
    · have significant := Bool.eq_false_iff.mpr trivial
      rw [telling_cons significant] at told
      obtain ⟨t, means, rfl, rfl, later⟩ := List.map_eq_cons_iff.mp told.symm
      obtain ⟨faultless, same⟩ := ih (offset + byteLength t.lexeme.chars) means later.symm
        (List.forall_mem_cons.mp meaning).2
      have word : (⟨t.kind, t.text, some offset⟩ : Token).isTrivia = false := significant
      refine ⟨faultless, ?_⟩
      rw [tokensFrom, Token.lexeme, String.ofList_toList, bare_cons word]
      exact congrArg (⟨t.kind, t.text, none⟩ :: ·) same

/-- Blanks in front of a text tell nothing. -/
theorem telling_append_of_blank {blanks : List Char} (blank : blanks.all isBlank = true)
    (cs : List Char) : telling (lexemes (blanks ++ cs)) = telling (lexemes cs) := by
  have dropped (cs : List Char) :
      telling (lexemes (cs.dropWhile isBlank)) = telling (lexemes cs) := by
    cases cs with
    | nil => rfl
    | cons c cs =>
      by_cases first : isBlank c = true
      · have cut : nextLexeme c cs = runOf .whitespace isBlank (c :: cs) := by
          rw [nextLexeme, if_pos first]
        rw [lexemes_cons, cut]
        exact (telling_cons_of_isTrivia rfl rfl _).symm
      · rw [List.dropWhile_cons_of_neg first]
  rw [← dropped, List.dropWhile_append_of_pos (List.all_eq_true.mp blank), dropped]

theorem telling_append_of_stands {t : Token} {after : List Char} (stands : t.Stands after) :
    telling (lexemes (t.text.toList ++ after)) =
      if t.isTrivia then telling (lexemes after) else t.lexeme :: telling (lexemes after) := by
  rw [stands.lexemes_append]
  have kind : t.lexeme.kind.isTrivia = t.isTrivia := rfl
  split
  · next trivial => exact telling_cons_of_isTrivia (kind.trans trivial) rfl _
  · next means => exact telling_cons (kind.trans (Bool.eq_false_iff.mpr means)) _

/-! ## Tokens that the eraser keeps -/

theorem printChars_cons (t : Token) (ts : List Token) :
    printChars (t :: ts) = t.text.toList ++ printChars ts := rfl

/-- Whether whitespace is blank. -/
def Blank (ts : List Token) : Prop :=
  ∀ t ∈ ts, t.kind = .whitespace → t.text.toList.all isBlank = true

theorem AllStand.text_ne_empty {ts : List Token} (stand : AllStand ts) :
    ∀ t ∈ ts, t.text ≠ "" := by
  induction ts with
  | nil => simp
  | cons t ts ih => exact List.forall_mem_cons.mpr ⟨stand.1.text_ne_empty, ih stand.2⟩

/-- Trimmed whitespace was blank: what is left of it is, and the text tells the same. -/
theorem Trims.blank {gap left : List Token} (trims : Trims gap left) (blank : Blank gap) :
    Blank left ∧ telling (lexemes (printChars left)) = telling (lexemes (printChars gap)) := by
  induction trims with
  | refl => exact ⟨blank, rfl⟩
  | @drop t ts left front white split rest ih =>
    obtain ⟨here, later⟩ := List.forall_mem_cons.mp blank
    obtain ⟨inner, told⟩ := ih later
    exact ⟨inner, by rw [told, printChars_cons, telling_append_of_blank (here white)]⟩
  | @cut t ts front cs white split some =>
    obtain ⟨here, later⟩ := List.forall_mem_cons.mp blank
    have all := here white
    have inner : cs.all isBlank = true := by
      rw [split, List.all_append, List.all_cons, Bool.and_eq_true, Bool.and_eq_true] at all
      exact all.2.2
    refine ⟨List.forall_mem_cons.mpr
      ⟨fun _ => by rw [String.toList_ofList]; exact inner, later⟩, ?_⟩
    rw [printChars_cons, printChars_cons, telling_append_of_blank all,
      telling_append_of_blank (by rw [String.toList_ofList]; exact inner)]

/-- A token stands in front of what remains as well, if it stands in front of anything wherever a
statement is erased behind it. -/
private theorem stands_remainsOf {t : Token} {portions : List Portion}
    (stands : t.Stands (printChars (wholeOf portions))) (stand : AllStand (wholeOf portions))
    (behind : ∀ run rest, portions = .erased run :: rest → ∀ after, t.Stands after) :
    t.Stands (printChars (remainsOf portions)) := by
  cases portions with
  | nil => exact stands
  | cons portion portions =>
    cases portion with
    | kept u =>
      refine stands.congr ?_
      have some : u.text.toList ≠ [] := fun empty =>
        stand.1.text_ne_empty (String.toList_eq_nil_iff.mp empty)
      rw [remainsOf, wholeOf_kept, printChars_cons, printChars_cons,
        List.head?_append_of_ne_nil _ some, List.head?_append_of_ne_nil _ some]
    | erased run => exact behind run portions rfl _

/-- Of a script whose tokens stand, exactly the significant tokens that remain tell something. -/
theorem telling_remainsOf {depth : Int} {previous : Option Token} {broke : Bool}
    {portions : List Portion} (sweep : Sweep depth previous broke portions)
    (stand : AllStand (wholeOf portions)) :
    telling (lexemes (printChars (remainsOf portions))) =
        (significant (remainsOf portions)).map Token.lexeme ∧
      Blank (remainsOf portions) := by
  induction sweep with
  | done =>
    exact ⟨by simp [remainsOf, printChars, lexemes, telling, significant],
      by simp [Blank, remainsOf]⟩
  | @skip depth previous broke t portions trivial rest ih =>
    obtain ⟨stands, stand⟩ :
      t.Stands (printChars (wholeOf portions)) ∧ AllStand (wholeOf portions) := stand
    obtain ⟨told, blank⟩ := ih stand
    refine ⟨?_, List.forall_mem_cons.mpr ⟨stands.all_isBlank, blank⟩⟩
    rw [remainsOf, printChars_cons, significant_cons_of_isTrivia trivial, ← told]
    by_cases white : t.kind = .whitespace
    · exact telling_append_of_blank (stands.all_isBlank white) _
    · have comment : t.kind = .comment := by
        rw [Token.isTrivia] at trivial
        cases kind : t.kind <;> simp_all [TokenKind.isTrivia]
      have here : t.Stands (printChars (remainsOf portions)) := by
        refine stands_remainsOf stands stand ?_
        rintro run others rfl after
        obtain ⟨-, -, u, us, rfl, means, -⟩ := rest.of_erased
        have other : u.kind ≠ .whitespace := fun white => by
          rw [Token.isTrivia, white] at means
          cases means
        obtain ⟨c, head, unblank⟩ := stand.1.isBlank_head other
        refine stands.of_comment comment ⟨c, ?_, ?_⟩ after
        · change (u.text.toList ++ printChars (us ++ wholeOf others)).head? = some c
          rw [List.head?_append, head]
          rfl
        · rintro rfl
          exact absurd unblank (by decide)
      rw [telling_append_of_stands here, if_pos trivial]
  | @keep depth previous broke t portions means stays rest ih =>
    obtain ⟨stands, stand⟩ :
      t.Stands (printChars (wholeOf portions)) ∧ AllStand (wholeOf portions) := stand
    obtain ⟨told, blank⟩ := ih stand
    refine ⟨?_, List.forall_mem_cons.mpr ⟨stands.all_isBlank, blank⟩⟩
    have here : t.Stands (printChars (remainsOf portions)) := by
      refine stands_remainsOf stands stand ?_
      rintro run others rfl
      exact Token.stands_of_endsStatement rest.of_erased.2.1
    rw [remainsOf, printChars_cons, significant_cons means, telling_append_of_stands here, means,
      List.map_cons, told]
    rfl
  | @take previous broke t ts portions means ends found rest ih =>
    have stand := stand.of_append
    obtain ⟨told, blank⟩ := ih stand
    have trims := trims_dropLineEnd (remainsOf_text_ne_empty stand.text_ne_empty)
    obtain ⟨blank', told'⟩ := trims.blank blank
    exact ⟨by rw [remainsOf, told', told, trims.significant], blank'⟩

end Recast.Script
