import Mathlib.Data.List.Chain
import Recast.Script.Tree

/-! # Tokens partition the text

Lexemes lie one behind the other and leave nothing out, so their offsets are the byte lengths of
what stands before them. The main statement is `parse_partitions`: the tokens of a script cut its
text up at boundaries of characters, and everything that is said about it has a position there.
-/

namespace Recast.Text

/-- A piece of a text that begins at a byte offset, with a boundary of characters at both ends. -/
def IsSlice (text : String) (offset : Nat) (piece : String) : Prop :=
  ∃ before behind, text = before ++ piece ++ behind ∧ before.utf8ByteSize = offset

@[simp] theorem byteLength_toList (s : String) : byteLength s.toList = s.utf8ByteSize := by
  have listed (cs : List Char) : byteLength cs = (String.ofList cs).utf8ByteSize := by
    induction cs with
    | nil => rfl
    | cons c cs ih =>
      rw [byteLength_cons, ih, String.ofList_cons, String.utf8ByteSize_append,
        String.utf8ByteSize_singleton]
  rw [listed, String.ofList_toList]

/-- The characters before the byte length of a beginning of the text are that beginning. -/
theorem takeBytes?_byteLength (before behind : List Char) :
    takeBytes? (byteLength before) (before ++ behind) = some before := by
  induction before with
  | nil => simp [takeBytes?]
  | cons c before ih =>
    obtain ⟨n, size⟩ := Nat.exists_eq_succ_of_ne_zero (Nat.ne_of_gt c.utf8Size_pos)
    have whole : byteLength (c :: before) = (n + byteLength before) + 1 := by
      rw [byteLength_cons, size]
      omega
    have fits : c.utf8Size ≤ (n + byteLength before) + 1 := by omega
    have left : (n + byteLength before) + 1 - c.utf8Size = byteLength before := by omega
    rw [whole, List.cons_append, takeBytes?, if_pos fits, left, ih]
    rfl

end Recast.Text

namespace Recast.Script

open Text

/-- A lexeme is whitespace when it begins with a blank character. -/
theorem nextLexeme_kind_eq_whitespace_iff (c : Char) (cs : List Char) :
    (nextLexeme c cs).1.kind = .whitespace ↔ isBlank c = true := by
  unfold nextLexeme runOf scanned
  split
  · next blank => simp [blank]
  · next unblank =>
    repeat' split
    all_goals simp [unblank]

/-- What is left behind whitespace does not begin with a blank character. -/
theorem isBlank_head_of_whitespace {c d : Char} {cs ds : List Char}
    (white : (nextLexeme c cs).1.kind = .whitespace) (left : (nextLexeme c cs).2 = d :: ds) :
    isBlank d = false := by
  have blank := (nextLexeme_kind_eq_whitespace_iff c cs).mp white
  have behind : (c :: cs).dropWhile isBlank = d :: ds := by
    rw [← left]
    simp [nextLexeme, runOf, blank]
  have stops := List.head_dropWhile_not isBlank (l := c :: cs) (by simp [behind])
  simpa [behind] using stops

/-- No whitespace lies directly behind whitespace. -/
theorem isChain_lexemes (cs : List Char) :
    (lexemes cs).IsChain fun first second =>
      ¬(first.kind = .whitespace ∧ second.kind = .whitespace) := by
  fun_induction lexemes cs with
  | case1 => exact .nil
  | case2 c cs ih =>
    cases left : (nextLexeme c cs).2 with
    | nil =>
      rw [lexemes]
      exact .singleton _
    | cons d ds =>
      rw [left, lexemes] at ih
      rw [lexemes]
      refine .cons_cons (fun ⟨white, white'⟩ => ?_) ih
      have blank := (nextLexeme_kind_eq_whitespace_iff d ds).mp white'
      rw [isBlank_head_of_whitespace white left] at blank
      contradiction

theorem chars_ne_nil_of_mem_lexemes {cs : List Char} {lexeme : Lexeme}
    (member : lexeme ∈ lexemes cs) : lexeme.chars ≠ [] := by
  fun_induction lexemes cs with
  | case1 => simp at member
  | case2 c cs ih =>
    rcases List.mem_cons.mp member with rfl | later
    · exact nextLexeme_chars_ne_nil c cs
    · exact ih later

section Tokens

variable {text : String} {before : List Char} {pieces : List Lexeme}

/-- Tokens of the lexemes behind a beginning of a text are slices of the text. -/
theorem isSlice_of_mem_tokensFrom (whole : text.toList = before ++ pieces.flatMap (·.chars))
    {t : Token} (member : t ∈ tokensFrom (byteLength before) pieces) :
    ∃ offset, t.offset = some offset ∧ IsSlice text offset t.text := by
  induction pieces generalizing before with
  | nil => simp [tokensFrom] at member
  | cons piece pieces ih =>
    rw [List.flatMap_cons] at whole
    rcases List.mem_cons.mp member with rfl | later
    · refine ⟨byteLength before, rfl, String.ofList before,
        String.ofList (pieces.flatMap (·.chars)), ?_, ?_⟩
      · apply String.toList_injective
        simpa using whole
      · rw [← byteLength_toList, String.toList_ofList]
    · rw [← byteLength_append] at later
      exact ih (by rw [whole, List.append_assoc]) later

/-- The text of a token is that of a lexeme. -/
theorem exists_piece_of_mem_tokensFrom {offset : Nat} {t : Token}
    (member : t ∈ tokensFrom offset pieces) :
    ∃ piece ∈ pieces, t.text = String.ofList piece.chars := by
  induction pieces generalizing offset with
  | nil => simp [tokensFrom] at member
  | cons piece pieces ih =>
    rcases List.mem_cons.mp member with rfl | later
    · exact ⟨piece, List.mem_cons_self .., rfl⟩
    · obtain ⟨other, listed, same⟩ := ih later
      exact ⟨other, List.mem_cons_of_mem _ listed, same⟩

/-- The first token of some lexemes begins at their offset. -/
theorem offset_of_head?_tokensFrom {offset : Nat} {t : Token}
    (first : (tokensFrom offset pieces).head? = some t) : t.offset = some offset := by
  cases pieces with
  | nil => simp [tokensFrom] at first
  | cons piece pieces =>
    rw [tokensFrom, List.head?_cons, Option.some.injEq] at first
    rw [← first]

/-- Each token begins where the one before it ends. -/
theorem isChain_tokensFrom (offset : Nat) (pieces : List Lexeme) :
    (tokensFrom offset pieces).IsChain fun t u =>
      u.offset = t.offset.map (· + t.text.utf8ByteSize) := by
  induction pieces generalizing offset with
  | nil => exact .nil
  | cons piece pieces ih =>
    have rest := ih (offset + byteLength piece.chars)
    rw [tokensFrom]
    refine List.isChain_cons.mpr ⟨fun u next => ?_, rest⟩
    rw [offset_of_head?_tokensFrom (Option.mem_def.mp next)]
    simp [← byteLength_toList]

/-- The last token ends where all lexemes end. -/
theorem end_of_getLast?_tokensFrom {offset : Nat} {t : Token}
    (last : (tokensFrom offset pieces).getLast? = some t) :
    t.offset.map (· + t.text.utf8ByteSize) =
      some (offset + byteLength (pieces.flatMap (·.chars))) := by
  induction pieces generalizing offset with
  | nil => simp [tokensFrom] at last
  | cons piece pieces ih =>
    rw [tokensFrom, List.getLast?_cons] at last
    cases behind : (tokensFrom (offset + byteLength piece.chars) pieces).getLast? with
    | none =>
      have none : pieces = [] := by
        cases pieces with
        | nil => rfl
        | cons _ _ => simp [tokensFrom] at behind
      rw [behind, Option.getD_none, Option.some.injEq] at last
      rw [← last, none]
      simp [← byteLength_toList]
    | some u =>
      rw [behind, Option.getD_some] at last
      rw [ih (last ▸ behind), List.flatMap_cons, byteLength_append, Nat.add_assoc]

/-- The kinds of the tokens are those of their lexemes. -/
theorem isChain_kind_tokensFrom {R : TokenKind → TokenKind → Prop} (offset : Nat)
    (chain : pieces.IsChain fun first second => R first.kind second.kind) :
    (tokensFrom offset pieces).IsChain fun t u => R t.kind u.kind := by
  have kinds : (tokensFrom offset pieces).map (·.kind) = pieces.map (·.kind) := by
    clear chain
    induction pieces generalizing offset with
    | nil => rfl
    | cons piece pieces ih => rw [tokensFrom, List.map_cons, ih, List.map_cons]
  have mapped := (List.isChain_map (R := R) (fun piece : Lexeme => piece.kind)).mpr chain
  rw [← kinds] at mapped
  exact (List.isChain_map fun t : Token => t.kind).mp mapped

/-- Faults of lexemes are told of at the beginning of a lexeme. -/
theorem isPrefix_of_mem_lexicalFaults {cs : List Char}
    (whole : cs = before ++ pieces.flatMap (·.chars)) {offset : Nat} {fault : LexicalFault}
    (member : (offset, fault) ∈ lexicalFaults (byteLength before) pieces) :
    ∃ front, front <+: cs ∧ byteLength front = offset := by
  induction pieces generalizing before with
  | nil => simp [lexicalFaults] at member
  | cons piece pieces ih =>
    rw [List.flatMap_cons] at whole
    have later (known : (offset, fault) ∈
        lexicalFaults (byteLength before + byteLength piece.chars) pieces) :
        ∃ front, front <+: cs ∧ byteLength front = offset := by
      rw [← byteLength_append] at known
      exact ih (by rw [whole, List.append_assoc]) known
    rw [lexicalFaults] at member
    split at member
    · rcases List.mem_cons.mp member with here | known
      · exact ⟨before, ⟨_, whole.symm⟩, (Prod.mk.inj here).1.symm⟩
      · exact later known
    · exact later member

end Tokens

/-- Faults of brackets are told of at the end of the text, or at a token. -/
theorem offset_of_mem_bracketFaults {finish offset : Nat} {stack : List Bracket}
    {tokens : List Token} {fault : BracketFault}
    (member : (offset, fault) ∈ bracketFaults finish stack tokens) :
    offset = finish ∨ ∃ t ∈ tokens, offset = t.offset.getD 0 := by
  have behind {t : Token} {ts : List Token}
      (known : offset = finish ∨ ∃ u ∈ ts, offset = u.offset.getD 0) :
      offset = finish ∨ ∃ u ∈ t :: ts, offset = u.offset.getD 0 :=
    known.imp_right fun ⟨u, listed, same⟩ => ⟨u, List.mem_cons_of_mem _ listed, same⟩
  have first {t : Token} {ts : List Token} (same : offset = t.offset.getD 0) :
      offset = finish ∨ ∃ u ∈ t :: ts, offset = u.offset.getD 0 :=
    .inr ⟨t, List.mem_cons_self .., same⟩
  fun_induction bracketFaults finish stack tokens with
  | case1 => simp at member
  | case2 bracket stack => exact .inl (Prod.mk.inj (List.mem_singleton.mp member)).1
  | case3 stack t ts _ ih => exact behind (ih member)
  | case4 stack t ts bracket _ ih => exact behind (ih member)
  | case5 t ts bracket _ ih =>
    exact (List.mem_cons.mp member).elim (fun same => first (Prod.mk.inj same).1)
      fun later => behind (ih later)
  | case6 t ts bracket stack _ ih => exact behind (ih member)
  | case7 t ts bracket opened stack _ _ ih =>
    exact (List.mem_cons.mp member).elim (fun same => first (Prod.mk.inj same).1)
      fun later => behind (ih later)

/-- A beginning of a text ends at a boundary of characters, and a position is known there. -/
theorem exists_position_of_isPrefix {text : String} {front : List Char}
    (isPrefix : front <+: text.toList) :
    String.Pos.Raw.IsValid text ⟨byteLength front⟩ ∧
      Position.ofOffset? text.toList (byteLength front) = some (Position.after front) := by
  obtain ⟨behind, whole⟩ := isPrefix
  constructor
  · refine String.Pos.Raw.isValid_iff_exists_append.mpr
      ⟨String.ofList front, String.ofList behind, ?_, ?_⟩
    · rw [← String.ofList_append, whole, String.ofList_toList]
    · apply String.Pos.Raw.ext
      rw [String.byteIdx_rawEndPos, ← byteLength_toList, String.toList_ofList]
  · rw [Position.ofOffset?, ← whole, takeBytes?_byteLength]
    rfl

/-- Every fault of a script is told of at the end of a beginning of its text. -/
theorem exists_isPrefix_of_mem_faults {file : Path} {text : String} {fault : Diagnostic}
    (member : fault ∈ (Tree.parse file text).faults) :
    ∃ front, front <+: text.toList ∧
      fault.position = Position.ofOffset? text.toList (byteLength front) := by
  have whole : text.toList = [] ++ (lexemes text.toList).flatMap (·.chars) := by
    rw [chars_lexemes, List.nil_append]
  rcases List.mem_append.mp member with lexical | bracket
  · obtain ⟨⟨offset, kind⟩, listed, rfl⟩ := List.mem_map.mp lexical
    obtain ⟨front, isPrefix, rfl⟩ := isPrefix_of_mem_lexicalFaults whole listed
    exact ⟨front, isPrefix, rfl⟩
  · obtain ⟨⟨offset, kind⟩, listed, rfl⟩ := List.mem_map.mp bracket
    rcases offset_of_mem_bracketFaults listed with rfl | ⟨t, known, rfl⟩
    · exact ⟨text.toList, List.prefix_refl _, rfl⟩
    · obtain ⟨offset, placed, before, behind, cut, rfl⟩ := isSlice_of_mem_tokensFrom whole known
      refine ⟨before.toList, ⟨t.text.toList ++ behind.toList, ?_⟩, ?_⟩
      · rw [cut, String.toList_append, String.toList_append, List.append_assoc]
      · rw [placed, byteLength_toList]
        rfl

/-- Any text is cut into nonempty tokens, one behind the other from its start to its end, of which
no two neighbours are whitespace. Their texts are the slices at their offsets and print as the text
again, and every fault has a position at a boundary of characters within the text. -/
theorem parse_partitions (file : Path) (text : String) :
    let tree := Tree.parse file text
    (∀ t ∈ tree.tokens, t.text ≠ "" ∧ ∃ offset, t.offset = some offset ∧
      IsSlice text offset t.text) ∧
      (∀ t, tree.tokens.head? = some t → t.offset = some 0) ∧
      (tree.tokens.IsChain fun t u => u.offset = t.offset.map (· + t.text.utf8ByteSize)) ∧
      (∀ t, tree.tokens.getLast? = some t →
        t.offset.map (· + t.text.utf8ByteSize) = some text.utf8ByteSize) ∧
      (tree.tokens.IsChain fun t u => ¬(t.kind = .whitespace ∧ u.kind = .whitespace)) ∧
      (∀ fault ∈ tree.faults, ∃ offset position, String.Pos.Raw.IsValid text ⟨offset⟩ ∧
        Position.ofOffset? text.toList offset = some position ∧ fault.position = some position) ∧
      tree.print = text := by
  have whole : text.toList = [] ++ (lexemes text.toList).flatMap (·.chars) := by
    rw [chars_lexemes, List.nil_append]
  refine ⟨fun t member => ⟨fun empty => ?_, isSlice_of_mem_tokensFrom whole member⟩,
    fun t first => offset_of_head?_tokensFrom first, isChain_tokensFrom _ _, fun t last => ?_,
    isChain_kind_tokensFrom (R := fun kind next => ¬(kind = .whitespace ∧ next = .whitespace)) _
      (isChain_lexemes _), fun fault member => ?_,
    Tree.print_parse file text⟩
  · obtain ⟨piece, listed, same⟩ := exists_piece_of_mem_tokensFrom member
    rw [same, String.ofList_eq_empty_iff] at empty
    exact chars_ne_nil_of_mem_lexemes listed empty
  · rw [end_of_getLast?_tokensFrom last, chars_lexemes, byteLength_toList, Nat.zero_add]
  · obtain ⟨front, isPrefix, placed⟩ := exists_isPrefix_of_mem_faults member
    obtain ⟨valid, known⟩ := exists_position_of_isPrefix isPrefix
    exact ⟨byteLength front, Position.after front, valid, known, placed.trans known⟩

end Recast.Script
