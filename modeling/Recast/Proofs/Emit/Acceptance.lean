import Recast.Proofs.Emit.Agreement
import Recast.Proofs.Script.Severing
import Recast.Proofs.Script.Templates

/-! # Scripts that are accepted

A script is well-formed if its strings, templates and block comments have their closing marks, and
its brackets are a word of the Dyck language. The parser finds nothing wrong with exactly the
well-formed scripts, and exactly these are rendered when they are emitted without transformers; of
the others nothing is (`emitted_iff_wellFormed`).
-/

namespace Recast.Script

open Recast.Text

/-! ## Brackets -/

/-- Words of brackets of which each has its counterpart. -/
inductive Dyck : List BracketRole → Prop
  | nil : Dyck []
  | append {front back : List BracketRole} (first : Dyck front) (second : Dyck back) :
      Dyck (front ++ back)
  | pair (bracket : Bracket) {inner : List BracketRole} (inside : Dyck inner) :
      Dyck (.opens bracket :: (inner ++ [.closes bracket]))

/-- The brackets among tokens. -/
def bracketWord (ts : List Token) : List BracketRole :=
  (ts.map Token.role).filter (· ≠ .none)

section Word

variable {t : Token} {ts : List Token}

theorem bracketWord_cons_of_none (none : t.role = .none) (ts : List Token) :
    bracketWord (t :: ts) = bracketWord ts := by
  simp [bracketWord, none]

theorem bracketWord_cons {role : BracketRole} (is : t.role = role) (some : role ≠ .none)
    (ts : List Token) : bracketWord (t :: ts) = role :: bracketWord ts := by
  simp [bracketWord, is, some]

theorem bracketWord_append (front back : List Token) :
    bracketWord (front ++ back) = bracketWord front ++ bracketWord back := by
  simp [bracketWord]

/-- Tokens whose brackets are two words one behind the other. -/
theorem exists_of_bracketWord_eq_append {front back : List BracketRole}
    (word : bracketWord ts = front ++ back) :
    ∃ before behind, ts = before ++ behind ∧ bracketWord before = front ∧
      bracketWord behind = back := by
  obtain ⟨roles, roles', split, rfl, rfl⟩ := List.filter_eq_append_iff.mp word
  obtain ⟨before, behind, rfl, rfl, rfl⟩ := List.map_eq_append_iff.mp split
  exact ⟨before, behind, rfl, rfl, rfl⟩

theorem nested_of_bracketWord_eq_nil (word : bracketWord ts = []) : Nested ts := by
  induction ts with
  | nil => exact .nil
  | cons t ts ih =>
    by_cases none : t.role = .none
    · exact .other none (ih (by rwa [bracketWord_cons_of_none none] at word))
    · rw [bracketWord_cons rfl none] at word
      cases word

/-- The token of the first bracket. -/
theorem exists_of_bracketWord_eq_cons {role : BracketRole} {word : List BracketRole}
    (whole : bracketWord ts = role :: word) :
    ∃ before t behind, ts = before ++ t :: behind ∧ Nested before ∧ t.role = role ∧
      bracketWord behind = word := by
  induction ts with
  | nil => cases whole
  | cons t ts ih =>
    by_cases none : t.role = .none
    · rw [bracketWord_cons_of_none none] at whole
      obtain ⟨before, u, behind, rfl, nested, same, rest⟩ := ih whole
      exact ⟨t :: before, u, behind, rfl, .other none nested, same, rest⟩
    · rw [bracketWord_cons rfl none] at whole
      obtain ⟨same, rest⟩ := List.cons.inj whole
      exact ⟨[], t, ts, rfl, .nil, same, rest⟩

end Word

/-- Tokens are nested if their brackets are a word of the Dyck language. -/
theorem nested_iff_dyck {ts : List Token} : Nested ts ↔ Dyck (bracketWord ts) := by
  constructor
  · intro nested
    induction nested with
    | nil => exact .nil
    | other none _ ih => rwa [bracketWord_cons_of_none none]
    | @pair opening closing inner behind bracket opens _ closes _ inside rest =>
      have word : bracketWord (opening :: (inner ++ closing :: behind)) =
          (.opens bracket :: (bracketWord inner ++ [.closes bracket])) ++ bracketWord behind := by
        rw [bracketWord_cons opens (by simp), bracketWord_append, bracketWord_cons closes (by simp)]
        simp
      rw [word]
      exact .append (.pair bracket inside) rest
  · intro dyck
    generalize same : bracketWord ts = word at dyck
    induction dyck generalizing ts with
    | nil => exact nested_of_bracketWord_eq_nil same
    | append _ _ first second =>
      obtain ⟨before, behind, rfl, word, word'⟩ := exists_of_bracketWord_eq_append same
      exact (first word).append (second word')
    | pair bracket _ inside =>
      obtain ⟨before, opening, rest, rfl, nested, opens, rest'⟩ :=
        exists_of_bracketWord_eq_cons same
      obtain ⟨inner, last, rfl, word, word'⟩ := exists_of_bracketWord_eq_append rest'
      obtain ⟨within, closing, behind, rfl, nested', closes, none⟩ :=
        exists_of_bracketWord_eq_cons word'
      have pair : Nested (opening :: (inner ++ within ++ closing :: behind)) :=
        .pair opens ((inside word).append nested') closes (nested_of_bracketWord_eq_nil none)
      rw [List.append_assoc] at pair
      exact nested.append pair

/-! ## Closing marks -/

/-- Whether the token has its closing mark, if it needs one. -/
def Token.Terminated (t : Token) : Prop :=
  match t.kind with
  | .string => ∃ string : Quoted, t.text.toList = (Word.quoted string).chars
  | .template => ∃ text, Flat .text text ∧ t.text.toList = '\x60' :: (text ++ ['\x60'])
  | .comment => ['/', '*'] <+: t.text.toList →
      ∃ inner, ¬ ['*', '/'] <:+: inner ∧ t.text.toList = '/' :: '*' :: (inner ++ ['*', '/'])
  | _ => True

theorem closed_scanString_iff {quote : Char} (isQuote : quote = '"' ∨ quote = '\'')
    (cs : List Char) :
    (scanString quote cs).closed = true ↔
      ∃ body, staysQuoted quote body = true ∧ (scanString quote cs).taken = body ++ [quote] := by
  constructor
  · intro closed
    fun_induction scanString quote cs with
    | case1 => cases closed
    | case2 => cases closed
    | case3 => cases closed
    | case4 c cs ih =>
      obtain ⟨body, stays, taken⟩ := ih closed
      exact ⟨'\\' :: c :: body, stays, by simp [Scan.push, taken]⟩
    | case5 => exact ⟨[], rfl, rfl⟩
    | case6 c cs unbroken unended unescaped other ih =>
      obtain ⟨body, stays, taken⟩ := ih closed
      have plain := ne_backslash unended unescaped
      refine ⟨c :: body, ?_, by simp [Scan.push, taken]⟩
      rw [staysQuoted.eq_3 _ _ _ fun _ _ same => absurd same plain, stays]
      simp [other, plain, show c ≠ '\n' from unbroken]
  · rintro ⟨body, stays, taken⟩
    have whole := scanString_taken_rest quote cs
    rw [taken, List.append_assoc, List.singleton_append] at whole
    rw [← whole, scanString_of_staysQuoted isQuote stays]

theorem closed_scanComment_iff (cs : List Char) :
    (scanComment cs).closed = true ↔
      ∃ inner, ¬ ['*', '/'] <:+: inner ∧ (scanComment cs).taken = inner ++ ['*', '/'] := by
  constructor
  · intro closed
    fun_induction scanComment cs with
    | case1 => cases closed
    | case2 cs => exact ⟨[], by simp, rfl⟩
    | case3 c cs opens ih =>
      obtain ⟨inner, unclosed, taken⟩ := ih closed
      refine ⟨c :: inner, fun inside => ?_, by simp [Scan.push, taken]⟩
      rcases List.infix_cons_iff.mp inside with first | later
      · obtain ⟨rfl, next⟩ := List.cons_prefix_cons.mp first
        obtain ⟨rest, rfl⟩ := next
        have whole := scanComment_taken_rest cs
        rw [taken] at whole
        exact opens _ rfl whole.symm
      · exact unclosed later
  · rintro ⟨inner, unclosed, taken⟩
    have whole := scanComment_taken_rest cs
    rw [taken, List.append_assoc] at whole
    rw [← whole]
    exact congrArg Scan.closed (scanComment_append unclosed _)

theorem fault_scanned_eq_none_iff {kind : TokenKind} {opening : List Char} {fault : LexicalFault}
    {scan : Scan} : (scanned kind opening fault scan).1.fault = none ↔ scan.closed = true := by
  simp [scanned]

/-- A lexeme has no fault if its token has its closing mark. -/
theorem fault_nextLexeme_eq_none_iff (c : Char) (cs : List Char) (offset : Option Nat) :
    (nextLexeme c cs).1.fault = none ↔
      Token.Terminated
        ⟨(nextLexeme c cs).1.kind, String.ofList (nextLexeme c cs).1.chars, offset⟩ := by
  unfold nextLexeme
  split
  · exact iff_of_true rfl trivial
  split
  · next line =>
    obtain ⟨rfl, slash⟩ := line
    obtain ⟨ds, rfl⟩ := List.head?_eq_some_iff.mp slash
    refine iff_of_true rfl fun block => ?_
    simp [runOf] at block
  split
  · next block =>
    obtain ⟨rfl, star⟩ := block
    obtain ⟨ds, rfl⟩ := List.head?_eq_some_iff.mp star
    rw [fault_scanned_eq_none_iff, closed_scanComment_iff]
    simp [scanned, Token.Terminated]
  split
  · exact iff_of_true rfl trivial
  split
  · exact iff_of_true rfl trivial
  split
  · next isQuote =>
    rw [fault_scanned_eq_none_iff, closed_scanString_iff isQuote]
    simp only [scanned, Token.Terminated, String.toList_ofList, Word.chars]
    constructor
    · rintro ⟨body, stays, taken⟩
      exact ⟨⟨c, body, isQuote, stays⟩, by rw [taken]; rfl⟩
    · rintro ⟨⟨quote, body, _, stays⟩, same⟩
      obtain ⟨rfl, taken⟩ := List.cons.inj same
      exact ⟨body, stays, taken⟩
  split
  · next tick =>
    rw [fault_scanned_eq_none_iff, closed_scanTemplate_iff, tick]
    simp [scanned, Token.Terminated]
  · exact iff_of_true rfl trivial

/-- The lexemes of a text have no faults if their tokens have their closing marks. -/
theorem lexicalFaults_eq_nil_iff (cs : List Char) (offset : Nat) :
    lexicalFaults offset (lexemes cs) = [] ↔
      ∀ t ∈ tokensFrom offset (lexemes cs), t.Terminated := by
  fun_induction lexemes cs generalizing offset with
  | case1 => simp [lexicalFaults, tokensFrom]
  | case2 c cs ih =>
    rw [tokensFrom, List.forall_mem_cons, ← ih, ← fault_nextLexeme_eq_none_iff, lexicalFaults]
    cases fault : (nextLexeme c cs).1.fault with
    | none => simp
    | some fault => simp

/-- Whether closing marks and brackets of a script are in order. -/
def Tree.WellFormed (tree : Tree) : Prop :=
  (∀ t ∈ tree.tokens, t.Terminated) ∧ Dyck (bracketWord tree.tokens)

/-- The parser finds nothing wrong with the well-formed scripts. -/
theorem faults_eq_nil_iff_wellFormed {file : Path} {text : String} :
    (Tree.parse file text).faults = [] ↔ (Tree.parse file text).WellFormed := by
  rw [faults_parse_eq_nil_iff, nested_iff_dyck, lexicalFaults_eq_nil_iff]
  exact Iff.rfl

end Recast.Script

namespace Recast.Emit

open Recast.Script

/-- The parser accepts exactly the well-formed scripts, and tells of everything else as an error at
a position inside the text. Exactly the well-formed scripts are rendered when they are emitted
without transformers; of the others there is neither a text nor a source map. -/
theorem emitted_iff_wellFormed (file : Path) (text : String) :
    let tree := Tree.parse file text
    (tree.faults = [] ↔ tree.WellFormed) ∧
      (∀ fault ∈ tree.faults, fault.isError = true ∧
        ∃ before, before <+: text.toList ∧ fault.position = some (Position.after before)) ∧
      ∀ (options : Options) (projectRoot : Path) (lines : Journal), ∃ output,
        transpileModule file text options projectRoot {} lines = .ok output lines ∧
          output.diagnostics = tree.faults ∧
          (output.diagnostics = [] ∧
              output.text = (render (eraseTypes tree).1 options projectRoot).text ∧
              output.map = (render (eraseTypes tree).1 options projectRoot).map.map (·.2) ↔
            tree.WellFormed) ∧
          (tree.WellFormed ∨ output.text = "" ∧ output.map = none) := by
  intro tree
  refine ⟨faults_eq_nil_iff_wellFormed, fun fault member => ?_, fun options projectRoot lines => ?_⟩
  · obtain ⟨before, isPrefix, placed⟩ := exists_isPrefix_of_mem_faults member
    exact ⟨isError_of_mem_faults member, before, isPrefix,
      placed.trans (exists_position_of_isPrefix isPrefix).2⟩
  by_cases wellFormed : tree.WellFormed
  · have accepted : (Tree.parse file text).faults = [] :=
      faults_eq_nil_iff_wellFormed.mpr wellFormed
    have run : TransformerSet.run {} tree = pure (eraseTypes tree).1 := rfl
    have clean : ¬ Diagnostic.anyError [] = true := by simp [Diagnostic.anyError]
    let rendering := render (eraseTypes tree).1 options projectRoot
    refine ⟨{ text := rendering.text, map := rendering.map.map (·.2) }, ?_, accepted.symm,
      iff_of_true ⟨rfl, rfl, rfl⟩ wellFormed, .inl wellFormed⟩
    rw [transpileModule, accepted, if_neg clean, run, pure_bind]
    rfl
  · have faulty : tree.faults ≠ [] := fun none =>
      wellFormed (faults_eq_nil_iff_wellFormed.mp none)
    have erroneous : Diagnostic.anyError tree.faults = true :=
      Bool.not_eq_false _ ▸ fun clean => faulty (faults_eq_nil clean)
    refine ⟨{ diagnostics := tree.faults }, ?_, rfl,
      iff_of_false (fun all => faulty all.1) wellFormed, .inr ⟨rfl, rfl⟩⟩
    rw [transpileModule, if_pos erroneous]
    rfl

end Recast.Emit
