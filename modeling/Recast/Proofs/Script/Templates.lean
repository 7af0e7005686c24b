import Recast.Proofs.Script.Standing

/-! # Template literals

A template literal is text with substitutions, and the code of a substitution may hold strings,
comments and templates in turn (`Spelled`). The lexer does not look into code: it counts braces and
takes what stands behind a backslash along, also inside of strings, comments and templates (`Flat`).

So exactly the flat literals are cut off in front of every text (`lexemes_template_iff`). A literal
is flat if each string, comment and template of its substitutions is flat for itself, and no
backslash stands outside of them; but a string with a single brace is enough to lose the end.
-/

namespace Recast.Script

open Recast.Text

/-! ## Flat literals -/

/-- The parts of a template literal. -/
inductive Part where
  | text
  | code

/-- What the lexer takes for a part of a template literal. -/
inductive Flat : Part → List Char → Prop
  | nil {part : Part} : Flat part []
  | escaped {part : Part} {c : Char} {cs : List Char} (rest : Flat part cs) :
      Flat part ('\\' :: c :: cs)
  | plain {c : Char} {cs : List Char} (noTick : c ≠ '\x60') (unescaped : c ≠ '\\')
      (unopened : c = '$' → cs.head? ≠ some '\x7b') (rest : Flat .text cs) : Flat .text (c :: cs)
  | substitution {inner cs : List Char} (inside : Flat .code inner) (rest : Flat .text cs) :
      Flat .text ('$' :: '\x7b' :: (inner ++ '\x7d' :: cs))
  | other {c : Char} {cs : List Char} (noOpen : c ≠ '\x7b') (noClose : c ≠ '\x7d')
      (unescaped : c ≠ '\\') (rest : Flat .code cs) : Flat .code (c :: cs)
  | braces {inner cs : List Char} (inside : Flat .code inner) (rest : Flat .code cs) :
      Flat .code ('\x7b' :: (inner ++ '\x7d' :: cs))

namespace Flat

/-- Code that holds neither braces nor backslashes is flat, whatever flat code stands behind it. -/
theorem code_append_of_plain {front back : List Char}
    (plain : ∀ c ∈ front, c ≠ '\x7b' ∧ c ≠ '\x7d' ∧ c ≠ '\\') (flat : Flat .code back) :
    Flat .code (front ++ back) := by
  induction front with
  | nil => exact flat
  | cons c front ih =>
    obtain ⟨⟨noOpen, noClose, unescaped⟩, plain⟩ := List.forall_mem_cons.mp plain
    exact .other noOpen noClose unescaped (ih plain)

theorem code_append {front back : List Char} (flat : Flat .code front) (behind : Flat .code back) :
    Flat .code (front ++ back) := by
  generalize part : Part.code = it at flat
  induction flat with
  | nil =>
    cases part
    exact behind
  | escaped _ ih => exact .escaped (ih part)
  | plain => cases part
  | substitution => cases part
  | other noOpen noClose unescaped _ ih => exact .other noOpen noClose unescaped (ih part)
  | @braces inner cs inside _ _ ih =>
    rw [List.cons_append, List.append_assoc, List.cons_append]
    exact .braces inside (ih part)

/-- How a part is scanned: text up to the backtick behind it, code so that the scan goes on. -/
private def Scans : Part → List Char → Prop
  | .text, cs => ∀ after,
      scanTemplate 0 (cs ++ '\x60' :: after) = ⟨cs ++ ['\x60'], after, true⟩
  | .code, cs => ∀ depth after,
      scanTemplate (depth + 1) (cs ++ after) = (scanTemplate (depth + 1) after).push cs

private theorem push_push (scan : Scan) (front before : List Char) :
    (scan.push front).push before = scan.push (before ++ front) := by
  simp [Scan.push]

private theorem scans {part : Part} {cs : List Char} (flat : Flat part cs) : Scans part cs := by
  induction flat with
  | @nil part =>
    cases part with
    | text =>
      intro after
      rw [List.nil_append, scanTemplate.eq_5 _ _ (by simp) (by simp) (by simp), if_pos rfl]
      rfl
    | code => exact fun depth after => rfl
  | @escaped part c cs _ ih =>
    cases part with
    | text =>
      intro after
      rw [List.cons_append, List.cons_append, scanTemplate, ih after]
      rfl
    | code =>
      intro depth after
      rw [List.cons_append, List.cons_append, scanTemplate, ih depth after, push_push]
      rfl
  | @plain c cs noTick unescaped unopened _ ih =>
    intro after
    have opensNot : ∀ rest, c = '$' → cs ++ '\x60' :: after = '\x7b' :: rest → False := by
      rintro rest rfl front
      cases cs with
      | nil => simp at front
      | cons d cs => exact unopened rfl (by simpa using congrArg List.head? front)
    rw [List.cons_append, scanTemplate.eq_5 _ _ (fun same => absurd same unescaped)
      (fun _ _ same => absurd same unescaped) opensNot, if_neg noTick, ih after]
    rfl
  | @substitution inner cs _ _ inside ih =>
    intro after
    have shut : scanTemplate 1 ('\x7d' :: (cs ++ '\x60' :: after)) =
        (scanTemplate 0 (cs ++ '\x60' :: after)).push ['\x7d'] := by
      rw [scanTemplate.eq_6 _ _ _ (by simp) (by simp), if_neg (by decide), if_pos rfl]
    rw [List.cons_append, List.cons_append, List.append_assoc, List.cons_append, scanTemplate,
      inside 0, shut, ih after]
    simp [Scan.push]
  | @other c cs noOpen noClose unescaped _ ih =>
    intro depth after
    rw [List.cons_append, scanTemplate.eq_6 _ _ _ (fun same => absurd same unescaped)
      (fun _ _ same => absurd same unescaped), if_neg noOpen, if_neg noClose, ih depth after,
      push_push]
    rfl
  | @braces inner cs _ _ inside ih =>
    intro depth after
    have shut : scanTemplate (depth + 2) ('\x7d' :: (cs ++ after)) =
        (scanTemplate (depth + 1) (cs ++ after)).push ['\x7d'] := by
      rw [scanTemplate.eq_6 _ _ _ (by simp) (by simp), if_neg (by decide), if_pos rfl]
    rw [List.cons_append, List.append_assoc, List.cons_append,
      scanTemplate.eq_6 _ _ _ (by simp) (by simp), if_pos rfl, inside (depth + 1), shut,
      ih depth after, push_push, push_push, push_push]
    simp

/-- Flat code up to the end of each brace that is open, and flat text behind the last one. -/
private def Closing : Nat → List Char → Prop
  | 0, cs => Flat .text cs
  | depth + 1, cs => ∃ inner behind, cs = inner ++ '\x7d' :: behind ∧ Flat .code inner ∧
      Closing depth behind

private theorem closing_append {depth : Nat} {front cs : List Char} (flat : Flat .code front)
    (closing : Closing (depth + 1) cs) : Closing (depth + 1) (front ++ cs) := by
  obtain ⟨inner, behind, rfl, inside, rest⟩ := closing
  exact ⟨front ++ inner, behind, (List.append_assoc ..).symm, flat.code_append inside, rest⟩

/-- A scan that ends took flat text and a backtick. -/
private theorem exists_closing {depth : Nat} {cs : List Char}
    (closed : (scanTemplate depth cs).closed = true) :
    ∃ text, (scanTemplate depth cs).taken = text ++ ['\x60'] ∧ Closing depth text := by
  fun_induction scanTemplate depth cs with
  | case1 => cases closed
  | case2 => cases closed
  | case3 depth c cs ih =>
    obtain ⟨text, taken, closing⟩ := ih closed
    refine ⟨'\\' :: c :: text, by simp [Scan.push, taken], ?_⟩
    cases depth with
    | zero => exact .escaped closing
    | succ depth => exact closing_append (.escaped .nil) closing
  | case4 cs ih =>
    obtain ⟨text, taken, inner, behind, rfl, inside, rest⟩ := ih closed
    exact ⟨'$' :: '\x7b' :: (inner ++ '\x7d' :: behind), by simp [Scan.push, taken],
      .substitution inside rest⟩
  | case5 => exact ⟨[], rfl, .nil⟩
  | case6 c cs unended unescaped unopened noTick ih =>
    obtain ⟨text, taken, closing⟩ := ih closed
    refine ⟨c :: text, by simp [Scan.push, taken],
      .plain noTick (ne_backslash unended unescaped) ?_ closing⟩
    intro dollar head
    obtain ⟨d, rest, rfl⟩ := List.exists_cons_of_ne_nil (l := text) (by rintro rfl; cases head)
    obtain rfl : d = '\x7b' := by simpa using head
    have whole := scanTemplate_taken_rest 0 cs
    rw [taken] at whole
    exact unopened _ dollar whole.symm
  | case7 depth cs _ _ ih =>
    obtain ⟨text, taken, inner, behind, rfl, inside, rest⟩ := ih closed
    refine ⟨'\x7b' :: (inner ++ '\x7d' :: behind), by simp [Scan.push, taken], ?_⟩
    obtain ⟨inner', behind', rfl, inside', rest⟩ := rest
    exact ⟨'\x7b' :: (inner ++ '\x7d' :: inner'), behind', by simp, .braces inside inside', rest⟩
  | case8 depth cs _ _ _ ih =>
    obtain ⟨text, taken, closing⟩ := ih closed
    exact ⟨'\x7d' :: text, by simp [Scan.push, taken], [], text, rfl, .nil, closing⟩
  | case9 depth c cs unended unescaped noOpen noClose ih =>
    obtain ⟨text, taken, closing⟩ := ih closed
    exact ⟨c :: text, by simp [Scan.push, taken],
      closing_append (.other noOpen noClose (ne_backslash unended unescaped) .nil) closing⟩

end Flat

/-- A template is closed exactly behind flat text. -/
theorem scanTemplate_eq_iff (text after : List Char) :
    scanTemplate 0 (text ++ '\x60' :: after) = ⟨text ++ ['\x60'], after, true⟩ ↔
      Flat .text text := by
  constructor
  · intro scan
    obtain ⟨text', taken, flat⟩ := Flat.exists_closing (congrArg Scan.closed scan)
    rw [scan] at taken
    obtain rfl := List.append_cancel_right taken
    exact flat
  · exact fun flat => flat.scans after

theorem closed_scanTemplate_iff (cs : List Char) :
    (scanTemplate 0 cs).closed = true ↔
      ∃ text, Flat .text text ∧ (scanTemplate 0 cs).taken = text ++ ['\x60'] := by
  constructor
  · intro closed
    obtain ⟨text, taken, flat⟩ := Flat.exists_closing closed
    exact ⟨text, flat, taken⟩
  · rintro ⟨text, flat, taken⟩
    have whole := scanTemplate_taken_rest 0 cs
    rw [taken, List.append_assoc, List.singleton_append] at whole
    rw [← whole, (scanTemplate_eq_iff text _).mpr flat]

/-! ## Literals -/

/-- A character that is a mark by itself, other than braces. -/
def isSign (c : Char) : Bool :=
  !isBlank c && !startsName c && !c.isDigit && !(['"', '\'', '\x60', '\x7b', '\x7d'].contains c)

/-- What stands in the code of a substitution and holds no code itself. -/
inductive Atom where
  | blank (c : Char) (isBlank : isBlank c = true)
  | name (identifier : Identifier)
  | numeral (digits : Numeral)
  | sign (c : Char) (isSign : isSign c = true)
  | quoted (string : Quoted)
  | comment (text : List Char) (unclosed : ¬ ['*', '/'] <:+: text)

namespace Atom

def chars : Atom → List Char
  | blank c _ => [c]
  | name identifier => identifier.first :: identifier.rest
  | numeral digits => digits.first :: digits.rest
  | sign c _ => [c]
  | quoted string => string.quote :: (string.body ++ [string.quote])
  | comment text _ => '/' :: '*' :: (text ++ ['*', '/'])

/-- Whether a count of braces may go wrong in the atom. -/
def misleads : Atom → Bool
  | blank _ _ | name _ | numeral _ => false
  | sign c _ => c == '\\'
  | quoted _ | comment _ _ => true

end Atom

/-- The parts of template literals. Every atom that may mislead a count of braces, and every
template in a substitution, is tame. -/
inductive Spelled (tame : List Char → Prop) : Part → List Char → Prop
  | nil {part : Part} : Spelled tame part []
  | escaped {c : Char} {cs : List Char} (rest : Spelled tame .text cs) :
      Spelled tame .text ('\\' :: c :: cs)
  | plain {c : Char} {cs : List Char} (noTick : c ≠ '\x60') (unescaped : c ≠ '\\')
      (unopened : c = '$' → cs.head? ≠ some '\x7b') (rest : Spelled tame .text cs) :
      Spelled tame .text (c :: cs)
  | substitution {inner cs : List Char} (inside : Spelled tame .code inner)
      (rest : Spelled tame .text cs) :
      Spelled tame .text ('$' :: '\x7b' :: (inner ++ '\x7d' :: cs))
  | atom {cs : List Char} (atom : Atom) (isTame : atom.misleads = true → tame atom.chars)
      (rest : Spelled tame .code cs) : Spelled tame .code (atom.chars ++ cs)
  | template {text cs : List Char} (inside : Spelled tame .text text)
      (isTame : tame ('\x60' :: (text ++ ['\x60']))) (rest : Spelled tame .code cs) :
      Spelled tame .code ('\x60' :: (text ++ '\x60' :: cs))
  | braces {inner cs : List Char} (inside : Spelled tame .code inner)
      (rest : Spelled tame .code cs) :
      Spelled tame .code ('\x7b' :: (inner ++ '\x7d' :: cs))

/-- A template literal. -/
structure Literal where
  text : List Char
  spelled : Spelled (fun _ => True) .text text

def Literal.chars (literal : Literal) : List Char :=
  '\x60' :: (literal.text ++ ['\x60'])

/-- An atom that misleads no count of braces holds neither braces nor backslashes. -/
private theorem Atom.plain {atom : Atom} (leads : atom.misleads = false) :
    ∀ c ∈ atom.chars, c ≠ '\x7b' ∧ c ≠ '\x7d' ∧ c ≠ '\\' := by
  have apart {test : Char → Bool} (braces : test '\x7b' = false ∧ test '\x7d' = false)
      (backslash : test '\\' = false) {c : Char} (passes : test c = true) :
      c ≠ '\x7b' ∧ c ≠ '\x7d' ∧ c ≠ '\\' := by
    refine ⟨?_, ?_, ?_⟩ <;> rintro rfl <;> simp_all
  cases atom with
  | blank c white =>
    intro d member
    obtain rfl := List.mem_singleton.mp member
    exact apart (by decide) (by decide) white
  | name identifier =>
    refine List.forall_mem_cons.mpr ⟨apart (by decide +kernel) (by decide +kernel)
      identifier.starts, fun c member => ?_⟩
    exact apart (by decide +kernel) (by decide +kernel)
      (List.all_eq_true.mp identifier.continues c member)
  | numeral digits =>
    refine List.forall_mem_cons.mpr ⟨apart (by decide) (by decide) digits.starts,
      fun c member => ?_⟩
    exact apart (by decide) (by decide) (List.all_eq_true.mp digits.continues c member)
  | sign c mark =>
    intro d member
    obtain rfl := List.mem_singleton.mp member
    have unbraced : d ≠ '\x7b' ∧ d ≠ '\x7d' := by
      constructor <;> rintro rfl <;> simp [isSign] at mark
    exact ⟨unbraced.1, unbraced.2, by simpa [misleads] using leads⟩
  | quoted => cases leads
  | comment => cases leads

/-- Literals are flat if everything in their substitutions that may mislead is flat for itself. -/
theorem Spelled.flat {part : Part} {cs : List Char} (spelled : Spelled (Flat .code) part cs) :
    Flat part cs := by
  induction spelled with
  | nil => exact .nil
  | escaped _ ih => exact .escaped ih
  | plain noTick unescaped unopened _ ih => exact .plain noTick unescaped unopened ih
  | substitution _ _ inside ih => exact .substitution inside ih
  | atom atom isTame _ ih =>
    cases misleads : atom.misleads with
    | false => exact ih.code_append_of_plain (Atom.plain misleads)
    | true => exact (isTame misleads).code_append ih
  | @template text cs _ isTame _ _ ih =>
    have joined := isTame.code_append ih
    rwa [List.cons_append, List.append_assoc, List.singleton_append] at joined
  | braces _ _ inside ih => exact .braces inside ih

/-- A template literal is cut off in front of a text, without an error, exactly if it is flat; and
it is flat if the strings, comments and templates of its substitutions are. -/
theorem lexemes_template_iff (literal : Literal) :
    (∀ after, (lexemes (literal.chars ++ after)).head? = some ⟨.template, literal.chars, none⟩ ↔
        Flat .text literal.text) ∧
      (Spelled (Flat .code) .text literal.text → Flat .text literal.text) := by
  refine ⟨fun after => ?_, Spelled.flat⟩
  obtain ⟨text, spelled⟩ := literal
  have cut : nextLexeme '\x60' (text ++ '\x60' :: after) =
      scanned .template ['\x60'] .unclosedTemplate (scanTemplate 0 (text ++ '\x60' :: after)) := by
    have spec : isBlank '\x60' = false ∧ startsName '\x60' = false ∧
        ('\x60').isDigit = false := by
      decide +kernel
    simp [nextLexeme, spec]
  rw [← scanTemplate_eq_iff text after, Literal.chars, List.cons_append, List.append_assoc,
    List.singleton_append, lexemes_cons, List.head?_cons, cut, Option.some.injEq]
  have whole := scanTemplate_taken_rest 0 (text ++ '\x60' :: after)
  generalize scanTemplate 0 (text ++ '\x60' :: after) = scan at whole ⊢
  obtain ⟨taken, rest, closed⟩ := scan
  constructor
  · intro first
    obtain rfl : taken = text ++ ['\x60'] := by simpa [scanned] using congrArg Lexeme.chars first
    obtain rfl : rest = after := by simpa using whole
    obtain rfl : closed = true := by simpa [scanned] using congrArg Lexeme.fault first
    rfl
  · intro scan
    rw [scan]
    rfl

section

/-- Text with a string in a substitution. -/
private theorem spelled_quoted {tame : List Char → Prop} (string : Quoted)
    (isTame : tame (Atom.quoted string).chars) :
    Spelled tame .text ('$' :: '\x7b' :: ((Atom.quoted string).chars ++ ['\x7d'])) := by
  have inside : Spelled tame .code ((Atom.quoted string).chars ++ []) :=
    .atom (.quoted string) (fun _ => isTame) .nil
  rw [List.append_nil] at inside
  exact .substitution inside .nil

private def paired : Quoted := ⟨'"', ['\x7b', '\x7d'], .inl rfl, rfl⟩

private def single : Quoted := ⟨'"', ['\x7b'], .inl rfl, rfl⟩

/-- A string with a pair of braces is cut off within its literal. One with a single brace makes the
literal run on, whatever follows. -/
theorem lexemes_template_braces :
    (∀ after, (lexemes (Literal.chars ⟨_, spelled_quoted paired trivial⟩ ++ after)).head? =
        some ⟨.template, "\x60$\x7b\"\x7b\x7d\"\x7d\x60".toList, none⟩) ∧
      ∀ after, (lexemes (Literal.chars ⟨_, spelled_quoted single trivial⟩ ++ after)).head? ≠
        some ⟨.template, "\x60$\x7b\"\x7b\"\x7d\x60".toList, none⟩ := by
  have tame : Flat .code (Atom.quoted paired).chars := by
    have closed : Flat .code ('\x7b' :: ([] ++ '\x7d' :: ['"'])) :=
      .braces .nil (.other (by decide) (by decide) (by decide) .nil)
    exact .other (by decide) (by decide) (by decide) closed
  have lost : ¬ Flat .text ('$' :: '\x7b' :: ((Atom.quoted single).chars ++ ['\x7d'])) := by
    rw [← scanTemplate_eq_iff _ []]
    decide +kernel
  obtain ⟨met, flat⟩ := lexemes_template_iff ⟨_, spelled_quoted paired trivial⟩
  exact ⟨fun after => (met after).mpr (flat (spelled_quoted paired tame)),
    fun after => ((lexemes_template_iff ⟨_, spelled_quoted single trivial⟩).1 after).not.mpr lost⟩

end

end Recast.Script
