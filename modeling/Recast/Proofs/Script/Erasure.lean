import Recast.Proofs.Script.Scanning

/-! # Erasing declarations of types

A program is a layout of aliases, interfaces and constants. The eraser counts the aliases and the
interfaces, and what it keeps are the constants exactly if no alias breaks off, which is if the line
does not end, outside brackets, between two words of it that do not go on with a line
(`eraseTypes_eq_constants_iff`).
-/

namespace Recast.Script

/-! ## Programs -/

namespace Word

def exportKeyword : Word :=
  .name { first := 'e', rest := ['x', 'p', 'o', 'r', 't'] }

def typeKeyword : Word :=
  .name { first := 't', rest := ['y', 'p', 'e'] }

def interfaceKeyword : Word :=
  .name { first := 'i', rest := ['n', 't', 'e', 'r', 'f', 'a', 'c', 'e'] }

def extendsKeyword : Word :=
  .name { first := 'e', rest := ['x', 't', 'e', 'n', 'd', 's'] }

def constKeyword : Word :=
  .name { first := 'c', rest := ['o', 'n', 's', 't'] }

end Word

/-- A statement of a program, with the grammar of its types. -/
inductive Statement where
  | synonym (exported : Bool) (name : Identifier) (type : List Word) (spelled : IsType type)
  | interface (exported : Bool) (name : Identifier)
    (heritage : Option { type : List Word // IsType type })
      (fields : List Field) (spelled : ∀ field ∈ fields, IsType field.type)
  | constant (name : Identifier) (value : Word) (plain : value.kind ≠ .punctuation)

namespace Statement

/-- The words in front of the keyword of a declaration. -/
def modifiers : Bool → List Word
  | true => [.exportKeyword]
  | false => []

/-- The words of a clause that names what an interface extends. -/
def clause : Option { type : List Word // IsType type } → List Word
  | some type => .extendsKeyword :: type.1
  | none => []

def words : Statement → List Word
  | synonym exported name type _ =>
    modifiers exported ++ .typeKeyword :: .name name :: .mark .equals ::
      (type ++ [.mark .semicolon])
  | interface exported name heritage fields _ =>
    modifiers exported ++ .interfaceKeyword :: .name name ::
      (clause heritage ++ .mark .openCurly :: (Field.members fields ++ [.mark .closeCurly]))
  | constant name value _ => [.constKeyword, .name name, .mark .equals, value, .mark .semicolon]

def declaresType : Statement → Bool
  | synonym .. | interface .. => true
  | constant .. => false

/-- The words of a statement that is a constant. -/
def constants : Statement → List Word
  | synonym .. | interface .. => []
  | constant name value plain => (constant name value plain).words

/-- Whether no brace stands in front of the members of an interface. -/
def Flat : Statement → Prop
  | interface _ _ heritage _ _ => Word.mark .openCurly ∉ clause heritage
  | synonym .. | constant .. => True

end Statement

/-- A statement with gaps in front of its words. -/
structure Placed where
  statement : Statement
  layout : Layout
  spelled : layout.words = statement.words

/-- How many brackets are open behind words. -/
def depthBehind (depth : Int) (words : List Word) : Int :=
  words.foldl (fun depth word => word.depthAfter depth) depth

/-- Whether a line ends, outside brackets, between two words that do not go on with a line. `depth`
brackets are open in front of the layout. -/
def Layout.BreaksOff (depth : Int) (layout : Layout) : Prop :=
  ∃ (front back : Layout) (before gap : Gap) (last next : Word),
    layout = front ++ (before, last) :: (gap, next) :: back ∧
      depthBehind depth (front.words ++ [last]) ≤ 0 ∧ gap.breaks = true ∧
      last.continuesLine = false ∧ next.continuesLine = false

/-- Whether the statement is an alias that breaks off behind its keyword. -/
def Placed.BreaksOff (placed : Placed) : Prop :=
  match placed.statement with
  | .synonym exported _ _ _ =>
    Layout.BreaksOff 0 (placed.layout.drop (Statement.modifiers exported).length)
  | .interface .. | .constant .. => False

abbrev Program := List Placed

namespace Program

def layout (program : Program) : Layout :=
  program.flatMap Placed.layout

/-- The text of a program, with a gap at its end. -/
def text (program : Program) (final : Gap) : String :=
  String.ofList (program.layout.chars ++ final.chars)

/-- The words of the constants. -/
def constants (program : Program) : List Word :=
  program.flatMap fun placed => placed.statement.constants

end Program

/-! ## What remains of an alias -/

theorem Layout.breaksOff_cons {depth : Int} {before gap : Gap} {last next : Word}
    {layout : Layout} :
    Layout.BreaksOff depth ((before, last) :: (gap, next) :: layout) ↔
      (last.depthAfter depth ≤ 0 ∧ gap.breaks = true ∧
        last.continuesLine = false ∧ next.continuesLine = false) ∨
        Layout.BreaksOff (last.depthAfter depth) ((gap, next) :: layout) := by
  constructor
  · rintro ⟨_ | ⟨piece, front⟩, back, before', gap', last', next', split, outside, ends⟩
    · simp only [List.nil_append, List.cons.injEq, Prod.mk.injEq] at split
      obtain ⟨⟨rfl, rfl⟩, ⟨rfl, rfl⟩, rfl⟩ := split
      exact .inl ⟨outside, ends⟩
    · obtain ⟨rfl, rest⟩ := List.cons.inj split
      exact .inr ⟨front, back, before', gap', last', next', rest, outside, ends⟩
  · rintro (⟨outside, ends⟩ | ⟨front, back, before', gap', last', next', split, outside, ends⟩)
    · exact ⟨[], layout, before, gap, last, next, rfl, outside, ends⟩
    · exact ⟨(before, last) :: front, back, before', gap', last', next', by rw [split]; rfl,
        outside, ends⟩

/-- Nothing remains of an alias that does not break off. -/
theorem Layout.remains_eq_nil_iff {depth : Int} {before : Gap} {last : Word} {layout : Layout} :
    layout.remains (last.depthAfter depth) last = [] ↔
      ¬ Layout.BreaksOff depth ((before, last) :: layout) := by
  induction layout generalizing depth before last with
  | nil =>
    refine ⟨fun _ => ?_, fun _ => rfl⟩
    rintro ⟨front, back, before', gap, last', next, split, _⟩
    have short := congrArg List.length split
    simp only [List.length_cons, List.length_append, List.length_nil] at short
    omega
  | cons piece layout ih =>
    obtain ⟨gap, next⟩ := piece
    rw [Layout.breaksOff_cons, Layout.remains]
    split
    · next ends => simp [ends]
    · next goes => rw [@ih _ gap, not_or, and_iff_right goes]

/-! ## Significant tokens -/

/-- The significant tokens, wherever they stand. -/
def bare (tokens : List Token) : List Token :=
  (significant tokens).map fun t => { t with offset := none }

theorem bare_append (front back : List Token) : bare (front ++ back) = bare front ++ bare back := by
  simp [bare, significant]

theorem bare_cons_of_isTrivia {t : Token} (trivial : t.isTrivia = true) (ts : List Token) :
    bare (t :: ts) = bare ts := by
  rw [bare, significant, List.filter_cons_of_neg (by rw [trivial]; decide)]
  rfl

theorem bare_cons {t : Token} (means : t.isTrivia = false) (ts : List Token) :
    bare (t :: ts) = { t with offset := none } :: bare ts := by
  rw [bare, significant, List.filter_cons_of_pos (by rw [means]; decide)]
  rfl

theorem bare_of_isTrivia {spaces : List Token} (trivial : ∀ t ∈ spaces, t.isTrivia = true) :
    bare spaces = [] := by
  induction spaces with
  | nil => rfl
  | cons t spaces ih =>
    rw [bare_cons_of_isTrivia (trivial t List.mem_cons_self)]
    exact ih fun other member => trivial other (List.mem_cons_of_mem _ member)

theorem Laid.bare {layout : Layout} {tokens : List Token} (laid : Laid layout tokens) :
    bare tokens = layout.words.map fun word => word.token none := by
  induction laid with
  | nil => rfl
  | @cons gap word layout spaces tokens here trivial breaks laid ih =>
    rw [bare_append, bare_of_isTrivia trivial, bare_cons (word.token_isTrivia here), ih]
    rfl

theorem Laid.text_of_mem_bare {layout : Layout} {tokens : List Token} (laid : Laid layout tokens) :
    ∀ t ∈ Script.bare tokens, t.text.isEmpty = false := by
  intro t member
  rw [laid.bare, List.mem_map] at member
  obtain ⟨word, _, rfl⟩ := member
  exact word.token_isEmpty none

/-- Of significant tokens, only one without a text goes with the end of a line. -/
theorem bare_dropLineEnd {tokens : List Token} (texts : ∀ t ∈ bare tokens, t.text.isEmpty = false) :
    bare (dropLineEnd tokens) = bare tokens := by
  cases tokens with
  | nil => rfl
  | cons t ts =>
    simp only [dropLineEnd]
    by_cases white : t.kind = .whitespace
    · have trivial : t.isTrivia = true := by rw [Token.isTrivia, white]; rfl
      rw [if_pos white, bare_cons_of_isTrivia trivial]
      split
      · rfl
      · have cut (text : String) : bare ({ t with text := text } :: ts) = bare ts :=
          bare_cons_of_isTrivia (t := { t with text := text }) trivial ts
        exact cut _
    · rw [if_neg white]
      split
      · next empty =>
        cases means : t.isTrivia with
        | true => exact (bare_cons_of_isTrivia means ts).symm
        | false =>
          rw [bare_cons means] at texts
          rw [texts _ List.mem_cons_self] at empty
          cases empty
      · rfl

/-- A word can be told from its token. -/
theorem Word.token_injective (offset : Option Nat) : Function.Injective fun word : Word =>
    word.token offset := by
  intro one other same
  simp only [Word.token, Token.mk.injEq, String.ofList_inj, and_true] at same
  obtain ⟨kind, chars⟩ := same
  cases one <;> cases other <;> cases kind
  case name.name.refl identifier identifier' =>
    obtain ⟨first, rest, _, _⟩ := identifier
    obtain ⟨first', rest', _, _⟩ := identifier'
    cases chars
    rfl
  case numeral.numeral.refl digits digits' =>
    obtain ⟨first, rest, _, _⟩ := digits
    obtain ⟨first', rest', _, _⟩ := digits'
    cases chars
    rfl
  case quoted.quoted.refl string string' =>
    obtain ⟨quote, body, _, _⟩ := string
    obtain ⟨quote', body', _, _⟩ := string'
    obtain ⟨rfl, more⟩ := List.cons.inj chars
    cases List.append_cancel_right more
    rfl
  case mark.mark.refl sign sign' =>
    have signs : sign.char = sign'.char := (List.cons.inj chars).1
    cases sign <;> cases sign' <;> first | rfl | exact absurd signs (by decide)

/-! ## Statements -/

/-- The words of a statement that the eraser keeps. -/
def Placed.kept (placed : Placed) : List Word :=
  match placed.statement with
  | .synonym exported _ _ _ =>
    Layout.words (Layout.remains 0 .typeKeyword
      (placed.layout.drop ((Statement.modifiers exported).length + 1)))
  | .interface .. => []
  | .constant .. => placed.statement.words

private theorem words_drop {layout : Layout} (front : List Word) {back : List Word}
    (spelled : layout.words = front ++ back) :
    Layout.words (layout.drop front.length) = back := by
  rw [Layout.words, List.map_drop]
  exact (congrArg (List.drop front.length) spelled).trans List.drop_left

/-- A declaration begins with its modifiers and its keyword. -/
private theorem exists_declaration {layout : Layout} {tokens : List Token}
    (laid : Laid layout tokens) {exported : Bool} {keyword : Word} {words : List Word}
    (spelled : layout.words = Statement.modifiers exported ++ keyword :: words)
    (declares : (keyword.token none).isIdentifier "export" = false) :
    ∃ spaces t ts here rest, tokens = spaces ++ t :: ts ∧ (∀ t ∈ spaces, t.isTrivia = true) ∧
      t.isTrivia = false ∧ Laid (layout.drop ((Statement.modifiers exported).length + 1)) rest ∧
      Layout.words (layout.drop ((Statement.modifiers exported).length + 1)) = words ∧
      ∀ more, behindTypeOnly? (t :: (ts ++ more)) =
        behindTypeDeclaration? exported (keyword.token here :: (rest ++ more)) := by
  cases laid with
  | nil => cases exported <;> cases spelled
  | @cons gap first layout spaces tokens here trivial breaks laid =>
    cases exported with
    | false =>
      obtain ⟨rfl, following⟩ := List.cons.inj spelled
      refine ⟨spaces, first.token here, tokens, here, tokens, rfl, trivial,
        first.token_isTrivia here, laid, following, ?_⟩
      intro more
      have other : (first.token here).isIdentifier "export" = false := declares
      rw [behindTypeOnly?, if_neg (Bool.eq_false_iff.mp other)]
    | true =>
      obtain ⟨rfl, following⟩ := List.cons.inj spelled
      obtain ⟨there, rest, later, skipped⟩ := laid.exists_skipTrivia following
      refine ⟨spaces, Word.token .exportKeyword here, tokens, there, rest, rfl, trivial, rfl,
        ?_, ?_, ?_⟩
      · rwa [← List.drop_one] at later
      · exact words_drop [.exportKeyword, keyword] (congrArg (Word.exportKeyword :: ·) following)
      · intro more
        have modifier : (Word.token .exportKeyword here).isIdentifier "export" = true := rfl
        rw [behindTypeOnly?, if_pos modifier, skipped more]

/-- The declaration of an alias ends where its line breaks off. -/
private theorem behindTypeDeclaration?_synonym {layout : Layout} {tokens : List Token}
    (laid : Laid layout tokens) {name : Identifier} {type : List Word} (spelled : IsType type)
    (words : layout.words = .name name :: .mark .equals :: (type ++ [.mark .semicolon]))
    (exported : Bool) (here : Option Nat) (more : List Token) :
    ∃ rest, behindTypeDeclaration? exported (Word.token .typeKeyword here :: (tokens ++ more)) =
      some (rest ++ more) ∧ Laid (layout.remains 0 .typeKeyword) rest := by
  obtain ⟨named, walked⟩ := spelled.balanced false 0
  have whole : Place.walk false ⟨0, false⟩ (.name name :: .mark .equals :: type) =
      some ⟨0, named⟩ := by
    simpa [Place.step, Mark.role] using walked
  obtain ⟨rest, remains, ended⟩ :=
    @behindStatementFrom_laid _ _ laid (.name name :: .mark .equals :: type) words _ _ whole rfl
    .typeKeyword here more
  refine ⟨rest, ?_, remains⟩
  obtain ⟨first, second, laidSecond, skipped⟩ := laid.exists_skipTrivia words
  have wordsSecond : Layout.words layout.tail = .mark .equals :: (type ++ [.mark .semicolon]) := by
    rw [← List.drop_one]
    exact words_drop [.name name] words
  obtain ⟨third, later, _, skippedSecond⟩ := laidSecond.exists_skipTrivia wordsSecond
  have statement : behindStatement (Word.token .typeKeyword here :: (tokens ++ more)) =
      rest ++ more := ended
  have noImport : (Word.token .typeKeyword here).isIdentifier "import" = false := rfl
  have type : (Word.token .typeKeyword here).isIdentifier "type" = true := rfl
  have identifier : (Word.token (.name name) first).kind = .identifier := rfl
  have noBrace : (Word.token (.name name) first).isPunct "\x7b" = false := rfl
  have equals : (Word.token (.mark .equals) third).isPunct "=" = true := rfl
  have two : ahead 2 (tokens ++ more) =
      [Word.token (.name name) first, Word.token (.mark .equals) third] := by
    rw [ahead_of_skipTrivia (skipped more), ahead_of_skipTrivia (skippedSecond more), ahead]
  simp only [behindTypeDeclaration?, two, statement, noImport, type, identifier, noBrace, equals,
    Bool.and_false, Bool.true_or, decide_true, Bool.and_self, Bool.false_eq_true, if_false, if_true]

/-- The declaration of an interface ends behind the first block. -/
private theorem behindTypeDeclaration?_interface {layout : Layout} {tokens : List Token}
    (laid : Laid layout tokens) {name : Identifier} {words : List Word}
    (spelled : layout.words = .name name :: words) (exported : Bool) (here : Option Nat)
    (more : List Token) :
    behindTypeDeclaration? exported (Word.token .interfaceKeyword here :: (tokens ++ more)) =
      behindBlock? (tokens ++ more) := by
  obtain ⟨first, _, _, skipped⟩ := laid.exists_skipTrivia spelled
  have noImport : (Word.token .interfaceKeyword here).isIdentifier "import" = false := rfl
  have noType : (Word.token .interfaceKeyword here).isIdentifier "type" = false := rfl
  have interface : (Word.token .interfaceKeyword here).isIdentifier "interface" = true := rfl
  have identifier : (Word.token (.name name) first).kind = .identifier := rfl
  have one : ahead 1 (tokens ++ more) = [Word.token (.name name) first] := by
    rw [ahead_of_skipTrivia (skipped more), ahead]
  simp only [behindTypeDeclaration?, one, noImport, noType, interface, identifier, Bool.and_false,
    Bool.false_eq_true, if_false, if_true]

/-- Members are the first block of an interface, if no brace stands in front of them. -/
private theorem behindBlock?_members {layout : Layout} {tokens : List Token}
    (laid : Laid layout tokens) {name : Identifier} {clause : List Word} {fields : List Field}
    (spelled : ∀ field ∈ fields, IsType field.type)
    (words : layout.words = .name name ::
      (clause ++ .mark .openCurly :: (Field.members fields ++ [.mark .closeCurly])))
    (flat : Word.mark .openCurly ∉ clause) (more : List Token) :
    behindBlock? (tokens ++ more) = some more := by
  have walked : Place.walk true ⟨0, false⟩ (Field.members fields) = some ⟨0, false⟩ :=
    Field.walk_members (fun field member => (spelled field member).balanced) true 0 fun _ => rfl
  have noBrace : Word.mark .openCurly ∉ Word.name name :: clause := by
    simpa using flat
  exact @behindBlock?_laid _ _ laid (.name name :: clause) _ words noBrace _ _ walked rfl more

/-- A statement may begin behind the token, on the same line too. -/
def Opens (previous : Option Token) : Prop :=
  ∀ broke, endsStatement previous broke = true

private theorem opens_semicolon (offset : Option Nat) :
    Opens (some (Word.token (.mark .semicolon) offset)) :=
  fun _ => rfl

/-- The eraser keeps what remains of an alias. -/
private theorem eraseFrom_remains {layout : Layout} {type : List Word} (spelled : IsType type)
    {name : Identifier}
    (words : layout.words = .name name :: .mark .equals :: (type ++ [.mark .semicolon]))
    {tokens : List Token} (laid : Laid (layout.remains 0 .typeKeyword) tokens) (more : List Token) :
    ∃ behind, Opens behind ∧ eraseFrom 0 none false (tokens ++ more) =
      (tokens ++ (eraseFrom 0 behind false more).1, (eraseFrom 0 behind false more).2) := by
  obtain ⟨named, walked⟩ := spelled.balanced false 0
  have whole : Place.walk false ⟨0, false⟩ (.name name :: .mark .equals :: type) =
      some ⟨0, named⟩ := by
    simpa [Place.step, Mark.role] using walked
  rcases @Layout.remains_spec _ (.name name :: .mark .equals :: type) words _ _ whole
    .typeKeyword with
    gone | ⟨left, start, outside, walked, rest⟩
  · rw [show layout.remains 0 .typeKeyword = [] from gone] at laid
    cases laid
    exact ⟨none, fun _ => rfl, rfl⟩
  · obtain ⟨offset, kept⟩ := eraseFrom_laid laid rest walked rfl none false more
    rw [outside] at kept
    exact ⟨_, opens_semicolon offset, kept⟩

/-- The eraser takes a declaration out and counts it. -/
private theorem eraseFrom_declaration {spaces : List Token}
    (trivial : ∀ t ∈ spaces, t.isTrivia = true) {t : Token} (means : t.isTrivia = false)
    {previous : Option Token} (opens : Opens previous) (broke : Bool) {ts rest : List Token}
    (found : behindTypeOnly? (t :: ts) = some rest)
    (texts : ∀ t ∈ bare (eraseFrom 0 none false rest).1, t.text.isEmpty = false) :
    bare (eraseFrom 0 previous broke (spaces ++ t :: ts)).1 = bare (eraseFrom 0 none false rest).1 ∧
      (eraseFrom 0 previous broke (spaces ++ t :: ts)).2 = (eraseFrom 0 none false rest).2 + 1 := by
  rw [eraseFrom_append trivial, eraseFrom_of_some means (opens _) found]
  refine ⟨?_, rfl⟩
  rw [bare_append, bare_of_isTrivia trivial, bare_dropLineEnd texts, List.nil_append]

/-- A constant declares no type. -/
private theorem behindTypeOnly?_constKeyword (here : Option Nat) (ts : List Token) :
    behindTypeOnly? (Word.token .constKeyword here :: ts) = none := by
  have noKeyword : ∀ keyword ∈ ["export", "import", "type", "interface"],
      (Word.token .constKeyword here).isIdentifier keyword = false := by
    intro keyword member
    have each : ∀ keyword ∈ ["export", "import", "type", "interface"],
        (Word.token .constKeyword none).isIdentifier keyword = false := by decide +kernel
    exact each keyword member
  simp [behindTypeOnly?, behindTypeDeclaration?, noKeyword]

/-- The eraser keeps a constant. -/
private theorem eraseFrom_constant {name : Identifier} {value : Word}
    (plain : value.kind ≠ .punctuation) {layout : Layout} {tokens : List Token} (laid : Laid layout tokens)
    (spelled : layout.words = (Statement.constant name value plain).words)
    (previous : Option Token) (broke : Bool) (more : List Token) :
    ∃ offset, eraseFrom 0 previous broke (tokens ++ more) =
      (tokens ++ (eraseFrom 0 (some (Word.token (.mark .semicolon) offset)) false more).1,
        (eraseFrom 0 (some (Word.token (.mark .semicolon) offset)) false more).2) := by
  cases laid with
  | nil => cases spelled
  | @cons gap first layout spaces tokens here trivial breaks laid =>
    obtain ⟨rfl, words⟩ := List.cons.inj spelled
    have walked : Place.walk false ⟨0, false⟩ [.name name, .mark .equals, value] =
        some ⟨0, value.kind == .identifier⟩ := by
      cases value with
      | name _ => rfl
      | numeral _ => rfl
      | quoted _ => rfl
      | mark _ => exact absurd rfl plain
    obtain ⟨offset, kept⟩ := @eraseFrom_laid _ _ laid [.name name, .mark .equals, value] .semicolon
      words _ _ _ walked rfl (some (Word.token .constKeyword here)) false more
    have outside : (Word.token .constKeyword here).depthAfter 0 = 0 := rfl
    refine ⟨offset, ?_⟩
    rw [List.append_assoc, List.cons_append, eraseFrom_append trivial,
      eraseFrom_of_none rfl (behindTypeOnly?_constKeyword here _), outside]
    change eraseFrom 0 (some (Word.token .constKeyword here)) false (tokens ++ more) = _ at kept
    rw [kept, List.append_assoc]
    rfl

/-- The eraser goes over one statement. -/
private theorem eraseFrom_placed (placed : Placed) (flat : placed.statement.Flat)
    {tokens : List Token} (laid : Laid placed.layout tokens) {previous : Option Token}
    (opens : Opens previous) (broke : Bool) (more : List Token) (texts : ∀ behind, Opens behind →
      ∀ t ∈ bare (eraseFrom 0 behind false more).1, t.text.isEmpty = false) :
    ∃ behind, Opens behind ∧
      bare (eraseFrom 0 previous broke (tokens ++ more)).1 =
        placed.kept.map (fun word => word.token none) ++ bare (eraseFrom 0 behind false more).1 ∧
      (eraseFrom 0 previous broke (tokens ++ more)).2 =
        (eraseFrom 0 behind false more).2 + if placed.statement.declaresType then 1 else 0 := by
  obtain ⟨statement, layout, spelled⟩ := placed
  cases statement with
  | synonym exported name type isType =>
    obtain ⟨spaces, t, ts, here, rest, rfl, trivial, means, laidRest, words, declares⟩ :=
      exists_declaration laid spelled rfl
    obtain ⟨left, ended, laidLeft⟩ :=
      behindTypeDeclaration?_synonym laidRest isType words exported here more
    obtain ⟨behind, opensBehind, kept⟩ := eraseFrom_remains isType words laidLeft more
    have textsLeft : ∀ t ∈ bare (eraseFrom 0 none false (left ++ more)).1, t.text.isEmpty =
        false := by
      intro t member
      rw [kept, bare_append] at member
      exact (List.mem_append.mp member).elim (laidLeft.text_of_mem_bare t)
        (texts behind opensBehind t)
    obtain ⟨erased, count⟩ :=
      eraseFrom_declaration trivial means opens broke ((declares more).trans ended) textsLeft
    rw [List.append_assoc, List.cons_append]
    refine ⟨behind, opensBehind, ?_, ?_⟩
    · rw [erased, kept, bare_append, laidLeft.bare]
      rfl
    · rw [count, kept]
      rfl
  | interface exported name heritage fields all =>
    obtain ⟨spaces, t, ts, here, rest, rfl, trivial, means, laidRest, words, declares⟩ :=
      exists_declaration laid spelled rfl
    have ended := (behindTypeDeclaration?_interface laidRest words exported here more).trans
      (behindBlock?_members laidRest all words flat more)
    obtain ⟨erased, count⟩ :=
      eraseFrom_declaration trivial means opens broke ((declares more).trans ended)
      (texts none fun _ => rfl)
    rw [List.append_assoc, List.cons_append]
    exact ⟨none, fun _ => rfl, erased, count⟩
  | constant name value plain =>
    obtain ⟨offset, whole⟩ := eraseFrom_constant plain laid spelled previous broke more
    refine ⟨_, opens_semicolon offset, ?_, ?_⟩
    · rw [whole, bare_append, laid.bare]
      exact congrArg (fun words : List Word => words.map (fun word => word.token none) ++ _) spelled
    · rw [whole]
      rfl

/-! ## Programs -/

/-- The words that the eraser keeps. -/
def Program.kept (program : Program) : List Word :=
  program.flatMap Placed.kept

private theorem eraseFrom_of_isTrivia {trailing : List Token}
    (trivial : ∀ t ∈ trailing, t.isTrivia = true) (depth : Int) (previous : Option Token)
    (broke : Bool) : eraseFrom depth previous broke trailing = (trailing, 0) := by
  have whole := eraseFrom_append trivial depth previous broke []
  rwa [List.append_nil, eraseFrom, List.append_nil] at whole

/-- The eraser goes over a program. -/
private theorem eraseFrom_program {program : Program}
    (flat : ∀ placed ∈ program, placed.statement.Flat) {tokens trailing : List Token}
    (laid : Laid program.layout tokens) (trivial : ∀ t ∈ trailing, t.isTrivia = true)
    {previous : Option Token} (opens : Opens previous) (broke : Bool) :
    bare (eraseFrom 0 previous broke (tokens ++ trailing)).1 =
      program.kept.map (fun word => word.token none) ∧
      (eraseFrom 0 previous broke (tokens ++ trailing)).2 =
        program.countP fun placed => placed.statement.declaresType := by
  induction program generalizing tokens previous broke with
  | nil =>
    cases laid
    rw [List.nil_append, eraseFrom_of_isTrivia trivial, bare_of_isTrivia trivial]
    exact ⟨rfl, rfl⟩
  | cons placed program ih =>
    obtain ⟨before, behind, rfl, laidFirst, laidRest⟩ := Laid.append_iff.mp laid
    have rest {previous : Option Token} (opens : Opens previous) :=
      ih (fun other member => flat other (List.mem_cons_of_mem _ member)) laidRest opens false
    obtain ⟨next, opensNext, kept, count⟩ :=
      eraseFrom_placed placed (flat placed List.mem_cons_self) laidFirst opens
      broke (behind ++ trailing) fun previous opens t member => by
        rw [(rest opens).1, List.mem_map] at member
        obtain ⟨word, _, rfl⟩ := member
        exact word.token_isEmpty none
    rw [List.append_assoc, kept, count, (rest opensNext).1, (rest opensNext).2, List.countP_cons]
    exact ⟨List.map_append.symm, rfl⟩

/-- The significant tokens that the eraser keeps, and how many declarations it counts. -/
theorem eraseTypes_spec {program : Program} (parted : program.layout.Parted)
    (flat : ∀ placed ∈ program, placed.statement.Flat) (final : Gap) (file : Path) :
    bare (eraseTypes (Tree.parse file (program.text final))).1.tokens =
        program.kept.map (fun word => word.token none) ∧
      (eraseTypes (Tree.parse file (program.text final))).2 =
        program.countP fun placed => placed.statement.declaresType := by
  obtain ⟨tokens, trailing, parsed, laid, trivial⟩ := exists_laid parted final 0
  have cut : (Tree.parse file (program.text final)).tokens = tokens ++ trailing := by
    rw [← parsed, Program.text]
    simp only [Tree.parse, String.toList_ofList]
  have erased := eraseFrom_program flat laid trivial (fun _ => rfl : Opens none) false
  rw [← cut] at erased
  exact erased

/-- Nothing remains of a declaration of a type that does not break off. -/
theorem Placed.kept_eq_iff (placed : Placed) :
    placed.kept = placed.statement.constants ↔ ¬ placed.BreaksOff := by
  obtain ⟨statement, layout, spelled⟩ := placed
  cases statement with
  | synonym exported name type isType =>
    have words : Layout.words (layout.drop (Statement.modifiers exported).length) =
        .typeKeyword :: .name name :: .mark .equals :: (type ++ [.mark .semicolon]) :=
          words_drop _ spelled
    simp only [Placed.kept, Placed.BreaksOff, Statement.constants]
    rw [← List.drop_drop, List.drop_one]
    generalize layout.drop (Statement.modifiers exported).length = declaration at words
    rcases declaration with _ | ⟨⟨gap, keyword⟩, behind⟩
    · cases words
    · obtain ⟨rfl, _⟩ := List.cons.inj words
      rw [Layout.words, List.map_eq_nil_iff]
      exact @Layout.remains_eq_nil_iff 0 gap .typeKeyword behind
  | interface exported name heritage fields all => exact ⟨fun _ => id, fun _ => rfl⟩
  | constant name value plain => exact ⟨fun _ => id, fun _ => rfl⟩

theorem Placed.length_constants_le (placed : Placed) :
    placed.statement.constants.length ≤ placed.kept.length := by
  obtain ⟨statement, layout, spelled⟩ := placed
  cases statement with
  | synonym exported name type isType => exact Nat.zero_le _
  | interface exported name heritage fields all => exact Nat.zero_le _
  | constant name value plain => exact Nat.le_refl _

theorem Program.length_constants_le (program : Program) :
    program.constants.length ≤ program.kept.length := by
  induction program with
  | nil => exact Nat.le_refl 0
  | cons placed program ih =>
    have first := placed.length_constants_le
    simp only [Program.kept, Program.constants, List.flatMap_cons, List.length_append] at ih ⊢
    omega

/-- The eraser keeps just the constants exactly if nothing breaks off. -/
theorem Program.kept_eq_iff (program : Program) :
    program.kept = program.constants ↔ ∀ placed ∈ program, ¬ placed.BreaksOff := by
  induction program with
  | nil => simp [Program.kept, Program.constants]
  | cons placed program ih =>
    rw [List.forall_mem_cons, ← placed.kept_eq_iff, ← ih]
    constructor
    · intro same
      have first := placed.length_constants_le
      have others := Program.length_constants_le program
      have lengths := congrArg List.length same
      simp only [Program.kept, Program.constants, List.flatMap_cons,
        List.length_append] at same others lengths
      exact List.append_inj same (by omega)
    · rintro ⟨first, others⟩
      rw [Program.kept, Program.constants, List.flatMap_cons, List.flatMap_cons, first]
      exact congrArg _ others

/-- The eraser counts the declarations of types, and what it keeps are the constants exactly if no
alias breaks off. -/
theorem eraseTypes_eq_constants_iff {program : Program} (parted : program.layout.Parted)
    (flat : ∀ placed ∈ program, placed.statement.Flat) (final : Gap) (file : Path) :
    (eraseTypes (Tree.parse file (program.text final))).2 =
        program.countP (fun placed => placed.statement.declaresType) ∧
      (bare (eraseTypes (Tree.parse file (program.text final))).1.tokens =
          program.constants.map (fun word => word.token none) ↔
        ∀ placed ∈ program, ¬ placed.BreaksOff) := by
  obtain ⟨kept, count⟩ := eraseTypes_spec parted flat final file
  refine ⟨count, ?_⟩
  rw [kept, ← program.kept_eq_iff]
  exact List.map_inj_right fun one other same => Word.token_injective none same

/-- A word directly behind the one before. -/
private def tight (word : Word) : Gap × Word :=
  ([], word)

/-- A word behind a blank. -/
private def spaced (word : Word) : Gap × Word :=
  ([.blank ' '], word)

/-- A word on the next line. -/
private def below (word : Word) : Gap × Word :=
  ([.line [], .blank ' '], word)

private def letterA : Identifier := { first := 'A', rest := [] }

private def letterB : Identifier := { first := 'B', rest := [] }

/-- The statement `const k = 1;`. -/
private def constantBelow : Placed where
  statement := .constant { first := 'k', rest := [] } (.numeral { first := '1', rest := [] })
    TokenKind.noConfusion
  layout := [([.blank '\n'], .constKeyword), spaced (.name { first := 'k', rest := [] }),
    spaced (.mark .equals), spaced (.numeral { first := '1', rest := [] }),
    tight (.mark .semicolon)]
  spelled := rfl

/-- An alias and an interface, laid out over several lines. -/
def sample : Program := [
  { statement := .synonym true letterA _ (.union (.array (.name letterB)) (.name letterA))
    layout := [tight .exportKeyword, below .typeKeyword, spaced (.name letterA),
      spaced (.mark .equals), below (.name letterB), tight (.mark .openSquare),
      below (.mark .closeSquare), below (.mark .bar), spaced (.name letterA),
      tight (.mark .semicolon)]
    spelled := rfl },
  { statement := .interface false letterA (some ⟨_, .name letterB⟩) [] (List.forall_mem_nil _)
    layout := [([.blank '\n'], .interfaceKeyword), below (.name letterA), below .extendsKeyword,
      below (.name letterB), below (.mark .openCurly), below (.mark .closeCurly)]
    spelled := rfl },
  constantBelow]

theorem eraseTypes_sample :
    sample.text [.blank '\n'] = "export//\n type A =//\n B[//\n ]//\n | A;\n" ++
        "interface//\n A//\n extends//\n B//\n \x7b//\n \x7d\nconst k = 1;\n" ∧
      sample.layout.Parted ∧ (∀ placed ∈ sample, placed.statement.Flat) ∧
      (eraseTypes (Tree.parse ⟨true, ["a.ts"]⟩ (sample.text [.blank '\n']))).2 = 2 ∧
      bare (eraseTypes (Tree.parse ⟨true, ["a.ts"]⟩ (sample.text [.blank '\n']))).1.tokens =
        sample.constants.map fun word => word.token none := by
  have parted : sample.layout.Parted := by
    unfold Layout.Parted
    decide +kernel
  have flat : ∀ placed ∈ sample, placed.statement.Flat := by
    simp [sample, constantBelow, Statement.Flat, Statement.clause, Word.extendsKeyword]
  have unbroken : ∀ placed ∈ sample, ¬ placed.BreaksOff := by
    simp only [sample, List.forall_mem_cons]
    refine ⟨?_, id, id, List.forall_mem_nil _⟩
    rw [← Placed.kept_eq_iff]
    exact List.isEmpty_iff.mp (by decide +kernel)
  obtain ⟨count, kept⟩ := eraseTypes_eq_constants_iff parted flat [.blank '\n'] ⟨true, ["a.ts"]⟩
  exact ⟨by decide +kernel, parted, flat, count, kept.mpr unbroken⟩

/-- An alias of which the brackets stand on the next line. -/
def bracketsBelow : Program := [
  { statement := .synonym false letterA _ (.array (.name letterB))
    layout := [tight .typeKeyword, spaced (.name letterA), spaced (.mark .equals),
      spaced (.name letterB), ([.blank '\n', .blank ' ', .blank ' '], .mark .openSquare),
      tight (.mark .closeSquare), tight (.mark .semicolon)]
    spelled := rfl },
  constantBelow]

/-- An interface that extends an object type. -/
def bracesExtended : Program := [
  { statement :=
      .interface false letterA (some ⟨_, @IsType.object [] (List.forall_mem_nil _)⟩) []
        (List.forall_mem_nil _)
    layout := [tight .interfaceKeyword, spaced (.name letterA), spaced .extendsKeyword,
      spaced (.mark .openCurly), tight (.mark .closeCurly), spaced (.mark .openCurly),
      tight (.mark .closeCurly)]
    spelled := rfl }]

/-- The eraser takes the object type for the members. -/
private theorem bare_bracesExtended (file : Path) :
    bare (eraseTypes (Tree.parse file (bracesExtended.text []))).1.tokens =
      [Word.token (.mark .openCurly) none, Word.token (.mark .closeCurly) none] := by
  have parted : bracesExtended.layout.Parted := by
    unfold Layout.Parted
    decide +kernel
  obtain ⟨tokens, trailing, parsed, laid, last⟩ := exists_laid parted [] 0
  obtain ⟨spaces, t, ts, here, rest, rfl, trivial, means, laidRest, words, declares⟩ :=
    @exists_declaration _ _ laid false .interfaceKeyword _ rfl rfl
  obtain ⟨front, back, rfl, laidFront, laidBack⟩ := Laid.append_iff.mp
    (show Laid ([spaced (.name letterA), spaced .extendsKeyword, spaced (.mark .openCurly),
      tight (.mark .closeCurly)] ++ [spaced (.mark .openCurly), tight (.mark .closeCurly)]) rest
      from laidRest)
  have block : behindBlock? (front ++ (back ++ trailing)) = some (back ++ trailing) :=
    @behindBlock?_laid _ _ laidFront [.name letterA, .extendsKeyword] [] rfl
      (by simp [Word.extendsKeyword]) true _ rfl rfl _
  have found : behindTypeOnly? (t :: (ts ++ trailing)) = some (back ++ trailing) := by
    rw [declares, behindTypeDeclaration?_interface laidRest words, List.append_assoc, block]
  obtain ⟨offset, kept⟩ := @eraseFrom_laid _ _ laidBack [.mark .openCurly] _ rfl true ⟨0, false⟩ _
    rfl rfl none false trailing
  rw [eraseFrom_of_isTrivia last] at kept
  have left : bare (eraseFrom 0 none false (back ++ trailing)).1 =
      [Word.token (.mark .openCurly) none, Word.token (.mark .closeCurly) none] := by
    change eraseFrom 0 none false (back ++ trailing) = _ at kept
    rw [kept, bare_append, laidBack.bare, bare_of_isTrivia last]
    rfl
  have texts : ∀ t ∈ bare (eraseFrom 0 none false (back ++ trailing)).1, t.text.isEmpty =
      false := by
    rw [left]
    decide +kernel
  have erased :=
    (eraseFrom_declaration trivial means (fun _ => rfl : Opens none) false found texts).1
  have cut : (Tree.parse file (bracesExtended.text [])).tokens =
      spaces ++ t :: (ts ++ trailing) := by
    rw [← List.cons_append, ← List.append_assoc, ← parsed, Program.text]
    simp only [Tree.parse, String.toList_ofList]
  rw [← cut, left] at erased
  exact erased

/-- Not only constants are kept where an alias breaks off, or where braces stand in front of the
members. -/
theorem eraseTypes_ne_constants :
    (bracketsBelow.text [.blank '\n'] = "type A = B\n  [];\nconst k = 1;\n" ∧
      bracketsBelow.layout.Parted ∧
      bare (eraseTypes (Tree.parse ⟨true, ["a.ts"]⟩ (bracketsBelow.text [.blank '\n']))).1.tokens ≠
        bracketsBelow.constants.map fun word => word.token none) ∧
    bracesExtended.text [] = "interface A extends \x7b\x7d \x7b\x7d" ∧
      bracesExtended.layout.Parted ∧
      bare (eraseTypes (Tree.parse ⟨true, ["a.ts"]⟩ (bracesExtended.text []))).1.tokens ≠
        bracesExtended.constants.map fun word => word.token none := by
  have parted : bracketsBelow.layout.Parted := by
    unfold Layout.Parted
    decide +kernel
  have flat : ∀ placed ∈ bracketsBelow, placed.statement.Flat := by
    simp [bracketsBelow, constantBelow, Statement.Flat]
  refine ⟨⟨by decide +kernel, parted, ?_⟩, by decide +kernel, ?_, ?_⟩
  · rw [(eraseTypes_spec parted flat _ _).1]
    intro same
    exact absurd (congrArg List.length same) (by decide +kernel)
  · unfold Layout.Parted
    decide +kernel
  · rw [bare_bracesExtended]
    exact List.cons_ne_nil _ _

end Recast.Script
