import Mathlib.Data.List.Nodup
import Recast.Proofs.Script.Location
import Recast.Proofs.Script.Nesting
import Recast.Proofs.Script.Partition

/-! # Names that are declared again

A scan records the token behind each keyword of a declaration, and a name is reported if it repeats
one that was recorded before it (`redeclaredFrom_eq`). But behind a keyword there may be another
one: of a `const enum` the scan records `enum` and not the name, and of a class that has no name but
a base it records `extends`.

So among declarations with different names every `const enum` but the first is reported, and every
such class but the first; and a constant with a name of theirs is reported exactly if the scan
recorded that name (`redeclarations_of_distinct`).
-/

namespace Recast.Script

open Recast.Text

/-! ## Recorded names -/

/-- The token behind a keyword, or behind the star behind it. -/
def behindKeyword? (t : Token) (ts : List Token) : Option Token :=
  if t.text = "function" && ts.head?.any (·.isPunct "*") then ts.tail.head? else ts.head?

/-- The name that a token declares, among the tokens behind it. -/
def declared? (depth : Int) (previous : Option Token) (t : Token) (ts : List Token) :
    Option Token :=
  if depth = 0 && t.declares && !previous.any (·.isPunct ".") then
    (behindKeyword? t ts).filter (·.kind = .identifier)
  else none

/-- The names that a scan records. -/
def recordedFrom (depth : Int) (previous : Option Token) : List Token → List Token
  | [] => []
  | t :: ts => (declared? depth previous t ts).toList ++
      recordedFrom (t.depthAfter depth) (some t) ts

/-- The names that repeat one before them; `seen` are the names so far. -/
def repeats (seen : List String) : List Token → List Token
  | [] => []
  | name :: names =>
    if seen.contains name.text then name :: repeats (name.text :: seen) names
    else repeats (name.text :: seen) names

/-- Redeclared are the names that are recorded twice. -/
theorem redeclaredFrom_eq (depth : Int) (previous : Option Token) (seen : List String)
    (ts : List Token) :
    redeclaredFrom depth previous seen ts = repeats seen (recordedFrom depth previous ts) := by
  induction ts generalizing depth previous seen with
  | nil => rfl
  | cons t ts ih =>
    rw [redeclaredFrom, recordedFrom, declared?, behindKeyword?, ← apply_ite List.head?]
    dsimp only
    split <;> next found => rw [found, ih]; rfl

theorem repeats_append (seen : List String) (front back : List Token) :
    repeats seen (front ++ back) =
      repeats seen front ++ repeats ((front.map (·.text)).reverse ++ seen) back := by
  induction front generalizing seen with
  | nil => rfl
  | cons name front ih =>
    rw [List.cons_append, repeats, repeats, ih]
    split <;> simp

/-- All but the first of equal names repeat it. -/
theorem countP_repeats (seen : List String) (names : List Token) (text : String) :
    (repeats seen names).countP (·.text = text) =
      (names.map (·.text)).count text - if text ∈ seen then 0 else 1 := by
  induction names generalizing seen with
  | nil => simp [repeats]
  | cons name names ih =>
    rw [repeats, List.map_cons]
    by_cases same : name.text = text
    · subst same
      by_cases known : name.text ∈ seen <;> simp [known, ih]
    · have other : text ≠ name.text := Ne.symm same
      have rest : (repeats (name.text :: seen) names).countP (·.text = text) =
          (names.map (·.text)).count text - if text ∈ seen then 0 else 1 := by
        rw [ih]
        simp [other]
      rw [List.count_cons_of_ne same]
      split
      · rw [List.countP_cons_of_neg (by simpa using same), rest]
      · exact rest

theorem repeats_sublist (seen : List String) (names : List Token) :
    (repeats seen names).Sublist names := by
  induction names generalizing seen with
  | nil => exact .slnil
  | cons name names ih =>
    rw [repeats]
    split
    · exact (ih _).cons_cons name
    · exact (ih _).cons name

theorem mem_of_declared? {depth : Int} {previous : Option Token} {t name : Token}
    {ts : List Token} (found : declared? depth previous t ts = some name) : name ∈ ts := by
  rw [declared?, behindKeyword?] at found
  split at found
  · obtain ⟨head, -⟩ := Option.filter_eq_some_iff.mp found
    split at head
    · exact List.mem_of_mem_tail (List.mem_of_head? head)
    · exact List.mem_of_head? head
  · cases found

theorem mem_of_mem_recordedFrom {depth : Int} {previous : Option Token} {name : Token}
    {ts : List Token} (recorded : name ∈ recordedFrom depth previous ts) : name ∈ ts := by
  induction ts generalizing depth previous with
  | nil => exact recorded
  | cons t ts ih =>
    rw [recordedFrom, List.mem_append, Option.mem_toList] at recorded
    exact List.mem_cons_of_mem _ (recorded.elim mem_of_declared? ih)

/-- What a token declares lies within tokens of which the last one declares nothing. -/
theorem declared?_append {t : Token} {front : List Token} (depth : Int) (previous : Option Token)
    (ends : ∀ last ∈ (t :: front).getLast?, last.declares = false ∧ last.isPunct "*" = false)
    (back : List Token) :
    declared? depth previous t (front ++ back) = declared? depth previous t front := by
  cases front with
  | nil => simp [declared?, (ends t rfl).1]
  | cons u front =>
    cases front with
    | nil => simp [declared?, behindKeyword?, (ends u rfl).2]
    | cons v front => rfl

/-- A scan goes on behind tokens of which the last one declares nothing. -/
theorem recordedFrom_append {front : List Token} (depth : Int) (previous : Option Token)
    (ends : ∀ last ∈ front.getLast?, last.declares = false ∧ last.isPunct "*" = false)
    (back : List Token) :
    recordedFrom depth previous (front ++ back) = recordedFrom depth previous front ++
      recordedFrom (openDepth depth front) (front.getLast?.or previous) back := by
  induction front generalizing depth previous with
  | nil => rfl
  | cons t front ih =>
    have later : ∀ last ∈ front.getLast?, last.declares = false ∧ last.isPunct "*" = false := by
      intro last member
      refine ends last ?_
      rw [List.getLast?_cons, Option.mem_def.mp member]
      rfl
    have last : front.getLast?.or (some t) = (t :: front).getLast?.or previous := by
      rw [List.getLast?_cons]
      cases front.getLast? <;> rfl
    rw [List.cons_append, recordedFrom, recordedFrom, declared?_append depth previous ends,
      ih _ _ later, last, List.append_assoc]
    rfl

/-! ## What a scan records -/

/-- Tokens of which a scan records names with these texts, behind anything but a dot. -/
structure Records (ts : List Token) (texts : List String) : Prop where
  recorded : ∀ previous : Option Token, previous.any (·.isPunct ".") = false →
    (recordedFrom 0 previous ts).map (·.text) = texts
  level : openDepth 0 ts = 0
  ends : ∀ last ∈ ts.getLast?,
    last.declares = false ∧ last.isPunct "*" = false ∧ last.isPunct "." = false

namespace Records

variable {front back : List Token} {texts more : List String}

theorem nil : Records [] [] :=
  ⟨fun _ _ => rfl, rfl, fun _ member => by cases member⟩

theorem recordedFrom_append (records : Records front texts) (previous : Option Token)
    (undotted : previous.any (·.isPunct ".") = false) (back : List Token) :
    ∃ before : Option Token, before.any (·.isPunct ".") = false ∧
      recordedFrom 0 previous (front ++ back) =
        recordedFrom 0 previous front ++ recordedFrom 0 before back := by
  refine ⟨front.getLast?.or previous, ?_, ?_⟩
  · cases last : front.getLast? with
    | none => exact undotted
    | some t => exact (records.ends t last).2.2
  · rw [Script.recordedFrom_append 0 previous (fun last member =>
      ⟨(records.ends last member).1, (records.ends last member).2.1⟩), records.level]

theorem append (records : Records front texts) (behind : Records back more) :
    Records (front ++ back) (texts ++ more) where
  recorded previous undotted := by
    obtain ⟨before, undotted', split⟩ := records.recordedFrom_append previous undotted back
    rw [split, List.map_append, records.recorded previous undotted,
      behind.recorded before undotted']
  level := by
    have split : openDepth 0 (front ++ back) = openDepth (openDepth 0 front) back :=
      List.foldl_append
    rw [split, records.level, behind.level]
  ends last member := by
    rw [List.getLast?_append] at member
    cases here : back.getLast? with
    | none => exact records.ends last (by rwa [here] at member)
    | some t =>
      rw [here] at member
      cases member
      exact behind.ends _ here

end Records

/-- The token without its place. -/
def Token.bare (t : Token) : Token :=
  { t with offset := none }

theorem declared?_bare (depth : Int) (previous : Option Token) (t : Token) (ts : List Token) :
    declared? depth (previous.map Token.bare) t.bare (ts.map Token.bare) =
      (declared? depth previous t ts).map Token.bare := by
  have undotted : (previous.map Token.bare).any (·.isPunct ".") =
      previous.any (·.isPunct ".") := by
    cases previous <;> rfl
  have behind : behindKeyword? t.bare (ts.map Token.bare) =
      (behindKeyword? t ts).map Token.bare := by
    cases ts with
    | nil => simp [behindKeyword?]
    | cons u us =>
      rw [behindKeyword?, behindKeyword?, apply_ite (Option.map Token.bare), List.map_cons,
        List.tail_cons, List.head?_map]
      rfl
  rw [declared?, declared?, undotted, behind, apply_ite (Option.map Token.bare)]
  cases behindKeyword? t ts with
  | none => rfl
  | some name =>
    rw [Option.map_some, Option.filter_some, Option.filter_some,
      apply_ite (Option.map Token.bare)]
    rfl

/-- What a scan records does not depend on where the tokens stand. -/
theorem recordedFrom_bare (depth : Int) (previous : Option Token) (ts : List Token) :
    recordedFrom depth (previous.map Token.bare) (ts.map Token.bare) =
      (recordedFrom depth previous ts).map Token.bare := by
  induction ts generalizing depth previous with
  | nil => rfl
  | cons t ts ih =>
    rw [List.map_cons, recordedFrom, recordedFrom, List.map_append, declared?_bare, ← ih]
    cases declared? depth previous t ts <;> rfl

theorem openDepth_bare (depth : Int) (ts : List Token) :
    openDepth depth (ts.map Token.bare) = openDepth depth ts := by
  rw [openDepth, openDepth, List.foldl_map]
  rfl

theorem Records.of_bare {ts : List Token} {texts : List String}
    (records : Records (ts.map Token.bare) texts) : Records ts texts where
  recorded previous undotted := by
    have same := records.recorded (previous.map Token.bare) (by cases previous <;> exact undotted)
    rw [recordedFrom_bare, List.map_map] at same
    exact same
  level := by rw [← openDepth_bare, records.level]
  ends last member := by
    refine records.ends last.bare ?_
    rw [List.getLast?_map, Option.mem_def.mp member]
    rfl

theorem Layout.map_bare_tokensAt (offset : Nat) (layout : Layout) :
    (Layout.tokensAt offset layout).map Token.bare = layout.words.map (·.token none) := by
  induction layout generalizing offset with
  | nil => rfl
  | cons piece layout ih =>
    rw [Layout.tokensAt, List.map_cons, ih]
    rfl

/-! ## Declarations -/

namespace Word

def letKeyword : Word :=
  .name ⟨'l', ['e', 't'], rfl, rfl⟩

def classKeyword : Word :=
  .name ⟨'c', ['l', 'a', 's', 's'], rfl, rfl⟩

def functionKeyword : Word :=
  .name ⟨'f', ['u', 'n', 'c', 't', 'i', 'o', 'n'], rfl, rfl⟩

def enumKeyword : Word :=
  .name ⟨'e', ['n', 'u', 'm'], rfl, rfl⟩

def one : Word :=
  .numeral ⟨'1', [], rfl, rfl⟩

def text (word : Word) : String :=
  String.ofList word.chars

end Word

/-- A name that is no keyword of a declaration. -/
structure Name where
  identifier : Identifier
  free : (Word.name identifier).text ∉ ["const", "let", "class", "function", "enum", "extends"]

namespace Name

def word (name : Name) : Word :=
  .name name.identifier

def text (name : Name) : String :=
  name.word.text

end Name

/-- The forms of declarations. -/
inductive Form where
  | constValue
  | letValue
  | plainFunction
  | generator
  | plainClass
  | subclass (base : Name)
  | constEnum (member : Identifier)
  | classValue (base : Name)
  | functionValue

namespace Form

def words (name : Word) : Form → List Word
  | constValue => [.constKeyword, name, .mark .equals, .one, .mark .semicolon]
  | letValue => [.letKeyword, name, .mark .equals, .one, .mark .semicolon]
  | plainFunction =>
    [.functionKeyword, name, .mark .openRound, .mark .closeRound, .mark .openCurly,
      .mark .closeCurly]
  | generator =>
    [.functionKeyword, .mark .star, name, .mark .openRound, .mark .closeRound, .mark .openCurly,
      .mark .closeCurly]
  | plainClass => [.classKeyword, name, .mark .openCurly, .mark .closeCurly]
  | subclass base =>
    [.classKeyword, name, .extendsKeyword, base.word, .mark .openCurly, .mark .closeCurly]
  | constEnum member =>
    [.constKeyword, .enumKeyword, name, .mark .openCurly, .name member, .mark .closeCurly]
  | classValue base =>
    [.constKeyword, name, .mark .equals, .classKeyword, .extendsKeyword, base.word,
      .mark .openCurly, .mark .closeCurly, .mark .semicolon]
  | functionValue =>
    [.constKeyword, name, .mark .equals, .functionKeyword, .mark .openRound, .mark .closeRound,
      .mark .openCurly, .mark .closeCurly, .mark .semicolon]

/-- The words that a scan takes for declared names. -/
def recorded (name : String) : Form → List String
  | constEnum _ => ["enum"]
  | classValue _ => [name, "extends"]
  | _ => [name]

end Form

/-- A declaration. -/
structure Declaration where
  exported : Bool
  form : Form
  name : Name

namespace Declaration

def words (declaration : Declaration) : List Word :=
  Statement.modifiers declaration.exported ++ declaration.form.words declaration.name.word

def recorded (declaration : Declaration) : List String :=
  declaration.form.recorded declaration.name.text

end Declaration

/-! ## Names of declarations -/

theorem Name.declares (name : Name) (offset : Option Nat) :
    (name.word.token offset).declares = false := by
  refine Bool.eq_false_iff.mpr fun declares => name.free ?_
  have keyword : name.text ∈ ["const", "let", "class", "function"] := by
    simpa [Token.declares, Name.text, Name.word, Word.text, Word.token, Word.kind] using declares
  exact List.mem_append_left ["enum", "extends"] keyword

theorem Name.apart (name : Name) : name.text ≠ "enum" ∧ name.text ≠ "extends" := by
  have free : name.text ∉ ["const", "let", "class", "function", "enum", "extends"] := name.free
  simp only [List.mem_cons, not_or] at free
  exact ⟨free.2.2.2.2.1, free.2.2.2.2.2.1⟩

namespace Records

variable {keyword name : Token} {ts : List Token}

/-- Tokens without keywords declare nothing. -/
theorem of_plain (plain : ∀ t ∈ ts, t.declares = false) (level : openDepth 0 ts = 0)
    (ends : ∀ last ∈ ts.getLast?, last.isPunct "*" = false ∧ last.isPunct "." = false) :
    Records ts [] where
  recorded previous undotted := by
    rw [List.map_eq_nil_iff]
    clear level ends undotted
    generalize (0 : Int) = depth
    induction ts generalizing depth previous with
    | nil => rfl
    | cons t ts ih =>
      obtain ⟨here, later⟩ := List.forall_mem_cons.mp plain
      rw [recordedFrom, ih later, declared?, here, Bool.and_false, Bool.false_and]
      rfl
  level := level
  ends last member := ⟨plain last (List.mem_of_getLast? member), ends last member⟩

/-- A keyword declares the name behind it. -/
theorem recordedFrom_keyword (declares : keyword.declares = true)
    (named : name.kind = .identifier) (plain : name.declares = false) {previous : Option Token}
    (undotted : previous.any (·.isPunct ".") = false) :
    recordedFrom 0 previous [keyword, name] = [name] := by
  have unmarked : name.isPunct "*" = false := by
    rw [Token.isPunct, named]
    rfl
  simp [recordedFrom, declared?, behindKeyword?, declares, undotted, unmarked, plain, named]

theorem of_keyword (declares : keyword.declares = true) (named : name.kind = .identifier)
    (plain : name.declares = false) : Records [keyword, name] [name.text] := by
  have kind : keyword.kind = .identifier := by
    rw [Token.declares, Bool.and_eq_true, beq_iff_eq] at declares
    exact declares.1
  have unmarked (text : String) : name.isPunct text = false := by
    rw [Token.isPunct, named]
    rfl
  have flat {t : Token} (is : t.kind = .identifier) (depth : Int) : t.depthAfter depth = depth := by
    simp [Token.depthAfter, Token.role, is]
  refine ⟨fun previous undotted => ?_, ?_, fun last member => ?_⟩
  · rw [recordedFrom_keyword declares named plain undotted]
    rfl
  · simp [openDepth, flat kind, flat named]
  · cases member
    exact ⟨plain, unmarked _, unmarked _⟩

/-- What stands behind the name declares nothing else, if it is plain. -/
theorem recordedFrom_keyword_append (declares : keyword.declares = true)
    (named : name.kind = .identifier) (plain : name.declares = false) (rest : Records ts [])
    {previous : Option Token} (undotted : previous.any (·.isPunct ".") = false) :
    recordedFrom 0 previous (keyword :: name :: ts) = [name] := by
  obtain ⟨before, undotted', split⟩ :=
    (of_keyword declares named plain).recordedFrom_append previous undotted ts
  have nothing := List.map_eq_nil_iff.mp (rest.recorded before undotted')
  change recordedFrom 0 previous ([keyword, name] ++ ts) = _
  rw [split, recordedFrom_keyword declares named plain undotted, nothing, List.append_nil]

/-- Behind a token that declares nothing, it does not matter what is in front of it. -/
theorem of_head {t : Token} {texts : List String} (plain : t.declares = false)
    (recorded : (recordedFrom 0 none (t :: ts)).map (·.text) = texts)
    (level : openDepth 0 (t :: ts) = 0)
    (ends : ∀ last ∈ (t :: ts).getLast?,
      last.declares = false ∧ last.isPunct "*" = false ∧ last.isPunct "." = false) :
    Records (t :: ts) texts where
  recorded previous _ := by
    rw [← recorded, recordedFrom, recordedFrom]
    simp [declared?, plain]
  level := level
  ends := ends

end Records

namespace Declaration

private theorem records_named {keyword : Word} (declares : (keyword.token none).declares = true)
    (name : Name) : Records [keyword.token none, name.word.token none] [name.text] :=
  .of_keyword declares rfl (name.declares none)

private theorem records_starred (name : Name) :
    Records ([.functionKeyword, .mark .star, name.word].map (Word.token · none)) [name.text] := by
  refine ⟨fun previous undotted => ?_, rfl, ?_⟩
  · have keyword : (Word.functionKeyword.token none).declares = true ∧
        (Word.functionKeyword.token none).text = "function" := by
      decide +kernel
    have star : ((Word.mark .star).token none).isPunct "*" = true ∧
        ((Word.mark .star).token none).declares = false := by
      decide +kernel
    have kind : (name.word.token none).kind = .identifier := rfl
    simp [recordedFrom, declared?, behindKeyword?, keyword, star, kind, name.declares, undotted]
    rfl
  · rintro _ ⟨⟩
    exact ⟨name.declares none, rfl, rfl⟩

private theorem records_name (name : Name) : Records [name.word.token none] [] :=
  .of_plain (by simp [name.declares]) rfl (by rintro _ ⟨⟩; exact ⟨rfl, rfl⟩)

private theorem records_members (member : Identifier) :
    Records ([.mark .openCurly, .name member, .mark .closeCurly].map (Word.token · none)) [] :=
  .of_head (by decide +kernel) rfl rfl (by rintro _ ⟨⟩; exact ⟨rfl, rfl, rfl⟩)

/-- What a scan records of a declaration. -/
theorem records (declaration : Declaration) :
    Records (declaration.words.map (·.token none)) declaration.recorded := by
  obtain ⟨exported, form, name⟩ := declaration
  have modified : Records ((Statement.modifiers exported).map (·.token none)) [] := by
    cases exported
    · exact .nil
    · exact .of_plain (by decide +kernel) rfl (by decide +kernel)
  have value : Records ([.mark .equals, .one, .mark .semicolon].map (Word.token · none)) [] :=
    .of_plain (by decide +kernel) rfl (by decide +kernel)
  have parameters : Records ([.mark .openRound, .mark .closeRound].map (Word.token · none)) [] :=
    .of_plain (by decide +kernel) rfl (by decide +kernel)
  have block : Records ([.mark .openCurly, .mark .closeCurly].map (Word.token · none)) [] :=
    .of_plain (by decide +kernel) rfl (by decide +kernel)
  have semicolon : Records [(Word.mark .semicolon).token none] [] :=
    .of_plain (by decide +kernel) rfl (by decide +kernel)
  have extending : Records [Word.extendsKeyword.token none] [] :=
    .of_plain (by decide +kernel) rfl (by decide +kernel)
  rw [words, List.map_append]
  refine modified.append ?_
  cases form with
  | constValue => exact (records_named (by decide +kernel) name).append value
  | letValue => exact (records_named (by decide +kernel) name).append value
  | plainFunction =>
    exact ((records_named (by decide +kernel) name).append parameters).append block
  | generator => exact ((records_starred name).append parameters).append block
  | plainClass => exact (records_named (by decide +kernel) name).append block
  | subclass base =>
    exact (((records_named (by decide +kernel) name).append extending).append
      (records_name base)).append block
  | constEnum member =>
    have enum : Records [Word.constKeyword.token none, Word.enumKeyword.token none] ["enum"] :=
      .of_keyword (by decide +kernel) rfl (by decide +kernel)
    exact (enum.append (records_name name)).append (records_members member)
  | classValue base =>
    have unnamed : Records
        ([.mark .equals, .classKeyword, .extendsKeyword].map (Word.token · none)) ["extends"] :=
      .of_head (by decide +kernel) (by decide +kernel) rfl (by rintro _ ⟨⟩; decide +kernel)
    exact (((records_named (by decide +kernel) name).append unnamed).append
      (records_name base)).append (block.append semicolon)
  | functionValue =>
    have unnamed : Records ([.mark .equals, .functionKeyword, .mark .openRound,
        .mark .closeRound].map (Word.token · none)) [] :=
      .of_head (by decide +kernel) (by decide +kernel) rfl (by rintro _ ⟨⟩; decide +kernel)
    exact ((records_named (by decide +kernel) name).append unnamed).append
      (block.append semicolon)

/-- What a scan records of a program. -/
theorem records_program (program : List Declaration) :
    Records ((program.flatMap words).map (·.token none)) (program.flatMap recorded) := by
  induction program with
  | nil => exact .nil
  | cons declaration program ih =>
    rw [List.flatMap_cons, List.flatMap_cons, List.map_append]
    exact declaration.records.append ih

/-- Whether the declaration is a `const enum`. -/
def isEnum (declaration : Declaration) : Bool :=
  match declaration.form with
  | .constEnum _ => true
  | _ => false

/-- Whether the declaration is a constant with a class that has no name. -/
def isClassValue (declaration : Declaration) : Bool :=
  match declaration.form with
  | .classValue _ => true
  | _ => false

/-- A word that some declarations record once, and the others not at all. -/
private theorem count_recorded {word : String} {records : Declaration → Bool}
    (each : ∀ declaration : Declaration,
      declaration.recorded.count word = if records declaration then 1 else 0)
    (program : List Declaration) :
    (program.flatMap recorded).count word = program.countP records := by
  induction program with
  | nil => rfl
  | cons declaration program ih =>
    rw [List.flatMap_cons, List.count_append, each, ih, List.countP_cons, Nat.add_comm]

theorem count_enum_recorded (program : List Declaration) :
    (program.flatMap recorded).count "enum" = program.countP isEnum := by
  refine count_recorded (fun declaration => ?_) program
  obtain ⟨exported, form, name⟩ := declaration
  cases form <;> simp [recorded, Form.recorded, isEnum, name.apart]

theorem count_extends_recorded (program : List Declaration) :
    (program.flatMap recorded).count "extends" = program.countP isClassValue := by
  refine count_recorded (fun declaration => ?_) program
  obtain ⟨exported, form, name⟩ := declaration
  cases form <;> simp [recorded, Form.recorded, isClassValue, name.apart]

theorem mem_recorded_iff {declaration : Declaration} {name : Name} :
    name.text ∈ declaration.recorded ↔
      declaration.isEnum = false ∧ name.text = declaration.name.text := by
  obtain ⟨exported, form, other⟩ := declaration
  cases form <;> simp [recorded, Form.recorded, isEnum, name.apart]

theorem count_recorded_le (program : List Declaration) {text : String}
    (other : text ≠ "enum" ∧ text ≠ "extends") :
    (program.flatMap recorded).count text ≤ (program.map (·.name.text)).count text := by
  induction program with
  | nil => exact Nat.le_refl 0
  | cons declaration program ih =>
    obtain ⟨exported, form, name⟩ := declaration
    have each : (Form.recorded name.text form).count text ≤ [name.text].count text := by
      cases form <;> simp [Form.recorded, List.count_cons, Ne.symm other.1, Ne.symm other.2]
    rw [List.flatMap_cons, List.count_append, List.map_cons, ← List.singleton_append,
      List.count_append]
    exact Nat.add_le_add each ih

end Declaration

/-! ## Reports -/

/-- The text of a layout, with a gap at its end. -/
def Layout.text (layout : Layout) (final : Gap) : String :=
  String.ofList (layout.chars ++ final.chars)

/-- The error about a name that is declared again. -/
def redeclaration (file : Path) (name : String) (position : Position) : Diagnostic :=
  (((Diagnostic.error ("Cannot redeclare block-scoped variable '" ++ name ++ "'.")).withCode
    2451).withFile file).withPosition (some position)

/-- Tokens of a layout stand behind a beginning of it. -/
theorem Layout.exists_isPrefix_of_mem_tokensAt {layout : Layout} {offset : Nat} {t : Token}
    (member : t ∈ layout.tokensAt offset) :
    ∃ before, before <+: layout.chars ∧ t.offset = some (offset + byteLength before) := by
  induction layout generalizing offset with
  | nil => cases member
  | cons piece layout ih =>
    obtain ⟨gap, word⟩ := piece
    rw [chars, List.flatMap_cons]
    rcases List.mem_cons.mp member with rfl | later
    · exact ⟨gap.chars, by simp, rfl⟩
    · obtain ⟨before, isPrefix, placed⟩ := ih later
      refine ⟨gap.chars ++ word.chars ++ before, ?_, ?_⟩
      · exact (List.prefix_append_right_inj _).mpr isPrefix
      · rw [placed, byteLength_append, byteLength_append, Nat.add_assoc, Nat.add_assoc,
          Nat.add_assoc]

/-- The error about a token of a text. -/
def report (file : Path) (cs : List Char) (t : Token) : Diagnostic :=
  redeclaration file t.text ((t.offset.bind (Position.ofOffset? cs)).getD .start)

theorem report_eq {cs before : List Char} (isPrefix : before <+: cs) {t : Token}
    (placed : t.offset = some (byteLength before)) (file : Path) :
    report file cs t = redeclaration file t.text (Position.after before) := by
  obtain ⟨behind, rfl⟩ := isPrefix
  simp [report, placed, Position.ofOffset?, takeBytes?_byteLength]

/-- The recorded names that repeat one before them are reported where they stand. -/
theorem redeclarations_parse (file : Path) {layout : Layout} (parted : layout.Parted)
    (final : Gap) :
    redeclarations (Tree.parse file (layout.text final)) =
      (repeats [] (recordedFrom 0 none (layout.tokensAt 0))).map (report file layout.chars) := by
  have text : (layout.text final).toList = layout.chars ++ final.chars := String.toList_ofList
  have means : significant (Tree.parse file (layout.text final)).tokens = layout.tokensAt 0 := by
    rw [Tree.parse, text]
    exact significant_tokensFrom parted final 0
  rw [redeclarations, redeclared, redeclaredFrom_eq, means]
  refine List.map_congr_left fun t repeated => ?_
  obtain ⟨before, isPrefix, placed⟩ := Layout.exists_isPrefix_of_mem_tokensAt
    (mem_of_mem_recordedFrom ((repeats_sublist _ _).mem repeated))
  rw [Nat.zero_add] at placed
  rw [report_eq isPrefix placed, placed]
  obtain ⟨behind, whole⟩ := isPrefix
  have split : (layout.text final).toList = before ++ (behind ++ final.chars) := by
    rw [text, ← whole, List.append_assoc]
  rw [Option.map_some, Tree.location_parse split, position_after]
  rfl

section Distinct

variable {program : List Declaration} (distinct : (program.map (·.name.text)).Nodup)
  {names : List Token} (recorded : names.map (·.text) = program.flatMap Declaration.recorded)
include distinct recorded

/-- Names that differ are not repeated. -/
theorem text_of_mem_repeats {t : Token} (member : t ∈ repeats [] names) :
    t.text = "enum" ∨ t.text = "extends" := by
  by_contra other
  rw [not_or] at other
  have once := (Declaration.count_recorded_le program other).trans
    (List.nodup_iff_count_le_one.mp distinct t.text)
  have counted := countP_repeats [] names t.text
  rw [recorded, if_neg List.not_mem_nil, Nat.sub_eq_zero_of_le once, List.countP_eq_zero] at counted
  exact counted t member (decide_eq_true rfl)

theorem length_repeats :
    (repeats [] names).length = (program.countP Declaration.isEnum - 1) +
      (program.countP Declaration.isClassValue - 1) := by
  have extending : (repeats [] names).countP (fun t => ¬ decide (t.text = "enum")) =
      (repeats [] names).countP (·.text = "extends") := by
    refine List.countP_congr fun t member => ?_
    rcases text_of_mem_repeats distinct recorded member with same | same <;> simp [same]
  rw [List.length_eq_countP_add_countP (·.text = "enum"), extending, countP_repeats,
    countP_repeats, recorded, Declaration.count_enum_recorded, Declaration.count_extends_recorded]
  simp

/-- The name of a declaration is recorded, unless it is a `const enum`. -/
theorem mem_texts_iff {declaration : Declaration} (member : declaration ∈ program) :
    declaration.name.text ∈ names.map (·.text) ↔ declaration.isEnum = false := by
  rw [recorded, List.mem_flatMap]
  constructor
  · rintro ⟨other, member', known⟩
    obtain ⟨proper, same⟩ := Declaration.mem_recorded_iff.mp known
    rwa [List.inj_on_of_nodup_map distinct member member' same]
  · exact fun proper => ⟨declaration, member, Declaration.mem_recorded_iff.mpr ⟨proper, rfl⟩⟩

end Distinct

/-- What is reported about a beginning of a text is reported about the text. -/
theorem report_congr {layout more : Layout} {names : List Token}
    (placed : ∀ t ∈ names, t ∈ layout.tokensAt 0) (file : Path) :
    names.map (report file (layout ++ more).chars) = names.map (report file layout.chars) := by
  refine List.map_congr_left fun t member => ?_
  obtain ⟨before, isPrefix, offset⟩ := Layout.exists_isPrefix_of_mem_tokensAt (placed t member)
  rw [Nat.zero_add] at offset
  have longer : before <+: (layout ++ more).chars := by
    rw [Layout.chars, List.flatMap_append]
    exact isPrefix.trans (List.prefix_append ..)
  rw [report_eq isPrefix offset, report_eq longer offset]

/-- A scan records the name of a constant, at the end of a layout. -/
theorem recordedFrom_constant {name : Name} {gap gap' : Gap} {rest : Layout}
    (value : rest.words = [.mark .equals, .one, .mark .semicolon]) (offset : Nat)
    {previous : Option Token} (undotted : previous.any (·.isPunct ".") = false) :
    recordedFrom 0 previous
        (Layout.tokensAt offset ((gap, .constKeyword) :: (gap', name.word) :: rest)) =
      [name.word.token (some (offset + byteLength (gap.chars ++ Word.constKeyword.chars ++
        gap'.chars)))] := by
  have plain (offset : Nat) : Records (Layout.tokensAt offset rest) [] := by
    refine .of_bare ?_
    rw [Layout.map_bare_tokensAt, value]
    exact .of_plain (by decide +kernel) rfl (by decide +kernel)
  have keyword (place : Option Nat) : (Word.constKeyword.token place).declares = true := by
    change (Word.constKeyword.token none).declares = true
    decide +kernel
  simp only [byteLength_append, ← Nat.add_assoc]
  exact Records.recordedFrom_keyword_append (keyword _) rfl (name.declares _) (plain _) undotted

/-- Of declarations with different names, the `const enum`s but the first are reported as `enum`,
and the classes without a name but the first as `extends`. A constant behind them, with the name of
one of them, is reported where that name stands, unless that one is a `const enum`. -/
theorem redeclarations_of_distinct (file : Path) {program : List Declaration}
    (distinct : (program.map (·.name.text)).Nodup) {layout : Layout}
    (spelled : layout.words = program.flatMap Declaration.words) (parted : layout.Parted)
    (final : Gap) :
    let diagnostics := redeclarations (Tree.parse file (layout.text final))
    diagnostics.length =
        (program.countP Declaration.isEnum - 1) + (program.countP Declaration.isClassValue - 1) ∧
      (∀ diagnostic ∈ diagnostics, ∃ position, diagnostic = redeclaration file "enum" position ∨
        diagnostic = redeclaration file "extends" position) ∧
      ∀ again ∈ program, ∀ (gap gap' : Gap) (rest : Layout),
        rest.words = [.mark .equals, .one, .mark .semicolon] →
        Layout.Parted (layout ++ (gap, .constKeyword) :: (gap', again.name.word) :: rest) →
        ∀ final' : Gap,
          redeclarations (Tree.parse file (Layout.text
              (layout ++ (gap, .constKeyword) :: (gap', again.name.word) :: rest) final')) =
            diagnostics ++
              if again.isEnum then []
              else [redeclaration file again.name.text (Position.after (layout.chars ++
                (gap.chars ++ Word.constKeyword.chars ++ gap'.chars)))] := by
  intro diagnostics
  have records : Records (layout.tokensAt 0) (program.flatMap Declaration.recorded) := by
    refine .of_bare ?_
    rw [Layout.map_bare_tokensAt, spelled]
    exact Declaration.records_program program
  have recorded := records.recorded none rfl
  have reported : diagnostics = _ := redeclarations_parse file parted final
  refine ⟨?_, fun diagnostic member => ?_, ?_⟩
  · rw [reported, List.length_map, length_repeats distinct recorded]
  · rw [reported] at member
    obtain ⟨t, repeated, rfl⟩ := List.mem_map.mp member
    exact ⟨_, (text_of_mem_repeats distinct recorded repeated).imp
      (fun same => by rw [← same]; rfl) fun same => by rw [← same]; rfl⟩
  · intro again member gap gap' rest value parted' final'
    obtain ⟨before, undotted, split⟩ := records.recordedFrom_append none rfl
      (Layout.tokensAt (0 + byteLength layout.chars)
        ((gap, .constKeyword) :: (gap', again.name.word) :: rest))
    have placed : ∀ t ∈ repeats [] (recordedFrom 0 none (layout.tokensAt 0)),
        t ∈ layout.tokensAt 0 := fun t member =>
      mem_of_mem_recordedFrom ((repeats_sublist _ _).mem member)
    rw [redeclarations_parse file parted' final', Layout.tokensAt_append, split,
      recordedFrom_constant value _ undotted, repeats_append, List.map_append, report_congr placed,
      ← reported]
    congr 1
    have known := mem_texts_iff distinct recorded member
    rw [Nat.zero_add, ← byteLength_append]
    have isPrefix : layout.chars ++ (gap.chars ++ Word.constKeyword.chars ++ gap'.chars) <+:
        Layout.chars (layout ++ (gap, .constKeyword) :: (gap', again.name.word) :: rest) := by
      refine ⟨again.name.word.chars ++ rest.chars, ?_⟩
      simp [Layout.chars]
    have reads (place : Option Nat) : (again.name.word.token place).text = again.name.text := rfl
    cases enum : again.isEnum with
    | true =>
      have fresh : again.name.text ∉
          (recordedFrom 0 none (layout.tokensAt 0)).map (·.text) := by
        rw [known, enum]
        decide
      rw [repeats, reads, if_neg (by simpa using fresh)]
      rfl
    | false =>
      have seen := known.mpr enum
      rw [repeats, reads, if_pos (by simpa using seen), repeats, List.map_singleton,
        report_eq isPrefix rfl]
      rfl

section Enums

private def nameE : Name := ⟨⟨'E', [], rfl, rfl⟩, by decide +kernel⟩

private def nameF : Name := ⟨⟨'F', [], rfl, rfl⟩, by decide +kernel⟩

private def nameG : Name := ⟨⟨'G', [], rfl, rfl⟩, by decide +kernel⟩

private def enums : List Declaration :=
  [⟨false, .constEnum ⟨'A', [], rfl, rfl⟩, nameE⟩,
    ⟨true, .constEnum ⟨'A', [], rfl, rfl⟩, nameF⟩, ⟨false, .letValue, nameG⟩]

private def lined (words : List Word) : Layout :=
  words.map ([.blank ' ' rfl], ·)

/-- Two enums with different names are reported, and a constant with the name of one of them is not;
but one with the name of another declaration is. -/
theorem redeclarations_of_enums :
    let path : Path := ⟨true, ["a.ts"]⟩
    let layout := lined (enums.flatMap Declaration.words)
    let behind (name : Name) : Layout :=
      ([.blank '\n'], .constKeyword) :: ([.blank ' '], name.word) ::
        lined [.mark .equals, .one, .mark .semicolon]
    let reported := redeclarations (Tree.parse path (layout.text []))
    reported.length = 1 ∧
      redeclarations (Tree.parse path (Layout.text (layout ++ behind nameE) [])) = reported ∧
      redeclarations (Tree.parse path (Layout.text (layout ++ behind nameG) [])) =
        reported ++ [redeclaration path "G" ⟨2, 7⟩] := by
  intro path layout behind reported
  have distinct : (enums.map (·.name.text)).Nodup := by decide +kernel
  have parted : layout.Parted := by
    unfold Layout.Parted
    decide +kernel
  obtain ⟨length, -, again⟩ := redeclarations_of_distinct path distinct rfl parted []
  refine ⟨length, ?_, ?_⟩
  · have same := again enums[0] (by simp [enums]) [.blank '\n'] [.blank ' ']
      (lined [.mark .equals, .one, .mark .semicolon]) rfl
      (by unfold Layout.Parted; decide +kernel) []
    rwa [show enums[0].isEnum = true from rfl, if_pos rfl, List.append_nil] at same
  · have more := again enums[2] (by simp [enums]) [.blank '\n'] [.blank ' ']
      (lined [.mark .equals, .one, .mark .semicolon]) rfl
      (by unfold Layout.Parted; decide +kernel) []
    exact more

end Enums

end Recast.Script
