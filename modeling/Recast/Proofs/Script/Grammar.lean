import Recast.Proofs.Script.Layout

/-! # A grammar of declarations

Types are spelled by names, type arguments, unions, intersections, arrays, objects, functions and
strings, and programs are made of aliases, interfaces and constants. A spelled type closes the
brackets that it opens, has semicolons only inside of them, and never a name directly behind a name
(`IsType.balanced`). That is all that the eraser depends on.
-/

namespace Recast.Script

/-! ## Types -/

/-- A name with its type: a member of an object, or a parameter of a function. -/
structure Field where
  name : Identifier
  type : List Word

namespace Field

def words (field : Field) : List Word :=
  .name field.name :: .mark .colon :: field.type

/-- Parameters, with commas between them. -/
def parameters (fields : List Field) : List Word :=
  [.mark .comma].intercalate (fields.map words)

/-- Members, each with a semicolon behind it. -/
def members (fields : List Field) : List Word :=
  fields.flatMap fun field => field.words ++ [.mark .semicolon]

end Field

/-- The words of a type. -/
inductive IsType : List Word → Prop where
  | name (identifier : Identifier) : IsType [.name identifier]
  | generic (identifier : Identifier) {arguments : List (List Word)} (some : arguments ≠ [])
      (all : ∀ argument ∈ arguments, IsType argument) :
      IsType (.name identifier :: .mark .less ::
        ([.mark .comma].intercalate arguments ++ [.mark .greater]))
  | union {left right : List Word} (one : IsType left) (other : IsType right) :
    IsType (left ++ .mark .bar :: right)
  | intersection {left right : List Word} (one : IsType left) (other : IsType right) :
      IsType (left ++ .mark .ampersand :: right)
  | array {element : List Word} (one : IsType element) :
    IsType (element ++ [.mark .openSquare, .mark .closeSquare])
  | object {fields : List Field} (all : ∀ field ∈ fields, IsType field.type) :
      IsType (.mark .openCurly :: (Field.members fields ++ [.mark .closeCurly]))
  | function {fields : List Field} {result : List Word} (some : fields ≠ [])
      (all : ∀ field ∈ fields, IsType field.type) (one : IsType result) :
      IsType (.mark .openRound :: (Field.parameters fields ++ .mark .closeRound :: .mark .equals ::
        .mark .greater :: result))
  | literal (string : Quoted) : IsType [.quoted string]

/-! ## Places

A place in a row of words is described by the number of open brackets and by the word before it.
-/

structure Place where
  depth : Nat
  behindName : Bool

namespace Place

/-- The place behind a word. There is none behind a bracket that closes nothing and behind a name
that follows a name. Outside brackets there is none behind a semicolon, unless these are free. -/
def step (free : Bool) (place : Place) : Word → Option Place
  | .name _ => if place.behindName then none else some ⟨place.depth, true⟩
  | .numeral _ | .quoted _ => some ⟨place.depth, false⟩
  | .mark sign =>
    match sign.role with
    | .opens _ => some ⟨place.depth + 1, false⟩
    | .closes _ => if place.depth = 0 then none else some ⟨place.depth - 1, false⟩
    | .none =>
      if sign = .semicolon ∧ place.depth = 0 ∧ free = false then none else some ⟨place.depth, false⟩

/-- The place behind words. -/
def walk (free : Bool) (place : Place) (words : List Word) : Option Place :=
  words.foldlM (step free) place

variable {free : Bool} {place : Place} {depth : Nat}

@[simp] theorem walk_nil : walk free place [] = some place := rfl

@[simp] theorem walk_cons (word : Word) (words : List Word) :
    walk free place (word :: words) = (place.step free word).bind fun next =>
      walk free next words := rfl

@[simp] theorem walk_append (front back : List Word) :
    walk free place (front ++ back) = (walk free place front).bind fun next =>
      walk free next back :=
  List.foldlM_append

end Place

/-- Words that close the brackets they open, and no others. -/
def Balanced (words : List Word) : Prop :=
  ∀ free depth, ∃ named, Place.walk free ⟨depth, false⟩ words = some ⟨depth, named⟩

theorem Balanced.intercalate {parts : List (List Word)} (some : parts ≠ [])
    (all : ∀ part ∈ parts, Balanced part) : Balanced ([.mark .comma].intercalate parts) := by
  intro free depth
  induction parts with
  | nil => exact absurd rfl some
  | cons part parts ih =>
    obtain ⟨named, first⟩ := all part List.mem_cons_self free depth
    cases parts with
    | nil => exact ⟨named, by simpa [List.intercalate] using first⟩
    | cons next parts =>
      obtain ⟨later, rest⟩ := ih (List.cons_ne_nil next parts) fun other inside =>
        all other (List.mem_cons_of_mem _ inside)
      refine ⟨later, ?_⟩
      rw [List.intercalate_cons_cons, Place.walk_append, Place.walk_append, first]
      simpa [Place.step, Mark.role] using rest

theorem Field.balanced {field : Field} (type : Balanced field.type) : Balanced field.words := by
  intro free depth
  obtain ⟨named, walked⟩ := type free depth
  exact ⟨named, by simpa [Field.words, Place.step, Mark.role] using walked⟩

/-- Members stay at their depth of brackets, where they have semicolons. -/
theorem Field.walk_members {fields : List Field} (all : ∀ field ∈ fields, Balanced field.type)
    (free : Bool) (depth : Nat) (inside : depth = 0 → free = true) :
    Place.walk free ⟨depth, false⟩ (Field.members fields) = some ⟨depth, false⟩ := by
  induction fields with
  | nil => rfl
  | cons field fields ih =>
    obtain ⟨named, walked⟩ := Field.balanced (all field List.mem_cons_self) free depth
    have rest := ih fun other member => all other (List.mem_cons_of_mem _ member)
    have closed : Place.step free ⟨depth, named⟩ (.mark .semicolon) = some ⟨depth, false⟩ := by
      simpa [Place.step, Mark.role] using inside
    have split : Field.members (field :: fields) =
        field.words ++ [.mark .semicolon] ++ Field.members fields := rfl
    rw [split, Place.walk_append, Place.walk_append, walked]
    simpa [closed] using rest

theorem IsType.balanced {words : List Word} (type : IsType words) : Balanced words := by
  induction type with
  | name identifier => exact fun free depth => ⟨true, rfl⟩
  | generic identifier some all ih =>
    intro free depth
    obtain ⟨named, walked⟩ := Balanced.intercalate some ih free depth
    exact ⟨false, by simp [Place.step, Mark.role, walked]⟩
  | union one other left right =>
    intro free depth
    obtain ⟨named, walked⟩ := left free depth
    obtain ⟨later, rest⟩ := right free depth
    exact ⟨later, by simp [Place.step, Mark.role, walked, rest]⟩
  | intersection one other left right =>
    intro free depth
    obtain ⟨named, walked⟩ := left free depth
    obtain ⟨later, rest⟩ := right free depth
    exact ⟨later, by simp [Place.step, Mark.role, walked, rest]⟩
  | array one element =>
    intro free depth
    obtain ⟨named, walked⟩ := element free depth
    exact ⟨false, by simp [Place.step, Mark.role, walked]⟩
  | object all ih =>
    intro free depth
    have walked := Field.walk_members ih free (depth + 1) (by simp)
    exact ⟨false, by simp [Place.step, Mark.role, walked]⟩
  | @function fields result some all one ih result_ih =>
    intro free depth
    have parameters : Balanced (Field.parameters fields) := by
      refine Balanced.intercalate (by simpa using some) ?_
      intro part member
      obtain ⟨field, inside, rfl⟩ := List.mem_map.mp member
      exact Field.balanced (ih field inside)
    obtain ⟨named, walked⟩ := parameters free (depth + 1)
    obtain ⟨later, rest⟩ := result_ih free depth
    exact ⟨later, by simp [Place.step, Mark.role, walked, rest]⟩
  | literal string => exact fun free depth => ⟨false, rfl⟩

end Recast.Script
