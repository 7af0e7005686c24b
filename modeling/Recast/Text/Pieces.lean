/-!
# Cutting texts into pieces

Splitting at a separator character, joining again, and replacing every occurrence of a pattern.
-/

namespace Recast.Text

/-- The pieces between the separators; a text without separator is one piece. -/
def splitChars (separator : Char) : List Char → List (List Char)
  | [] => [[]]
  | c :: cs =>
    if c = separator then [] :: splitChars separator cs
    else
      match splitChars separator cs with
      | [] => [[c]]
      | piece :: pieces => (c :: piece) :: pieces

/-- The pieces of a text between its separators. -/
def split (separator : Char) (s : String) : List String :=
  (splitChars separator s.toList).map String.ofList

theorem splitChars_ne_nil (separator : Char) (cs : List Char) : splitChars separator cs ≠ [] := by
  cases cs with
  | nil => simp [splitChars]
  | cons c cs =>
    simp only [splitChars]
    split
    · simp
    · split <;> simp

/-- Pieces hold no separator. -/
theorem not_mem_of_mem_splitChars {separator : Char} {cs piece : List Char}
    (member : piece ∈ splitChars separator cs) : separator ∉ piece := by
  induction cs generalizing piece with
  | nil => simp_all [splitChars]
  | cons c cs ih =>
    simp only [splitChars] at member
    split at member
    · rcases List.mem_cons.mp member with rfl | member
      · simp
      · exact ih member
    · next differs =>
      split at member
      · next empty => exact absurd empty (splitChars_ne_nil _ _)
      · next head rest equal =>
        rcases List.mem_cons.mp member with rfl | member
        · have fresh := ih (equal ▸ List.mem_cons_self)
          simp only [List.mem_cons, not_or]
          exact ⟨fun same => differs same.symm, fresh⟩
        · exact ih (equal ▸ List.mem_cons_of_mem _ member)

/-- Replaces the occurrences of a nonempty pattern, leftmost first and without overlap; the first `skip`
characters belong to an occurrence that is already replaced. -/
def replaceSkipping (pattern replacement : List Char) : Nat → List Char → List Char
  | _, [] => []
  | skip + 1, _ :: cs => replaceSkipping pattern replacement skip cs
  | 0, c :: cs =>
    if pattern.isPrefixOf (c :: cs) then
      replacement ++ replaceSkipping pattern replacement (pattern.length - 1) cs
    else c :: replaceSkipping pattern replacement 0 cs

/-- Replaces every occurrence of a pattern. The empty pattern occurs before each character and at the end. -/
def replaceChars (pattern replacement cs : List Char) : List Char :=
  if pattern.isEmpty then cs.foldr (fun c rest => replacement ++ c :: rest) replacement
  else replaceSkipping pattern replacement 0 cs

/-- Replaces every occurrence of a pattern in a text. -/
def replace (pattern replacement s : String) : String :=
  String.ofList (replaceChars pattern.toList replacement.toList s.toList)

/-- Whether the pattern occurs in the text. -/
def containsChars (pattern : List Char) : List Char → Bool
  | [] => pattern.isEmpty
  | c :: cs => pattern.isPrefixOf (c :: cs) || containsChars pattern cs

/-- Whether the pattern occurs in the text. -/
def contains (pattern s : String) : Bool :=
  containsChars pattern.toList s.toList

/-- Joins texts with a separator between neighbours. -/
def joinWith (separator : String) (pieces : List String) : String :=
  separator.intercalate pieces

end Recast.Text
