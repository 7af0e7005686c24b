import Mathlib.Data.List.Induction
import Mathlib.Data.List.TakeWhile
import Recast.Text.Pieces

/-! # Pieces and lines of a text

Pieces without separator are cut apart again after they were joined. Of the characters before a
place in a text, the line breaks number its line, and those behind the last break (`lastLine`) are
what stands before it on that line (`exists_getElem?_splitChars`).
-/

namespace Recast.Text

section Splitting

variable {separator : Char}

theorem splitChars_of_not_mem {cs : List Char} (free : separator ∉ cs) :
    splitChars separator cs = [cs] := by
  induction cs with
  | nil => rfl
  | cons c cs ih =>
    rw [List.mem_cons, not_or] at free
    rw [splitChars, if_neg (Ne.symm free.1), ih free.2]

/-- A separator divides the pieces before it from those behind it. -/
theorem splitChars_append_cons (before behind : List Char) :
    splitChars separator (before ++ separator :: behind) =
      splitChars separator before ++ splitChars separator behind := by
  induction before with
  | nil => simp [splitChars]
  | cons c before ih =>
    rw [List.cons_append, splitChars, splitChars, ih]
    split
    · rw [List.cons_append]
    · cases pieces : splitChars separator before with
      | nil => exact absurd pieces (splitChars_ne_nil separator before)
      | cons piece pieces => rfl

/-- What holds no separator belongs to the piece behind it. -/
theorem exists_splitChars_append {piece : List Char} (free : separator ∉ piece)
    (behind : List Char) : ∃ first others, splitChars separator behind = first :: others ∧
      splitChars separator (piece ++ behind) = (piece ++ first) :: others := by
  induction piece with
  | nil =>
    obtain ⟨first, others, cut⟩ := List.exists_cons_of_ne_nil (splitChars_ne_nil separator behind)
    exact ⟨first, others, cut, cut⟩
  | cons c piece ih =>
    rw [List.mem_cons, not_or] at free
    obtain ⟨first, others, cut, whole⟩ := ih free.2
    refine ⟨first, others, cut, ?_⟩
    rw [List.cons_append, splitChars, if_neg (Ne.symm free.1), whole, List.cons_append]

/-- Splitting undoes joining. -/
theorem splitChars_intercalate {pieces : List (List Char)} (nonempty : pieces ≠ [])
    (free : ∀ piece ∈ pieces, separator ∉ piece) :
    splitChars separator ([separator].intercalate pieces) = pieces := by
  induction pieces with
  | nil => exact absurd rfl nonempty
  | cons piece pieces ih =>
    have first := splitChars_of_not_mem (free piece (List.mem_cons_self ..))
    cases pieces with
    | nil =>
      rw [List.intercalate_singleton]
      exact first
    | cons other pieces =>
      have rest := ih (List.cons_ne_nil _ _) fun piece member =>
        free piece (List.mem_cons_of_mem _ member)
      rw [List.intercalate_cons_cons, List.append_assoc, List.singleton_append,
        splitChars_append_cons, first, rest, List.singleton_append]

/-- There is one piece more than there are separators. -/
theorem length_splitChars (cs : List Char) :
    (splitChars separator cs).length = cs.count separator + 1 := by
  induction cs with
  | nil => rfl
  | cons c cs ih =>
    rw [splitChars]
    split
    · next same => rw [List.length_cons, ih, same, List.count_cons_self]
    · next differs =>
      rw [List.count_cons_of_ne differs, ← ih]
      cases pieces : splitChars separator cs with
      | nil => exact absurd pieces (splitChars_ne_nil separator cs)
      | cons piece pieces => rfl

/-- A pattern that does not begin anywhere is not replaced. -/
theorem replaceChars_of_not_mem {pattern : List Char} (replacement : List Char) {cs : List Char}
    (free : separator ∉ cs) : replaceChars (separator :: pattern) replacement cs = cs := by
  change replaceSkipping (separator :: pattern) replacement 0 cs = cs
  induction cs with
  | nil => rfl
  | cons c cs ih =>
    rw [List.mem_cons, not_or] at free
    have other : (separator :: pattern).isPrefixOf (c :: cs) = false := by
      simp [List.isPrefixOf, free.1]
    rw [replaceSkipping, other, if_neg Bool.false_ne_true, ih free.2]

end Splitting

section Lines

/-- The characters behind the last line break. -/
def lastLine (cs : List Char) : List Char :=
  (cs.reverse.takeWhile (· ≠ '\n')).reverse

@[simp] theorem lastLine_nil : lastLine [] = [] := rfl

theorem lastLine_concat (cs : List Char) (c : Char) :
    lastLine (cs ++ [c]) = if c = '\n' then [] else lastLine cs ++ [c] := by
  rw [lastLine, List.reverse_append, List.reverse_singleton, List.singleton_append,
    List.takeWhile_cons]
  by_cases ends : c = '\n'
  · simp [ends]
  · simp [ends, lastLine]

/-- The last line of a text that is longer by one character in front. -/
theorem lastLine_cons (c : Char) (cs : List Char) :
    lastLine (c :: cs) = if '\n' ∈ c :: cs then lastLine cs else c :: cs := by
  induction cs using List.reverseRecOn with
  | nil =>
    rw [← List.nil_append [c], lastLine_concat]
    by_cases ends : c = '\n'
    · simp [ends]
    · simp [ends, Ne.symm ends]
  | append_singleton cs d ih =>
    rw [← List.cons_append, lastLine_concat, lastLine_concat, ih]
    by_cases ends : d = '\n'
    · simp [ends]
    · have broken : '\n' ∈ c :: cs ++ [d] ↔ '\n' ∈ c :: cs := by simp [Ne.symm ends]
      rw [if_neg ends, if_neg ends]
      by_cases before : '\n' ∈ c :: cs
      · rw [if_pos before, if_pos (broken.mpr before)]
      · rw [if_neg before, if_neg fun later => before (broken.mp later)]

theorem lastLine_of_not_mem {cs : List Char} (single : '\n' ∉ cs) : lastLine cs = cs := by
  cases cs with
  | nil => rfl
  | cons c cs => rw [lastLine_cons, if_neg single]

theorem break_not_mem_lastLine (cs : List Char) : '\n' ∉ lastLine cs := by
  intro member
  have stays := List.mem_takeWhile_imp (List.mem_reverse.mp member)
  exact absurd rfl (of_decide_eq_true stays)

/-- In front of the last line there is nothing, or a line break at the end. -/
theorem exists_lastLine (cs : List Char) :
    cs = lastLine cs ∨ ∃ front, cs = front ++ '\n' :: lastLine cs := by
  induction cs using List.reverseRecOn with
  | nil => exact .inl rfl
  | append_singleton cs c ih =>
    rw [lastLine_concat]
    split
    · next ends => exact .inr ⟨cs, by rw [ends]⟩
    · rcases ih with single | ⟨front, more⟩
      · exact .inl (congrArg (· ++ [c]) single)
      · refine .inr ⟨front, ?_⟩
        rw [← List.cons_append, ← List.append_assoc, ← more]

/-- What stands before a place on its line is the beginning of that line. -/
theorem exists_getElem?_splitChars (before behind : List Char) :
    ∃ rest, (splitChars '\n' (before ++ behind))[before.count '\n']? =
      some (lastLine before ++ rest) := by
  obtain ⟨rest, others, _, cut⟩ :=
    exists_splitChars_append (break_not_mem_lastLine before) behind
  have none : (lastLine before).count '\n' = 0 :=
    List.count_eq_zero_of_not_mem (break_not_mem_lastLine before)
  refine ⟨rest, ?_⟩
  rcases exists_lastLine before with single | ⟨front, more⟩
  · have whole : splitChars '\n' (before ++ behind) = (lastLine before ++ rest) :: others := by
      rw [← cut, ← single]
    rw [whole, single, none, ← single, List.getElem?_cons_zero]
  · have number : before.count '\n' = (splitChars '\n' front).length := by
      rw [more, List.count_append, List.count_cons_self, none, length_splitChars]
    have whole : splitChars '\n' (before ++ behind) =
        splitChars '\n' front ++ (lastLine before ++ rest) :: others := by
      rw [← cut, ← splitChars_append_cons, ← List.cons_append, ← List.append_assoc, ← more]
    rw [whole, number, List.getElem?_append_right (Nat.le_refl _), Nat.sub_self,
      List.getElem?_cons_zero]

end Lines

end Recast.Text
