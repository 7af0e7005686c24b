import Recast.Emit.Rendering
import Recast.Proofs.SourceMap.Printing

/-! # Converting line endings

Conversion drops the carriage return of each line ending and may put one before each line feed. So
lines stay lines, and what stands behind the last line feed stays as it is: the place behind a text
stays the same (`behind_converted`). Inside a text a place is kept wherever it does not cut a line
ending in two (`keepsPlace_iff`).
-/

namespace Recast.Emit

open Text SourceMap

/-- The characters without the carriage returns of line endings. -/
def withoutReturns (cs : List Char) : List Char :=
  replaceChars ['\r', '\n'] ['\n'] cs

/-- The characters with a carriage return before each line feed. -/
def withReturns (cs : List Char) : List Char :=
  replaceChars ['\n'] ['\r', '\n'] cs

/-- The characters with the line endings that are wanted. -/
def converted : Option NewLine → List Char → List Char
  | none, cs => cs
  | some .lf, cs => withoutReturns cs
  | some .crlf, cs => withReturns (withoutReturns cs)

theorem toList_convertBreaks (newLine : Option NewLine) (text : String) :
    (convertBreaks newLine text).toList = converted newLine text.toList := by
  cases newLine with
  | none => rfl
  | some newLine => cases newLine <;> simp [convertBreaks, converted, replace, withoutReturns,
      withReturns]

section Returns

@[simp] theorem withoutReturns_nil : withoutReturns [] = [] := rfl

/-- A carriage return before a line feed is dropped, and every other character stays. -/
theorem withoutReturns_cons (c : Char) (cs : List Char) :
    withoutReturns (c :: cs) =
      if c = '\r' ∧ cs.head? = some '\n' then withoutReturns cs else c :: withoutReturns cs := by
  by_cases ending : c = '\r' ∧ cs.head? = some '\n'
  · obtain ⟨rfl, first⟩ := ending
    obtain ⟨rest, rfl⟩ := List.head?_eq_some_iff.mp first
    simp [withoutReturns, replaceChars, replaceSkipping, List.isPrefixOf]
  · have apart : ['\r', '\n'].isPrefixOf (c :: cs) = false := by
      cases cs with
      | nil => simp [List.isPrefixOf]
      | cons d ds =>
        refine Bool.eq_false_iff.mpr fun both => ?_
        simp only [List.isPrefixOf, Bool.and_true, Bool.and_eq_true, beq_iff_eq] at both
        exact ending ⟨both.1.symm, congrArg some both.2.symm⟩
    rw [if_neg ending]
    simp [withoutReturns, replaceChars, replaceSkipping, apart]

/-- A carriage return is put before each line feed, and every character stays. -/
theorem withReturns_eq_flatMap (cs : List Char) :
    withReturns cs = cs.flatMap fun c => if c = '\n' then ['\r', '\n'] else [c] := by
  induction cs with
  | nil => rfl
  | cons c cs ih =>
    rw [List.flatMap_cons, ← ih]
    by_cases ends : c = '\n'
    · simp [withReturns, replaceChars, replaceSkipping, List.isPrefixOf, ends]
    · simp [withReturns, replaceChars, replaceSkipping, List.isPrefixOf, ends, Ne.symm ends]

end Returns

section Places

/-- Texts of as many lines and with the same last line are alike behind one more character. -/
private theorem alike_cons (c : Char) {cs ds : List Char}
    (alike : cs.count '\n' = ds.count '\n' ∧ lastLine cs = lastLine ds) :
    (c :: cs).count '\n' = (c :: ds).count '\n' ∧ lastLine (c :: cs) = lastLine (c :: ds) := by
  obtain ⟨count, last⟩ := alike
  have broken : '\n' ∈ cs ↔ '\n' ∈ ds := by
    rw [← List.count_pos_iff, ← List.count_pos_iff, count]
  constructor
  · rw [List.count_cons, List.count_cons, count]
  · rw [lastLine_cons, lastLine_cons, last]
    simp only [List.mem_cons, broken]
    split
    · rfl
    · next single =>
      rw [not_or] at single
      have same : cs = ds := by
        rw [← lastLine_of_not_mem single.2, ← last,
          lastLine_of_not_mem fun member => single.2 (broken.mp member)]
      rw [same]

private theorem kept_withoutReturns (cs : List Char) :
    (withoutReturns cs).count '\n' = cs.count '\n' ∧
      lastLine (withoutReturns cs) = lastLine cs := by
  induction cs with
  | nil => exact ⟨rfl, rfl⟩
  | cons c cs ih =>
    rw [withoutReturns_cons]
    split
    · next ending =>
      -- The line feed behind it already cuts the return off from the last line.
      obtain ⟨rfl, first⟩ := ending
      have member : '\n' ∈ cs := List.mem_of_mem_head? first
      rw [List.count_cons_of_ne (by decide), lastLine_cons,
        if_pos (List.mem_cons_of_mem _ member)]
      exact ih
    · exact alike_cons c ih

private theorem kept_withReturns (cs : List Char) :
    (withReturns cs).count '\n' = cs.count '\n' ∧
      lastLine (withReturns cs) = lastLine cs := by
  rw [withReturns_eq_flatMap]
  induction cs with
  | nil => exact ⟨rfl, rfl⟩
  | cons c cs ih =>
    rw [List.flatMap_cons]
    split
    · next ends =>
      obtain ⟨count, last⟩ := alike_cons '\n' ih
      rw [ends, List.cons_append, List.singleton_append]
      constructor
      · rw [List.count_cons_of_ne (by decide), count]
      · rw [lastLine_cons, if_pos (by simp), last]
    · exact alike_cons c ih

/-- Conversion keeps the place behind a text. -/
theorem behind_converted (newLine : Option NewLine) (cs : List Char) :
    Spot.behind (converted newLine cs) = Spot.behind cs := by
  obtain ⟨count, last⟩ := kept_withoutReturns cs
  obtain ⟨count', last'⟩ := kept_withReturns (withoutReturns cs)
  cases newLine with
  | none => rfl
  | some newLine =>
    cases newLine
    · rw [converted, Spot.behind, count, last, Spot.behind]
    · rw [converted, Spot.behind, count', last', count, last, Spot.behind]

theorem count_converted (newLine : Option NewLine) (cs : List Char) :
    (converted newLine cs).count '\n' = cs.count '\n' :=
  congrArg Spot.line (behind_converted newLine cs)

end Places

section Cuts

/-- A line ending is cut in two between the texts. -/
def SplitsBreak (front behind : List Char) : Prop :=
  front.getLast? = some '\r' ∧ behind.head? = some '\n'

/-- When both texts are converted as one, the one behind begins where it began before. -/
def KeepsPlace (newLine : Option NewLine) (front behind : String) : Prop :=
  ∃ start, convertBreaks newLine (front ++ behind) = start ++ convertBreaks newLine behind ∧
    Spot.behind start.toList = Spot.behind front.toList

variable {front behind : List Char}

private theorem withoutReturns_append (whole : ¬SplitsBreak front behind) :
    withoutReturns (front ++ behind) = withoutReturns front ++ withoutReturns behind := by
  induction front with
  | nil => rfl
  | cons c front ih =>
    rw [List.cons_append, withoutReturns_cons, withoutReturns_cons]
    cases front with
    | nil =>
      have apart : ¬(c = '\r' ∧ behind.head? = some '\n') := by
        rintro ⟨rfl, feed⟩
        exact whole ⟨rfl, feed⟩
      have alone : ¬(c = '\r' ∧ ([] : List Char).head? = some '\n') := by simp
      rw [List.nil_append, if_neg apart, if_neg alone]
      rfl
    | cons d front =>
      rw [ih fun cut => whole ⟨by rw [List.getLast?_cons_cons]; exact cut.1, cut.2⟩]
      rw [List.cons_append, List.head?_cons, List.head?_cons]
      split
      · rfl
      · rw [List.cons_append]

/-- Texts between which no line ending is cut are converted one by one. -/
theorem converted_append (newLine : Option NewLine) (whole : ¬SplitsBreak front behind) :
    converted newLine (front ++ behind) = converted newLine front ++ converted newLine behind := by
  cases newLine with
  | none => rfl
  | some newLine =>
    cases newLine
    · exact withoutReturns_append whole
    · simp only [converted, withoutReturns_append whole, withReturns_eq_flatMap,
        List.flatMap_append]

/-- Of a line ending that is cut in two, the carriage return is dropped all the same. -/
private theorem converted_of_cut {newLine : Option NewLine} (wanted : newLine ≠ none)
    (begins : behind.head? = some '\n') :
    converted newLine (front ++ ['\r'] ++ behind) =
      converted newLine front ++ converted newLine behind := by
  have feed : withoutReturns ('\r' :: behind) = withoutReturns behind := by
    rw [withoutReturns_cons, if_pos ⟨rfl, begins⟩]
  have dropped : converted newLine ('\r' :: behind) = converted newLine behind := by
    cases newLine with
    | none => exact absurd rfl wanted
    | some newLine => cases newLine <;> simp only [converted, feed]
  have apart : ¬SplitsBreak front ('\r' :: behind) := by simp [SplitsBreak]
  rw [List.append_assoc, List.singleton_append, converted_append newLine apart, dropped]

theorem keepsPlace_iff (newLine : Option NewLine) (front behind : String) :
    KeepsPlace newLine front behind ↔
      newLine = none ∨ ¬SplitsBreak front.toList behind.toList := by
  constructor
  · rintro ⟨start, text, place⟩
    by_contra lost
    rw [not_or, not_not] at lost
    obtain ⟨wanted, ends, begins⟩ := lost
    obtain ⟨chars, parts⟩ := List.getLast?_eq_some_iff.mp ends
    -- What precedes the text behind is converted without the carriage return at its end, so it
    -- ends one column earlier.
    have known := congrArg String.toList text
    rw [toList_convertBreaks, String.toList_append, String.toList_append, toList_convertBreaks,
      parts, converted_of_cut wanted begins, List.append_cancel_right_eq] at known
    rw [← known, behind_converted, parts, Spot.behind_concat, if_neg (by decide)] at place
    have column := congrArg Spot.column place
    simp [units16] at column
  · intro kept
    refine ⟨convertBreaks newLine front, ?_, ?_⟩
    · apply String.toList_injective
      rw [toList_convertBreaks, String.toList_append, String.toList_append, toList_convertBreaks,
        toList_convertBreaks]
      rcases kept with rfl | whole
      · rfl
      · exact converted_append newLine whole
    · rw [toList_convertBreaks, behind_converted]

end Cuts

end Recast.Emit
