import Mathlib.Data.List.Infix
import Recast.Config.Warning
import Recast.Proofs.Text.Lines

/-! # Where a text stands

A text without line breaks stands in a longer one wherever some line of it holds it, so searching line by
line finds the first line on which it stands (`lineOf_eq_some_iff`).
-/

namespace Recast.Text

variable {separator : Char} {cs piece needle : List Char} {index : Nat}

theorem containsChars_iff {pattern : List Char} : containsChars pattern cs = true ↔ pattern <:+: cs := by
  induction cs with
  | nil => simp [containsChars]
  | cons c cs ih => rw [containsChars, Bool.or_eq_true, ih, List.isPrefixOf_iff_prefix, List.infix_cons_iff]

/-- A piece stands behind as many separators as there are pieces before it. -/
theorem exists_of_getElem?_splitChars (found : (splitChars separator cs)[index]? = some piece) :
    ∃ before behind, cs = before ++ piece ++ behind ∧ before.count separator = index := by
  induction index generalizing cs with
  | zero =>
    by_cases divided : separator ∈ cs
    · obtain ⟨front, rest, rfl, free⟩ := List.eq_append_cons_of_mem divided
      rw [splitChars_append_cons, splitChars_of_not_mem free] at found
      obtain rfl := Option.some.inj found
      exact ⟨[], separator :: rest, rfl, rfl⟩
    · rw [splitChars_of_not_mem divided] at found
      obtain rfl := Option.some.inj found
      exact ⟨[], [], by simp, rfl⟩
  | succ index ih =>
    by_cases divided : separator ∈ cs
    · obtain ⟨front, rest, rfl, free⟩ := List.eq_append_cons_of_mem divided
      rw [splitChars_append_cons, splitChars_of_not_mem free, List.singleton_append,
        List.getElem?_cons_succ] at found
      obtain ⟨before, behind, rfl, number⟩ := ih found
      refine ⟨front ++ separator :: before, behind, by simp, ?_⟩
      rw [List.count_append, List.count_cons_self, List.count_eq_zero_of_not_mem free, number]
      omega
    · rw [splitChars_of_not_mem divided] at found
      cases found

/-- What follows on the last line belongs to it. -/
theorem lastLine_append (before : List Char) (single : '\n' ∉ needle) :
    lastLine (before ++ needle) = lastLine before ++ needle := by
  have free : ∀ c ∈ needle.reverse, (c ≠ '\n' : Bool) = true := by
    intro c member
    simpa using fun same : c = '\n' => single (same ▸ List.mem_reverse.mp member)
  rw [lastLine, List.reverse_append, List.takeWhile_append_of_pos free, List.reverse_append,
    List.reverse_reverse, lastLine]

/-- The index that a search gives is the least one at which the test holds. -/
theorem findIdx?_eq_some_iff_least {α : Type} {test : α → Bool} {xs : List α} :
    xs.findIdx? test = some index ↔ (∃ x, xs[index]? = some x ∧ test x = true) ∧
      ∀ other, (∃ x, xs[other]? = some x ∧ test x = true) → index ≤ other := by
  rw [List.findIdx?_eq_some_iff_getElem]
  constructor
  · rintro ⟨bound, here, before⟩
    refine ⟨⟨xs[index], List.getElem?_eq_getElem bound, here⟩, ?_⟩
    rintro other ⟨x, found, holds⟩
    by_contra earlier
    obtain ⟨_, rfl⟩ := List.getElem?_eq_some_iff.mp found
    exact before other (by omega) holds
  · rintro ⟨⟨x, found, here⟩, least⟩
    obtain ⟨bound, rfl⟩ := List.getElem?_eq_some_iff.mp found
    refine ⟨bound, here, fun other earlier holds => ?_⟩
    have := least other ⟨xs[other], List.getElem?_eq_getElem _, holds⟩
    omega

/-- Where a text without line breaks stands, the line holds it, and the other way round. -/
theorem exists_infix_line_iff (single : '\n' ∉ needle) :
    (∃ piece, (splitChars '\n' cs)[index]? = some piece ∧ needle <:+: piece) ↔
      ∃ before behind, cs = before ++ needle ++ behind ∧ before.count '\n' = index := by
  constructor
  · rintro ⟨piece, found, front, rest, rfl⟩
    obtain ⟨before, behind, rfl, number⟩ := exists_of_getElem?_splitChars found
    refine ⟨before ++ front, rest ++ behind, by simp, ?_⟩
    have member := List.mem_of_getElem? found
    have free := not_mem_of_mem_splitChars member
    rw [List.append_assoc, List.mem_append, not_or] at free
    rw [List.count_append, number, List.count_eq_zero_of_not_mem free.1, Nat.add_zero]
  · rintro ⟨before, behind, rfl, rfl⟩
    obtain ⟨rest, found⟩ := exists_getElem?_splitChars (before ++ needle) behind
    rw [List.count_append, List.count_eq_zero_of_not_mem single, Nat.add_zero,
      lastLine_append before single] at found
    exact ⟨_, found, lastLine before, rest, rfl⟩

end Recast.Text

namespace Recast.KeyWarning

open Text

variable {content needle : String}

/-- A text stands on a line of another one; lines are counted from one. -/
def StandsOn (content needle : String) (line : Nat) : Prop :=
  ∃ before behind, content.toList = before ++ needle.toList ++ behind ∧ before.count '\n' + 1 = line

/-- The first line on which a text stands. -/
def StandsFirst (content needle : String) (line : Nat) : Prop :=
  StandsOn content needle line ∧ ∀ other, StandsOn content needle other → line ≤ other

/-- A text that is not empty and breaks no line. -/
structure IsInline (needle : String) : Prop where
  some : needle ≠ ""
  noBreak : '\n' ∉ needle.toList
  noReturn : '\r' ∉ needle.toList

/-- A carriage return at the end of a line belongs to no inline text. -/
private theorem containsChars_ended (inline : IsInline needle) (line : List Char) :
    containsChars needle.toList (if line.getLast? = some '\r' then line.dropLast else line) =
      containsChars needle.toList line := by
  split
  · next returns =>
    obtain ⟨front, rfl⟩ := List.getLast?_eq_some_iff.mp returns
    rw [List.dropLast_concat, Bool.eq_iff_iff, containsChars_iff, containsChars_iff,
      List.infix_concat_iff]
    refine ⟨.inr, fun held => held.resolve_left fun atEnd => ?_⟩
    obtain ⟨before, whole⟩ := atEnd
    have last := congrArg List.getLast? whole
    rw [List.getLast?_append_of_ne_nil _ (mt String.toList_eq_nil_iff.mp inline.some),
      List.getLast?_concat] at last
    exact inline.noReturn (List.mem_of_getLast? last)
  · rfl

/-- The lines hold what the pieces between the line breaks hold. -/
theorem findIdx?_linesOf (inline : IsInline needle) :
    (linesOf content).findIdx? (containsChars needle.toList) =
      (splitChars '\n' content.toList).findIdx? (containsChars needle.toList) := by
  obtain none | ⟨front, last, cut⟩ := List.eq_nil_or_concat' (splitChars '\n' content.toList)
  · exact absurd none (splitChars_ne_nil _ _)
  · unfold linesOf
    dsimp only
    rw [cut, List.dropLast_concat, List.getLast?_concat, List.findIdx?_append]
    have ended : (front.map fun line => if line.getLast? = some '\r' then line.dropLast else line).findIdx?
        (containsChars needle.toList) = front.findIdx? (containsChars needle.toList) := by
      rw [List.findIdx?_map]
      congr 1
      funext line
      exact containsChars_ended inline line
    cases last with
    | nil =>
      have none : containsChars needle.toList [] = false := by
        simp [containsChars, inline.some]
      simp [ended, none]
    | cons c cs =>
      dsimp only
      rw [List.findIdx?_append, ended, List.length_map]

/-- The lines on which an inline text stands are those that hold it. -/
theorem standsOn_succ_iff (inline : IsInline needle) {index : Nat} :
    StandsOn content needle (index + 1) ↔
      ∃ piece, (splitChars '\n' content.toList)[index]? = some piece ∧
        containsChars needle.toList piece = true := by
  simp only [containsChars_iff]
  rw [exists_infix_line_iff inline.noBreak]
  simp [StandsOn]

theorem not_standsOn_zero : ¬StandsOn content needle 0 :=
  fun ⟨_, _, _, number⟩ => by omega

/-- The first line on which a text stands is the one that the search gives. -/
theorem lineOf_eq_some_iff (inline : IsInline needle) {line : Nat} :
    lineOf content needle = some line ↔ StandsFirst content needle line := by
  rw [lineOf, findIdx?_linesOf inline, StandsFirst]
  cases line with
  | zero => simp [not_standsOn_zero]
  | succ index =>
    have least : (splitChars '\n' content.toList).findIdx? (containsChars needle.toList) = some index ↔
        StandsOn content needle (index + 1) ∧
          ∀ other, StandsOn content needle (other + 1) → index ≤ other := by
      simp only [findIdx?_eq_some_iff_least, standsOn_succ_iff inline]
    rw [Option.map_eq_some_iff]
    simp only [Nat.add_right_cancel_iff, exists_eq_right, least]
    refine and_congr_right fun _ => ⟨fun first other here => ?_, fun first other here => ?_⟩
    · cases other with
      | zero => exact absurd here not_standsOn_zero
      | succ other => exact Nat.succ_le_succ (first other here)
    · exact Nat.le_of_succ_le_succ (first (other + 1) here)

theorem lineOf_ne_none (inline : IsInline needle) {line : Nat} (stands : StandsOn content needle line) :
    lineOf content needle ≠ none := by
  rw [lineOf, findIdx?_linesOf inline, ne_eq, Option.map_eq_none_iff, List.findIdx?_eq_none_iff]
  intro free
  cases line with
  | zero => exact not_standsOn_zero stands
  | succ index =>
    obtain ⟨piece, found, held⟩ := (standsOn_succ_iff inline).mp stands
    rw [free piece (List.mem_of_getElem? found)] at held
    cases held

/-- A text that stands on a line is found there, or on an earlier line. -/
theorem exists_lineOf (inline : IsInline needle) {line : Nat} (stands : StandsOn content needle line) :
    ∃ first ≤ line, lineOf content needle = some first := by
  obtain ⟨first, found⟩ := Option.ne_none_iff_exists'.mp (lineOf_ne_none inline stands)
  exact ⟨first, ((lineOf_eq_some_iff inline).mp found).2 line stands, found⟩

end Recast.KeyWarning
