import Recast.Proofs.Text.Lines
import Recast.Script.Tree

/-! # Where tokens stood

An offset at a boundary of characters lies on the line that the breaks before it number, and its
column is the byte length of what stands before it on that line (`location_parse`).
-/

namespace Recast.Script

open Text

theorem startsBehindBreaks_append (offset : Nat) (before behind : List Char) :
    startsBehindBreaks offset (before ++ behind) =
      startsBehindBreaks offset before ++
        startsBehindBreaks (offset + byteLength before) behind := by
  induction before generalizing offset with
  | nil => rfl
  | cons c before ih =>
    have rest := ih (offset + c.utf8Size)
    rw [Nat.add_assoc] at rest
    rw [List.cons_append, startsBehindBreaks, startsBehindBreaks, rest, byteLength_cons]
    split <;> rfl

theorem length_startsBehindBreaks (offset : Nat) (cs : List Char) :
    (startsBehindBreaks offset cs).length = cs.count '\n' := by
  induction cs generalizing offset with
  | nil => rfl
  | cons c cs ih =>
    rw [startsBehindBreaks]
    split
    · next ends => rw [List.length_cons, ih, ends, List.count_cons_self]
    · next stays => rw [ih, List.count_cons_of_ne stays]

/-- Lines begin behind the offset from which they are counted, and up to the end of the text. -/
theorem bounds_of_mem_startsBehindBreaks {offset start : Nat} {cs : List Char}
    (member : start ∈ startsBehindBreaks offset cs) :
    offset < start ∧ start ≤ offset + byteLength cs := by
  induction cs generalizing offset with
  | nil => simp [startsBehindBreaks] at member
  | cons c cs ih =>
    have size := c.utf8Size_pos
    have later (known : start ∈ startsBehindBreaks (offset + c.utf8Size) cs) :
        offset < start ∧ start ≤ offset + byteLength (c :: cs) := by
      have bounds := ih known
      rw [byteLength_cons]
      omega
    rw [startsBehindBreaks] at member
    split at member
    · rcases List.mem_cons.mp member with rfl | known
      · rw [byteLength_cons]
        omega
      · exact later known
    · exact later member

/-- The last line begins as many bytes before the end as it has. -/
theorem getLastD_startsBehindBreaks (cs : List Char) :
    (0 :: startsBehindBreaks 0 cs).getLastD 0 + byteLength (lastLine cs) = byteLength cs := by
  induction cs using List.reverseRecOn with
  | nil => rfl
  | append_singleton cs c ih =>
    rw [startsBehindBreaks_append, lastLine_concat, byteLength_append, Nat.zero_add,
      startsBehindBreaks, startsBehindBreaks]
    split
    · rw [← List.cons_append, List.getLastD_concat, byteLength_nil, byteLength_cons, byteLength_nil]
      rfl
    · rw [List.append_nil, byteLength_append]
      omega

theorem byteLength_lastLine_le (cs : List Char) : byteLength (lastLine cs) ≤ byteLength cs := by
  have last := getLastD_startsBehindBreaks cs
  omega

theorem length_le_byteLength (cs : List Char) : cs.length ≤ byteLength cs := by
  induction cs with
  | nil => exact Nat.le_refl 0
  | cons c cs ih =>
    have size := c.utf8Size_pos
    rw [List.length_cons, byteLength_cons]
    omega

/-- The tokens of a text begin behind what the tokens before them print. -/
theorem offset_of_tokensFrom {offset : Nat} {pieces : List Lexeme} {front back : List Token}
    {t : Token} (cut : tokensFrom offset pieces = front ++ t :: back) :
    t.offset = some (offset + byteLength (printChars front)) := by
  induction front generalizing offset pieces with
  | nil =>
    cases pieces with
    | nil => exact absurd cut (List.cons_ne_nil _ _).symm
    | cons piece pieces =>
      obtain ⟨rfl, _⟩ := List.cons.inj cut
      rfl
  | cons u front ih =>
    cases pieces with
    | nil => exact absurd cut (List.cons_ne_nil _ _).symm
    | cons piece pieces =>
      obtain ⟨rfl, rest⟩ := List.cons.inj cut
      rw [ih rest, Nat.add_assoc, ← byteLength_append]
      simp [printChars]

/-- Lines and columns are counted from one. -/
theorem position_after (before : List Char) :
    Position.after before = ⟨before.count '\n' + 1, byteLength (lastLine before) + 1⟩ := by
  induction before using List.reverseRecOn with
  | nil => rfl
  | append_singleton before c ih =>
    rw [Position.after_append_singleton, ih, Position.advance, lastLine_concat, List.count_append]
    by_cases ends : c = '\n'
    · simp [ends]
    · rw [if_neg ends, if_neg ends, List.count_singleton, byteLength_append, byteLength_cons,
        byteLength_nil]
      simp [ends]
      omega

namespace Tree

/-- Where a boundary of characters lies. -/
theorem location_parse {text : String} {before behind : List Char}
    (whole : text.toList = before ++ behind) (file : Path) :
    (parse file text).location (byteLength before) =
      (before.count '\n', byteLength (lastLine before)) := by
  have starts : (parse file text).lineStarts =
      (0 :: startsBehindBreaks 0 before) ++ startsBehindBreaks (byteLength before) behind := by
    change 0 :: startsBehindBreaks 0 text.toList = _
    rw [whole, startsBehindBreaks_append, Nat.zero_add, List.cons_append]
  have front : (0 :: startsBehindBreaks 0 before).filter (· ≤ byteLength before) =
      0 :: startsBehindBreaks 0 before := by
    refine List.filter_eq_self.mpr fun start member => ?_
    rcases List.mem_cons.mp member with rfl | later
    · exact decide_eq_true (Nat.zero_le _)
    · have bounds := bounds_of_mem_startsBehindBreaks later
      exact decide_eq_true (by omega)
  have back : (startsBehindBreaks (byteLength before) behind).filter (· ≤ byteLength before) =
      [] := by
    refine List.filter_eq_nil_iff.mpr fun start member => ?_
    have bounds := bounds_of_mem_startsBehindBreaks member
    simp only [decide_eq_true_eq]
    omega
  have last := getLastD_startsBehindBreaks before
  rw [location, starts, List.filter_append, front, back, List.append_nil, List.length_cons,
    length_startsBehindBreaks, Nat.add_sub_cancel]
  congr 1
  omega

/-- No offset lies behind the last line of the text. -/
theorem location_line_le (tree : Tree) (offset : Nat) :
    (tree.location offset).1 ≤ tree.lineStarts.length - 1 := by
  have fewer := List.length_filter_le (· ≤ offset) tree.lineStarts
  rw [location]
  dsimp only
  omega

/-- Columns are not larger than offsets. -/
theorem location_column_le (tree : Tree) (offset : Nat) : (tree.location offset).2 ≤ offset := by
  rw [location]
  dsimp only
  omega

theorem length_lineStarts_parse (file : Path) (text : String) :
    (parse file text).lineStarts.length = text.toList.count '\n' + 1 := by
  change (0 :: startsBehindBreaks 0 text.toList).length = _
  rw [List.length_cons, length_startsBehindBreaks]

end Tree

end Recast.Script
