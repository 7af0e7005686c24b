import Mathlib.Data.Prod.Lex
import Mathlib.Order.Monotone.Defs
import Recast.Proofs.Script.Location
import Recast.Proofs.Script.Partition

/-! # One place, told in two ways

Faults tell of a place by counting through the text in front of it; trees look it up in the table of
line starts. A search of the table hits the start of a line, or it misses and gives the line behind
(`Found`); read off either way, the place is the one that counting gives, with lines and columns
counted from zero (`location_tells_position`). Later offsets lie at later places.
-/

namespace Recast.Script

open Text

/-! ## Searching the table of lines -/

/-- What a search for a number in an ascending table may answer: an index at which the number stands,
or, where it does not, the index at which it would have to be put in. -/
inductive Found (table : List Nat) (n : Nat) : Except Nat Nat → Prop
  | hit {index : Nat} (stands : table[index]? = some n) : Found table n (.ok index)
  | miss {front back : List Nat} (split : table = front ++ back) (below : ∀ m ∈ front, m < n)
      (above : ∀ m ∈ back, n < m) : Found table n (.error front.length)

/-- The line and the column that the answer of a search tells. There is no line in front of the first. -/
def placeOf? (table : List Nat) (offset : Nat) : Except Nat Nat → Option (Nat × Nat)
  | .ok line => table[line]?.map fun start => (line, offset - start)
  | .error 0 => none
  | .error (line + 1) => table[line]?.map fun start => (line, offset - start)

section Tables

variable {table : List Nat} (ascending : table.Pairwise (· < ·))
include ascending

/-- In an ascending table, a search has an answer. -/
theorem exists_found (n : Nat) : ∃ answer, Found table n answer := by
  by_cases member : n ∈ table
  · obtain ⟨index, stands⟩ := List.mem_iff_getElem?.mp member
    exact ⟨_, .hit stands⟩
  · refine ⟨_, .miss (List.takeWhile_append_dropWhile (p := (· < n))).symm
      (fun m before => by simpa using List.mem_takeWhile_imp before) fun m behind => ?_⟩
    induction table with
    | nil => cases behind
    | cons first rest ih =>
      obtain ⟨least, ascending⟩ := List.pairwise_cons.mp ascending
      rw [List.mem_cons, not_or] at member
      by_cases less : first < n
      · rw [List.dropWhile_cons_of_pos (by simpa using less)] at behind
        exact ih ascending member.2 behind
      · rw [List.dropWhile_cons_of_neg (by simpa using less)] at behind
        have bound : first ≤ m := (List.mem_cons.mp behind).elim (·.ge) fun later =>
          (least m later).le
        have other := member.1
        omega

/-- The part of an ascending table up to a number ends at the number, or in front of the place where it
would have to be put in. -/
theorem placeOf?_of_found {first offset : Nat} {answer : Except Nat Nat} (member : first ∈ table)
    (low : first ≤ offset) (found : Found table offset answer) :
    placeOf? table offset answer = some ((table.filter (· ≤ offset)).length - 1,
      offset - (table.filter (· ≤ offset)).getLastD 0) := by
  cases found with
  | @hit index stands =>
    obtain ⟨inside, here⟩ := List.getElem?_eq_some_iff.mp stands
    have split : table = table.take index ++ offset :: table.drop (index + 1) := by
      rw [← here, List.getElem_cons_drop, List.take_append_drop]
    rw [split, List.pairwise_append, List.pairwise_cons] at ascending
    obtain ⟨-, ⟨above, -⟩, below⟩ := ascending
    have upTo : table.filter (· ≤ offset) = table.take index ++ [offset] := by
      have front : (table.take index).filter (· ≤ offset) = table.take index :=
        List.filter_eq_self.mpr fun m before =>
          decide_eq_true (below m before offset List.mem_cons_self).le
      have back : (table.drop (index + 1)).filter (· ≤ offset) = [] :=
        List.filter_eq_nil_iff.mpr fun m behind => by simpa using above m behind
      conv_lhs => rw [split]
      rw [List.filter_append, front, List.filter_cons_of_pos (by simp), back]
    have length : (table.take index).length = index := by
      rw [List.length_take]
      omega
    rw [placeOf?, stands, upTo, List.getLastD_concat, List.length_append, length]
    rfl
  | @miss front back split below above =>
    have upTo : table.filter (· ≤ offset) = front := by
      rw [split, List.filter_append, List.filter_eq_self.mpr fun m before =>
        decide_eq_true (below m before).le, List.filter_eq_nil_iff.mpr fun m behind => by
          simpa using above m behind, List.append_nil]
    rw [upTo]
    cases front using List.reverseRecOn with
    | nil =>
      -- the first line begins in front of every offset
      have above := above first (by simpa [split] using member)
      omega
    | append_singleton front last =>
      rw [List.length_append, List.length_singleton, placeOf?, split, List.getLastD_concat,
        List.append_assoc, List.getElem?_append_right (Nat.le_refl _), Nat.sub_self]
      rfl

end Tables

/-! ## Lines of a text -/

theorem pairwise_startsBehindBreaks (offset : Nat) (cs : List Char) :
    (startsBehindBreaks offset cs).Pairwise (· < ·) := by
  induction cs generalizing offset with
  | nil => exact .nil
  | cons c cs ih =>
    rw [startsBehindBreaks]
    split
    · exact .cons (fun start member => (bounds_of_mem_startsBehindBreaks member).1) (ih _)
    · exact ih _

namespace Tree

theorem zero_mem_lineStarts_parse (file : Path) (text : String) :
    0 ∈ (parse file text).lineStarts :=
  List.mem_cons_self

theorem pairwise_lineStarts_parse (file : Path) (text : String) :
    (parse file text).lineStarts.Pairwise (· < ·) :=
  .cons (fun _ member => (bounds_of_mem_startsBehindBreaks member).1) (pairwise_startsBehindBreaks 0 _)

/-- Of two offsets, the later one lies on a later line, or on the same line further to the right. -/
theorem location_lt_location {tree : Tree} (first : 0 ∈ tree.lineStarts) {offset later : Nat}
    (less : offset < later) : toLex (tree.location offset) < toLex (tree.location later) := by
  have split : tree.lineStarts.filter (· ≤ offset) =
      (tree.lineStarts.filter (· ≤ later)).filter (· ≤ offset) := by
    rw [List.filter_filter]
    refine List.filter_congr fun start _ => ?_
    by_cases before : start ≤ offset
    · simp [before, before.trans less.le]
    · simp [before]
  have starts : 0 ∈ tree.lineStarts.filter (· ≤ offset) := List.mem_filter.mpr ⟨first, by simp⟩
  have bound : ∀ start ∈ tree.lineStarts.filter (· ≤ offset), start ≤ offset := fun start member =>
    of_decide_eq_true (List.mem_filter.mp member).2
  have some := List.length_pos_of_mem starts
  have fewer : (tree.lineStarts.filter (· ≤ offset)).length ≤
      (tree.lineStarts.filter (· ≤ later)).length := by
    rw [split]
    exact List.length_filter_le _ _
  rw [Prod.Lex.toLex_lt_toLex, location, location]
  rcases fewer.eq_or_lt with same | more
  · -- no line begins between them
    have equal : tree.lineStarts.filter (· ≤ offset) = tree.lineStarts.filter (· ≤ later) := by
      rw [split] at same ⊢
      exact List.filter_sublist.eq_of_length same
    obtain ⟨front, last, spelled⟩ := (List.eq_nil_or_concat' _).resolve_left (List.ne_nil_of_mem starts)
    rw [← equal, spelled, List.getLastD_concat]
    have before := bound last (by simp [spelled])
    refine .inr ⟨rfl, ?_⟩
    dsimp only
    omega
  · refine .inl ?_
    dsimp only
    omega

/-- Where a tree looks a place up, and where it lies as counted. At each boundary of characters in the
text, the line is the number of line breaks in front of it, and the position that is counted through
the text is the line and the column that are looked up, each with one added. However the table of line
starts is searched, the answer leads there. Places come in the order of offsets, so no two offsets have
one place. -/
theorem location_tells_position (file : Path) (text : String) :
    let tree := parse file text
    (∀ offset, String.Pos.Raw.IsValid text ⟨offset⟩ →
      ∃ before behind line column, text = before ++ behind ∧ before.utf8ByteSize = offset ∧
        tree.location offset = (line, column) ∧ line = before.toList.count '\n' ∧
        Position.ofOffset? text.toList offset = some ⟨line + 1, column + 1⟩) ∧
      (∀ offset, (∃ answer, Found tree.lineStarts offset answer) ∧
        ∀ answer, Found tree.lineStarts offset answer →
          placeOf? tree.lineStarts offset answer = some (tree.location offset)) ∧
      StrictMono fun offset => toLex (tree.location offset) := by
  refine ⟨fun offset valid => ?_, fun offset => ⟨?_, fun answer found => ?_⟩, fun offset later => ?_⟩
  · obtain ⟨before, behind, rfl, ends⟩ := String.Pos.Raw.isValid_iff_exists_append.mp valid
    have size : before.utf8ByteSize = offset := (congrArg String.Pos.Raw.byteIdx ends).symm
    have whole : (before ++ behind).toList = before.toList ++ behind.toList := String.toList_append
    obtain ⟨-, position⟩ := exists_position_of_isPrefix ⟨behind.toList, whole.symm⟩
    have place := location_parse whole file
    rw [byteLength_toList, size] at position place
    rw [position_after] at position
    exact ⟨before, behind, _, _, rfl, size, place, rfl, position⟩
  · exact exists_found (pairwise_lineStarts_parse file text) offset
  · exact placeOf?_of_found (pairwise_lineStarts_parse file text)
      (zero_mem_lineStarts_parse file text) (Nat.zero_le offset) found
  · exact location_lt_location (zero_mem_lineStarts_parse file text)

/-- On the empty line behind a character of two bytes, where the search hits; the line break before it
lies on the line that it ends. -/
theorem location_tells_position_of_empty_line :
    String.Pos.Raw.IsValid "é\n\nb" ⟨3⟩ ∧
      Position.ofOffset? "é\n\nb".toList 3 = some ⟨2, 1⟩ ∧
      placeOf? [0, 3, 4] 3 (.ok 1) = some ((parse .empty "é\n\nb").location 3) ∧
      toLex (0, 2) < toLex ((parse .empty "é\n\nb").location 3) := by
  have starts : (parse .empty "é\n\nb").lineStarts = [0, 3, 4] := by decide +kernel
  have here : (parse .empty "é\n\nb").location 3 = (1, 0) := by decide +kernel
  have before : (parse .empty "é\n\nb").location 2 = (0, 2) := by decide +kernel
  have valid : String.Pos.Raw.IsValid "é\n\nb" ⟨3⟩ :=
    String.Pos.Raw.isValid_iff_exists_append.mpr ⟨"é\n", "\nb", by decide, by decide⟩
  obtain ⟨tells, finds, mono⟩ := location_tells_position .empty "é\n\nb"
  obtain ⟨-, -, line, column, -, -, there, -, position⟩ := tells 3 valid
  obtain ⟨rfl, rfl⟩ := Prod.mk.inj (there.symm.trans here)
  rw [starts] at finds
  exact ⟨valid, position, (finds 3).2 _ (.hit rfl), before ▸ mono (by decide)⟩

end Tree

end Recast.Script
