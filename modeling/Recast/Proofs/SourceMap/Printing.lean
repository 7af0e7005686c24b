import Recast.Proofs.Script.Location
import Recast.SourceMap.Mapping

/-! # What printing with mappings records

A token that is no whitespace and stems from the text is marked where it begins. Printing takes one
token after the other: it adds the text of the token, and of each printed line it keeps the first
mark (`Printed.add`). So the segments of a printed tree are those of its first marks
(`printed_printTokens`).
-/

namespace Recast.SourceMap

open Script Text

/-- The number of UTF-16 units of some characters. -/
def length16 : List Char → Nat
  | [] => 0
  | c :: cs => units16 c + length16 cs

/-- A place in a printed text: its line and its column, both counted from zero. Columns count UTF-16
units. -/
structure Spot where
  line : Nat
  column : Nat
deriving DecidableEq, Repr, Inhabited

/-- The place behind some characters. -/
def Spot.behind (before : List Char) : Spot :=
  ⟨before.count '\n', length16 (lastLine before)⟩

/-- The offset that a token is mapped to: whitespace is not mapped, and neither are tokens that did
not stem from the text. -/
def mappedOffset? (t : Token) : Option Nat :=
  if t.kind = .whitespace then none else t.offset

/-- The places at which mapped tokens begin when they are printed behind some characters, each with
the offset of its token. -/
def marksFrom (before : List Char) : List Token → List (Spot × Nat)
  | [] => []
  | t :: ts =>
    ((mappedOffset? t).map (Spot.behind before, ·)).toList ++
      marksFrom (before ++ t.text.toList) ts

/-- Where the first mapped token of a printed line begins, and its offset. -/
def firstMark? (tokens : List Token) (line : Nat) : Option (Spot × Nat) :=
  (marksFrom [] tokens).find? fun mark => mark.1.line = line

/-- The segment of a mark. -/
def segmentAt (tree : Tree) (mark : Spot × Nat) : Segment :=
  ⟨mark.1.column, (tree.location mark.2).1, (tree.location mark.2).2⟩

section Places

@[simp] theorem length16_nil : length16 [] = 0 := rfl

@[simp] theorem length16_append (cs ds : List Char) :
    length16 (cs ++ ds) = length16 cs + length16 ds := by
  induction cs with
  | nil => rw [List.nil_append, length16, Nat.zero_add]
  | cons c cs ih => rw [List.cons_append, length16, length16, ih, Nat.add_assoc]

/-- Behind one more character. -/
theorem Spot.behind_concat (before : List Char) (c : Char) :
    Spot.behind (before ++ [c]) =
      if c = '\n' then ⟨(Spot.behind before).line + 1, 0⟩
      else ⟨(Spot.behind before).line, (Spot.behind before).column + units16 c⟩ := by
  rw [Spot.behind, List.count_append, lastLine_concat]
  split
  · next ends => simp [ends, Spot.behind]
  · next stays => simp [stays, Spot.behind, length16]

/-- UTF-16 takes fewer units of a character than UTF-8 takes bytes, except for ASCII, where both take
one. -/
theorem units16_le_and_eq_iff (c : Char) :
    units16 c ≤ c.utf8Size ∧ (units16 c = c.utf8Size ↔ c.toNat < 128) := by
  have value : c.val.toNat = c.toNat := rfl
  simp only [units16, Char.utf8Size, UInt32.le_iff_toNat_le, value]
  have one : (UInt32.ofNatLT 127 (by decide)).toNat = 127 := rfl
  have two : (UInt32.ofNatLT 2047 (by decide)).toNat = 2047 := rfl
  have three : (UInt32.ofNatLT 65535 (by decide)).toNat = 65535 := rfl
  rw [one, two, three]
  split_ifs <;> omega

/-- A text is shorter in UTF-16 units than in bytes, unless it is ASCII. -/
theorem length16_le_and_eq_iff (cs : List Char) :
    length16 cs ≤ byteLength cs ∧ (length16 cs = byteLength cs ↔ ∀ c ∈ cs, c.toNat < 128) := by
  induction cs with
  | nil => simp
  | cons c cs ih =>
    obtain ⟨first, firstSame⟩ := units16_le_and_eq_iff c
    obtain ⟨rest, restSame⟩ := ih
    rw [length16, byteLength_cons, List.forall_mem_cons, ← firstSame, ← restSame]
    omega

end Places

section Marks

variable {before : List Char} {tokens : List Token} {place : Spot} {offset line : Nat}

theorem printChars_append (ts us : List Token) :
    printChars (ts ++ us) = printChars ts ++ printChars us :=
  List.flatMap_append

theorem marksFrom_append (before : List Char) (ts us : List Token) :
    marksFrom before (ts ++ us) = marksFrom before ts ++ marksFrom (before ++ printChars ts) us := by
  induction ts generalizing before with
  | nil => simp [marksFrom, printChars]
  | cons t ts ih =>
    rw [List.cons_append, marksFrom, marksFrom, ih, List.append_assoc, List.append_assoc]
    rfl

/-- A mark is that of a token behind the tokens before it. -/
theorem mem_marksFrom_iff :
    (place, offset) ∈ marksFrom before tokens ↔ ∃ front t back, tokens = front ++ t :: back ∧
      mappedOffset? t = some offset ∧ place = Spot.behind (before ++ printChars front) := by
  constructor
  · intro member
    induction tokens generalizing before with
    | nil => simp [marksFrom] at member
    | cons t ts ih =>
      rcases List.mem_append.mp member with here | later
      · obtain ⟨known, mapped, same⟩ := Option.map_eq_some_iff.mp (Option.mem_toList.mp here)
        cases same
        exact ⟨[], t, ts, rfl, mapped, by simp [printChars]⟩
      · obtain ⟨front, u, back, cut, mapped, there⟩ := ih later
        refine ⟨t :: front, u, back, by rw [cut, List.cons_append], mapped, ?_⟩
        rw [there, List.append_assoc]
        rfl
  · rintro ⟨front, t, back, rfl, mapped, rfl⟩
    rw [marksFrom_append]
    apply List.mem_append_right
    rw [marksFrom, mapped]
    exact List.mem_cons_self

/-- The first mark of a line is that of a token which begins there. -/
theorem exists_of_firstMark? {mark : Spot × Nat} (found : firstMark? tokens line = some mark) :
    mark.1.line = line ∧ ∃ front t back, tokens = front ++ t :: back ∧ t.offset = some mark.2 ∧
      mark.1 = Spot.behind (printChars front) := by
  obtain ⟨front, t, back, cut, mapped, there⟩ :=
    mem_marksFrom_iff.mp (List.mem_of_find?_eq_some found)
  refine ⟨of_decide_eq_true (List.find?_eq_some_iff_append.mp found).1, front, t, back, cut, ?_,
    there⟩
  rw [mappedOffset?] at mapped
  split at mapped
  · exact absurd mapped (by simp)
  · exact mapped

/-- The first mark of a line when one more token is printed. -/
theorem firstMark?_concat (done : List Token) (t : Token) (line : Nat) :
    firstMark? (done ++ [t]) line =
      (firstMark? done line).or
        (if (Spot.behind (printChars done)).line = line then
          (mappedOffset? t).map (Spot.behind (printChars done), ·) else none) := by
  rw [firstMark?, marksFrom_append, List.find?_append, List.nil_append, marksFrom, marksFrom,
    List.append_nil]
  cases mappedOffset? t with
  | none => simp [firstMark?]
  | some offset =>
    by_cases here : (Spot.behind (printChars done)).line = line <;> simp [firstMark?, here]

/-- No token begins on a line that has not begun. -/
theorem firstMark?_eq_none (fresh : (printChars tokens).count '\n' < line) :
    firstMark? tokens line = none := by
  refine List.find?_eq_none.mpr fun ⟨place, offset⟩ member there => ?_
  obtain ⟨front, t, back, rfl, _, rfl⟩ := mem_marksFrom_iff.mp member
  rw [printChars_append, List.count_append] at fresh
  have same : (printChars front).count '\n' = line := by
    simpa [Spot.behind] using of_decide_eq_true there
  omega

end Marks

section Printing

/-- Printed characters end the line that they break, and only the first of the lines keeps a
segment. -/
private theorem printChars_spec (line : Line) (before cs : List Char)
    (column : line.column = (Spot.behind before).column) :
    ((line.printChars cs).1 ++ [(line.printChars cs).2]).map (·.segment) =
        line.segment :: List.replicate (cs.count '\n') none ∧
      (line.printChars cs).2.column = (Spot.behind (before ++ cs)).column := by
  induction cs generalizing line before with
  | nil => exact ⟨rfl, by rw [List.append_nil]; exact column⟩
  | cons c cs ih =>
    have next := Spot.behind_concat before c
    rw [← List.singleton_append, ← List.append_assoc, List.singleton_append, Line.printChars]
    split
    · next ends =>
      rw [if_pos ends] at next
      obtain ⟨segments, last⟩ := ih Line.fresh (before ++ [c]) (by rw [next]; rfl)
      refine ⟨?_, last⟩
      rw [List.cons_append, List.map_cons, segments, ends, List.count_cons_self,
        List.replicate_succ]
      rfl
    · next stays =>
      rw [if_neg stays] at next
      obtain ⟨segments, last⟩ := ih { line with column := line.column + units16 c } (before ++ [c])
        (by rw [next, column])
      refine ⟨?_, last⟩
      rw [segments, List.count_cons_of_ne stays]

private theorem mark_column (tree : Tree) (line : Line) (t : Token) :
    (line.mark tree t).column = line.column := by
  unfold Line.mark
  split <;> rfl

/-- A line keeps its segment, or takes that of a mapped token. -/
private theorem mark_segment (tree : Tree) (line : Line) (t : Token) :
    (line.mark tree t).segment = line.segment.or
      ((mappedOffset? t).map fun offset =>
        ⟨line.column, (tree.location offset).1, (tree.location offset).2⟩) := by
  obtain ⟨column, segment⟩ := line
  obtain ⟨kind, text, offset⟩ := t
  cases segment <;> cases kind <;> cases offset <;> rfl

/-- What is known of the printing of some tokens. -/
structure Printed (tree : Tree) (done : List Token) (printing : Printing) : Prop where
  text : printing.text = String.ofList (printChars done)
  column : printing.last.column = (Spot.behind (printChars done)).column
  segments : printing.segments = (List.range ((printChars done).count '\n' + 1)).map
    fun line => (firstMark? done line).map (segmentAt tree)

/-- Printing one more token. Lines that have ended keep their first marks, the token is marked on
the last line if it is the first there, and no token begins yet on the lines that it adds. -/
theorem Printed.add {tree : Tree} {done : List Token} {printing : Printing}
    (printed : Printed tree done printing) (t : Token) :
    Printed tree (done ++ [t]) (printing.add tree t) := by
  obtain ⟨text, column, segments⟩ := printed
  obtain ⟨lines, column'⟩ := printChars_spec (printing.last.mark tree t) (printChars done)
    t.text.toList (by rw [mark_column, column])
  have whole : printChars (done ++ [t]) = printChars done ++ t.text.toList := by
    simp [printChars]
  rw [Printing.segments, List.map_append, List.range_succ, List.map_append] at segments
  obtain ⟨ended, last⟩ := List.append_inj' segments rfl
  constructor
  · rw [whole, String.ofList_append, ← text, String.ofList_toList]
    rfl
  · rw [whole]
    exact column'
  · have before : ∀ line ∈ List.range ((printChars done).count '\n'),
        firstMark? (done ++ [t]) line = firstMark? done line := by
      intro line member
      have earlier := List.mem_range.mp member
      rw [firstMark?_concat, if_neg (by simp only [Spot.behind]; omega), Option.or_none]
    have here : (firstMark? (done ++ [t]) ((printChars done).count '\n')).map (segmentAt tree) =
        (printing.last.mark tree t).segment := by
      have known : printing.last.segment =
          (firstMark? done ((printChars done).count '\n')).map (segmentAt tree) :=
        List.singleton_inj.mp last
      have line : (Spot.behind (printChars done)).line = (printChars done).count '\n' := rfl
      rw [firstMark?_concat, if_pos line, mark_segment, known, column]
      cases firstMark? done ((printChars done).count '\n') <;> cases mappedOffset? t <;> rfl
    have behind : ∀ line, (printChars done).count '\n' < line →
        firstMark? (done ++ [t]) line = none := by
      intro line later
      rw [firstMark?_concat, firstMark?_eq_none later,
        if_neg (by simp only [Spot.behind]; omega), Option.or_none]
    have added : (printing.add tree t).segments = printing.ended.map (·.segment) ++
        (printing.last.mark tree t).segment ::
          List.replicate (t.text.toList.count '\n') none := by
      rw [← lines, ← List.map_append, ← List.append_assoc]
      rfl
    rw [added, ended, whole, List.count_append, Nat.add_assoc, List.range_add, List.map_append,
      List.range_succ_eq_map, List.map_cons, List.map_cons, Nat.add_zero, here]
    congr 1
    · exact List.map_congr_left fun line member => by rw [before line member]
    · congr 1
      symm
      rw [List.map_map, List.map_map, List.eq_replicate_iff]
      refine ⟨by simp, fun segment member => ?_⟩
      obtain ⟨line, _, rfl⟩ := List.mem_map.mp member
      simp only [Function.comp_apply]
      rw [behind _ (by omega)]
      rfl

theorem printed_printTokens (tree : Tree) (tokens : List Token) :
    Printed tree tokens (printTokens tree tokens) := by
  induction tokens using List.reverseRecOn with
  | nil => exact ⟨rfl, rfl, rfl⟩
  | append_singleton done t ih =>
    rw [printTokens, List.foldl_append]
    exact ih.add t

end Printing

end Recast.SourceMap
