import Recast.Proofs.Emit.LineEndings
import Recast.Proofs.Script.Partition
import Recast.Proofs.SourceMap.Decoding

/-! # What source maps say of printed trees

A tree that was parsed and then edited prints with mappings that decode to the first marks of its
lines (`edited_mapping`): where a token stands in the printed text, and where it stood in the text
that was parsed. The conversion of line endings that follows keeps the places of the tokens, except
of an empty token that stands between a carriage return and a line feed.

An untouched tree maps each line to itself, but not each column: printed columns count UTF-16 units
and those of the text count bytes (`untouched_mapping`).
-/

namespace Recast.Emit

open Script SourceMap Text

/-- One edit of some tokens. A token that is put in stems from no text, or from one whose size is
below `2 ^ 63`. -/
inductive Edit : List Token → List Token → Prop
  | insert (front back : List Token) (t : Token) (known : ∀ offset ∈ t.offset, offset < 2 ^ 63) :
      Edit (front ++ back) (front ++ t :: back)
  | remove (front back : List Token) (t : Token) : Edit (front ++ t :: back) (front ++ back)
  | reorder {tokens others : List Token} (same : tokens.Perm others) : Edit tokens others
  | rewrite (front back : List Token) (t : Token) (text : String) :
      Edit (front ++ t :: back) (front ++ { t with text := text } :: back)

/-- The trees that edits make of a tree. -/
inductive Edited (tree : Tree) : Tree → Prop
  | refl : Edited tree tree
  | step {later : Tree} {tokens : List Token} (edited : Edited tree later)
      (edit : Edit later.tokens tokens) : Edited tree (later.withTokens tokens)

/-- The mappings beside a printed text say where the first mapped token of each line stands and
stood. -/
structure Mapped (tree : Tree) (text mappings : String) : Prop where
  prints : text = tree.print
  groups : (splitChars ';' mappings.toList).length = text.toList.count '\n' + 1
  decoded : decode? mappings = some ((List.range (text.toList.count '\n' + 1)).map fun line =>
    ((firstMark? tree.tokens line).map fun mark => (segmentAt tree mark).origin).toList)

/-- Conversion keeps the lines of a printed text, and the places of the tokens except where an empty
one cuts a line ending in two. -/
structure Converts (newLine : Option NewLine) (tree : Tree) : Prop where
  lines : (convertBreaks newLine tree.print).toList.count '\n' = tree.print.toList.count '\n'
  places : ∀ front t back, tree.tokens = front ++ t :: back → t.text.toList.head? ≠ some '\n' →
    (¬KeepsPlace newLine (String.ofList (printChars front)) (String.ofList (printChars (t :: back))) ↔
      newLine ≠ none ∧ t.text = "" ∧ SplitsBreak (printChars front) (printChars back))

section Sizes

/-- The sizes of a tree that its segments are made of. -/
structure Sized (tree : Tree) : Prop where
  lines : tree.lineStarts.length ≤ 2 ^ 63
  offsets : ∀ t ∈ tree.tokens, ∀ offset ∈ t.offset, offset < 2 ^ 63

/-- Edits put in no larger offsets. -/
theorem Edit.offsets {tokens others : List Token} (edit : Edit tokens others)
    (known : ∀ t ∈ tokens, ∀ offset ∈ t.offset, offset < 2 ^ 63) :
    ∀ t ∈ others, ∀ offset ∈ t.offset, offset < 2 ^ 63 := by
  cases edit with
  | insert front back t fits =>
    intro u member
    rcases List.mem_append.mp member with before | within
    · exact known u (List.mem_append_left _ before)
    · rcases List.mem_cons.mp within with rfl | behind
      · exact fits
      · exact known u (List.mem_append_right _ behind)
  | remove front back t =>
    intro u member
    rcases List.mem_append.mp member with before | behind
    · exact known u (List.mem_append_left _ before)
    · exact known u (List.mem_append_right _ (List.mem_cons_of_mem _ behind))
  | reorder same => exact fun u member => known u (same.mem_iff.mpr member)
  | rewrite front back t text =>
    intro u member
    rcases List.mem_append.mp member with before | within
    · exact known u (List.mem_append_left _ before)
    · rcases List.mem_cons.mp within with rfl | behind
      · exact known t (List.mem_append_right _ List.mem_cons_self)
      · exact known u (List.mem_append_right _ (List.mem_cons_of_mem _ behind))

theorem Edited.sized {tree later : Tree} (edited : Edited tree later) (sized : Sized tree) :
    Sized later := by
  induction edited with
  | refl => exact sized
  | step _ edit ih => exact ⟨ih.lines, edit.offsets ih.offsets⟩

/-- A parsed tree is as large as its text. -/
theorem sized_parse (file : Path) {source : String} (small : source.utf8ByteSize < 2 ^ 63) :
    Sized (Tree.parse file source) := by
  rw [← byteLength_toList] at small
  constructor
  · have breaks := length_le_byteLength source.toList
    have fewer := List.count_le_length (a := '\n') (l := source.toList)
    rw [Tree.length_lineStarts_parse]
    omega
  · intro t member offset here
    obtain ⟨front, back, cut⟩ := List.append_of_mem member
    have placed := offset_of_tokensFrom cut
    have whole := congrArg String.toList (Tree.print_parse file source)
    rw [Tree.print, cut, String.toList_ofList, printChars_append] at whole
    rw [← whole, byteLength_append] at small
    rw [placed, Option.mem_some_iff] at here
    omega

/-- The segments of a tree fit if its text does. -/
theorem Sized.fits {tree : Tree} (sized : Sized tree) (printed : tree.print.utf8ByteSize < 2 ^ 63)
    {line : Nat} {mark : Spot × Nat} (found : firstMark? tree.tokens line = some mark) :
    (segmentAt tree mark).Fits := by
  obtain ⟨_, front, t, back, cut, stems, there⟩ := exists_of_firstMark? found
  have low := sized.offsets t (by simp [cut]) mark.2 stems
  constructor
  · rw [← byteLength_toList, Tree.print, String.toList_ofList, cut, printChars_append,
      byteLength_append] at printed
    have units := (length16_le_and_eq_iff (lastLine (printChars front))).1
    have part := byteLength_lastLine_le (printChars front)
    simp only [segmentAt, there, Spot.behind]
    omega
  · have last := tree.location_line_le mark.2
    have lines := sized.lines
    simp only [segmentAt]
    omega
  · have last := tree.location_column_le mark.2
    simp only [segmentAt]
    omega

end Sizes

section Edits

/-- What printing with mappings gives. -/
theorem mapped_printWithMappings {tree : Tree} (sized : Sized tree)
    (printed : tree.print.utf8ByteSize < 2 ^ 63) :
    Mapped tree (printWithMappings tree).1 (printWithMappings tree).2 := by
  obtain ⟨text, _, segments⟩ := printed_printTokens tree tree.tokens
  have nonempty : (printTokens tree tree.tokens).segments ≠ [] := by simp [Printing.segments]
  have fits : ∀ segment, some segment ∈ (printTokens tree tree.tokens).segments →
      segment.Fits := by
    intro segment member
    rw [segments] at member
    obtain ⟨line, _, same⟩ := List.mem_map.mp member
    obtain ⟨mark, found, rfl⟩ := Option.map_eq_some_iff.mp same
    exact sized.fits printed found
  have count : (printWithMappings tree).1.toList.count '\n' = (printChars tree.tokens).count '\n' := by
    change (printTokens tree tree.tokens).text.toList.count '\n' = _
    rw [text, String.toList_ofList]
  constructor
  · exact text
  · rw [count]
    change (splitChars ';' (mappings (printTokens tree tree.tokens).segments).toList).length = _
    rw [splitChars_mappings nonempty, length_encodeSegments, segments, List.length_map,
      List.length_range]
  · rw [count]
    change decode? (mappings (printTokens tree tree.tokens).segments) = _
    rw [decode?_mappings nonempty fits, segments, List.map_map]
    simp only [Function.comp_def, Option.map_map]

/-- What the conversion of a printed tree does. -/
theorem converts (newLine : Option NewLine) (tree : Tree) : Converts newLine tree := by
  constructor
  · rw [toList_convertBreaks, count_converted]
  · intro front t back _ first
    rw [keepsPlace_iff, not_or, not_not, String.toList_ofList, String.toList_ofList]
    have cut : SplitsBreak (printChars front) (printChars (t :: back)) ↔
        t.text = "" ∧ SplitsBreak (printChars front) (printChars back) := by
      have text : printChars (t :: back) = t.text.toList ++ printChars back := rfl
      rw [SplitsBreak, SplitsBreak, text]
      by_cases empty : t.text = ""
      · simp [empty]
      · have filled : t.text.toList ≠ [] := fun none => empty (String.toList_eq_nil_iff.mp none)
        rw [List.head?_append_of_ne_nil _ filled]
        simp [empty, first]
    rw [cut]

/-- The source map of any edited tree decodes to what was printed. -/
theorem edited_mapping {file : Path} {source : String} {tree : Tree}
    (edited : Edited (Tree.parse file source) tree) (small : source.utf8ByteSize < 2 ^ 63)
    (printed : tree.print.utf8ByteSize < 2 ^ 63) :
    Mapped tree (printWithMappings tree).1 (printWithMappings tree).2 ∧
      ∀ options root, options.wantsSourceMap = true →
        let path := tree.file.outputPath options root
        let mapPath := path.append ".map"
        (render tree options root).map =
            some (mapPath, (document path tree.file (printWithMappings tree).2).compact) ∧
          (render tree options root).text =
            withMapLine options mapPath (convertBreaks options.newLine tree.print) ∧
          Converts options.newLine tree := by
  have mapped := mapped_printWithMappings (edited.sized (sized_parse file small)) printed
  refine ⟨mapped, fun options root wanted => ?_⟩
  have text := mapped.prints
  rw [render, if_pos wanted]
  exact ⟨rfl, congrArg (withMapLine options _ ∘ convertBreaks options.newLine) text,
    converts options.newLine tree⟩

/-- Two lines that change places. -/
theorem edited_mapping_of_swapped :
    let tree := Tree.parse ⟨true, ["a.ts"]⟩ "a\nb\n"
    decode? (printWithMappings (tree.withTokens (tree.tokens.drop 2 ++ tree.tokens.take 2))).2 =
      some [[⟨0, 0, 1, 0⟩], [⟨0, 0, 0, 0⟩], []] := by
  intro tree
  have swapped : (tree.tokens.drop 2 ++ tree.tokens.take 2).Perm tree.tokens := by
    have parts : (tree.tokens.drop 2 ++ tree.tokens.take 2).Perm
        (tree.tokens.take 2 ++ tree.tokens.drop 2) := List.perm_append_comm
    rwa [List.take_append_drop] at parts
  have edited : Edited tree (tree.withTokens (tree.tokens.drop 2 ++ tree.tokens.take 2)) :=
    .step .refl (.reorder swapped.symm)
  have mapped := (edited_mapping edited (by decide +kernel) (by decide +kernel)).1
  rw [mapped.decoded]
  decide +kernel

/-- Between a carriage return and a line feed a token is renamed to nothing. Its segment names the
column behind the carriage return, and nothing of the converted text is there. -/
theorem conversion_moves_empty_token :
    let tree := (Tree.parse ⟨true, ["a.ts"]⟩ "\rb\n").rename "b" ""
    Edited (Tree.parse ⟨true, ["a.ts"]⟩ "\rb\n") tree ∧
      (∀ t ∈ tree.tokens, (mappedOffset? t).isSome → t.text.toList.head? ≠ some '\n') ∧
      (∃ front t back, tree.tokens = front ++ t :: back ∧ (mappedOffset? t).isSome ∧
        Spot.behind (printChars front) = ⟨0, 1⟩) ∧
      decode? (printWithMappings tree).2 = some [[⟨1, 0, 0, 1⟩], []] ∧
      ∀ before behind, (convertBreaks (some .lf) tree.print).toList = before ++ behind →
        Spot.behind before ≠ ⟨0, 1⟩ := by
  intro tree
  have parsed : (Tree.parse ⟨true, ["a.ts"]⟩ "\rb\n").tokens = [⟨.whitespace, "\r", some 0⟩] ++
      ⟨.identifier, "b", some 1⟩ :: [⟨.whitespace, "\n", some 2⟩] := by decide +kernel
  have renamed : tree.tokens = [⟨.whitespace, "\r", some 0⟩] ++
      ⟨.identifier, "", some 1⟩ :: [⟨.whitespace, "\n", some 2⟩] := by decide +kernel
  have edit := Edit.rewrite [⟨.whitespace, "\r", some 0⟩] [⟨.whitespace, "\n", some 2⟩]
    ⟨.identifier, "b", some 1⟩ ""
  rw [← parsed, ← renamed] at edit
  refine ⟨.step .refl edit, ?_, ⟨_, _, _, renamed, rfl, by decide +kernel⟩, by decide +kernel, ?_⟩
  · decide +kernel
  · intro before behind text
    have short : (convertBreaks (some .lf) tree.print).toList = ['\n'] := by decide +kernel
    rw [short] at text
    rcases List.append_eq_singleton_iff.mp text.symm with ⟨rfl, _⟩ | ⟨rfl, _⟩ <;> decide

end Edits

section Untouched

/-- The first mark of a line of an untouched tree lies between two parts of the text. -/
theorem exists_of_firstMark?_parse {file : Path} {source : String} {line : Nat}
    {mark : Spot × Nat} (found : firstMark? (Tree.parse file source).tokens line = some mark) :
    ∃ before behind, source.toList = before ++ behind ∧ before.count '\n' = line ∧
      mark = (Spot.behind before, byteLength before) := by
  obtain ⟨here, front, t, back, cut, stems, there⟩ := exists_of_firstMark? found
  have whole := congrArg String.toList (Tree.print_parse file source)
  rw [Tree.print, cut, String.toList_ofList, printChars_append] at whole
  have placed := (offset_of_tokensFrom cut).symm.trans stems
  rw [Nat.zero_add] at placed
  refine ⟨printChars front, printChars (t :: back), whole.symm, ?_, ?_⟩
  · rw [← here, there, Spot.behind]
  · rw [← there, Option.some.inj placed]

/-- A line of an untouched text is mapped to itself, from the place where its first mapped token
begins. There the column of the printed line counts UTF-16 units and that of the text counts bytes:
they are equal if and only if there is only ASCII before it on the line. -/
theorem untouched_mapping (file : Path) {source : String} (small : source.utf8ByteSize < 2 ^ 63) :
    ∃ lines, decode? (printWithMappings (Tree.parse file source)).2 = some lines ∧
      lines.length = source.toList.count '\n' + 1 ∧
      ∀ line origins, lines[line]? = some origins →
        (origins = [] ∧ firstMark? (Tree.parse file source).tokens line = none) ∨
        ∃ before behind, source.toList = before ++ behind ∧ before.count '\n' = line ∧
          firstMark? (Tree.parse file source).tokens line =
            some (Spot.behind before, byteLength before) ∧
          origins =
            [⟨length16 (lastLine before), 0, line, byteLength (lastLine before)⟩] ∧
          (byteLength (lastLine before) = length16 (lastLine before) ↔
            ∀ c ∈ lastLine before, c.toNat < 128) := by
  have mapped := mapped_printWithMappings (sized_parse file small)
    (by rw [Tree.print_parse]; exact small)
  have text : (printWithMappings (Tree.parse file source)).1 = source :=
    mapped.prints.trans (Tree.print_parse file source)
  refine ⟨_, mapped.decoded, ?_, fun line origins here => ?_⟩
  · rw [List.length_map, List.length_range, text]
  · rw [List.getElem?_map, Option.map_eq_some_iff] at here
    obtain ⟨number, listed, rfl⟩ := here
    obtain ⟨_, same⟩ := List.getElem?_eq_some_iff.mp listed
    rw [List.getElem_range] at same
    subst same
    cases found : firstMark? (Tree.parse file source).tokens line with
    | none => exact .inl ⟨rfl, rfl⟩
    | some mark =>
      obtain ⟨before, behind, whole, lines, rfl⟩ := exists_of_firstMark?_parse found
      have stood := Tree.location_parse whole file
      have ascii := (length16_le_and_eq_iff (lastLine before)).2
      refine .inr ⟨before, behind, whole, lines, rfl, ?_, eq_comm.trans ascii⟩
      rw [← lines]
      simp only [Option.map_some, Option.toList_some, segmentAt, Segment.origin, stood,
        Spot.behind]

/-- A no-break space is one UTF-16 unit, and two bytes. -/
theorem untouched_mapping_behind_wide_space :
    ∃ lines,
      decode? (printWithMappings (Tree.parse ⟨true, ["a.ts"]⟩ "\u00a0let a = 1;\n")).2 = some lines ∧
      lines.length = 2 ∧ lines = [[⟨1, 0, 0, 2⟩], []] := by
  have small : "\u00a0let a = 1;\n".utf8ByteSize < 2 ^ 63 := by decide +kernel
  obtain ⟨lines, decoded, length, _⟩ := untouched_mapping ⟨true, ["a.ts"]⟩ small
  refine ⟨lines, decoded, length.trans (by decide +kernel), ?_⟩
  exact Option.some.inj (decoded.symm.trans (by decide +kernel))

end Untouched

end Recast.Emit
