import Mathlib.Data.List.Basic
import Recast.Proofs.Emit.LineEndings

/-! # The line breaks of a rendering

The line ending that is wanted is the form that every line break of the text should have. Converting
a text to carriage returns and line feeds gives it this form, and undoing that gives what converting
to line feeds gives. Converting to line feeds looks at each place once: of two carriage returns
before a line feed it leaves one (`hasForm_converted_iff`), and the line that names the source map
is put behind a text that is converted already (`hasForm_withMapLine_iff`).
-/

namespace Recast.Emit

open Text SourceMap

/-- A carriage return stands directly before a line feed. -/
def HasReturn (cs : List Char) : Prop :=
  ['\r', '\n'] <:+: cs

/-- A carriage return stands directly before each line feed. -/
def Returned (cs : List Char) : Prop :=
  ∀ front behind, cs = front ++ '\n' :: behind → front.getLast? = some '\r'

/-- Every line break has the wanted form. -/
def HasForm : NewLine → List Char → Prop
  | .lf, cs => ¬HasReturn cs
  | .crlf, cs => Returned cs

section Returns

variable {c : Char} {cs front behind : List Char}

theorem hasReturn_cons_iff : HasReturn (c :: cs) ↔ SplitsBreak [c] cs ∨ HasReturn cs := by
  have first : ['\r', '\n'] <+: c :: cs ↔ SplitsBreak [c] cs := by
    rw [List.cons_prefix_cons, SplitsBreak]
    cases cs <;> simp [eq_comm]
  rw [HasReturn, List.infix_cons_iff, first, HasReturn]

theorem hasReturn_append_iff :
    HasReturn (front ++ behind) ↔
      HasReturn front ∨ HasReturn behind ∨ SplitsBreak front behind := by
  induction front with
  | nil => simp [HasReturn, SplitsBreak]
  | cons c front ih =>
    rw [List.cons_append, hasReturn_cons_iff, hasReturn_cons_iff, ih]
    cases front with
    | nil => simp [HasReturn, SplitsBreak]; tauto
    | cons d front =>
      have last : (c :: d :: front).getLast? = (d :: front).getLast? := List.getLast?_cons_cons
      simp only [SplitsBreak, last, List.cons_append, List.head?_cons]
      tauto

theorem returned_append_iff (whole : ¬SplitsBreak front behind) :
    Returned (front ++ behind) ↔ Returned front ∧ Returned behind := by
  constructor
  · intro returned
    refine ⟨fun before after spelled => ?_, fun before after spelled => ?_⟩
    · exact returned before (after ++ behind) (by rw [spelled]; simp)
    · have last := returned (front ++ before) after (by rw [spelled]; simp)
      cases before with
      | nil => exact absurd ⟨by simpa using last, by rw [spelled]; rfl⟩ whole
      | cons d before => rwa [List.getLast?_append_of_ne_nil _ (List.cons_ne_nil _ _)] at last
  · rintro ⟨first, second⟩ before after spelled
    rcases List.append_eq_append_iff.mp spelled with ⟨middle, rfl, rest⟩ | ⟨middle, rfl, rest⟩
    · -- the line feed stands in the text behind
      have last := second middle after rest
      rw [List.getLast?_append_of_ne_nil _ (List.ne_nil_of_mem (List.mem_of_getLast? last)), last]
    · cases middle with
      | nil =>
        have last := second [] after (by simpa using rest.symm)
        cases last
      | cons d middle =>
        obtain ⟨rfl, rfl⟩ := List.cons.inj rest
        exact first before middle rfl

/-- A text without line feeds has every form. -/
theorem hasForm_of_not_mem (ending : NewLine) (single : '\n' ∉ cs) : HasForm ending cs := by
  cases ending with
  | lf => exact fun inside => single (inside.subset (by simp))
  | crlf =>
    rintro front behind rfl
    exact absurd (by simp) single

theorem hasForm_append_iff (ending : NewLine) (whole : ¬SplitsBreak front behind) :
    HasForm ending (front ++ behind) ↔ HasForm ending front ∧ HasForm ending behind := by
  cases ending with
  | lf =>
    rw [HasForm, HasForm, HasForm, hasReturn_append_iff]
    tauto
  | crlf => exact returned_append_iff whole

end Returns

section Conversion

variable {cs : List Char}

theorem withReturns_cons (c : Char) (cs : List Char) :
    withReturns (c :: cs) = (if c = '\n' then ['\r', '\n'] else [c]) ++ withReturns cs := by
  rw [withReturns_eq_flatMap, List.flatMap_cons, ← withReturns_eq_flatMap]

/-- A carriage return stands before the first line feed. -/
private theorem not_splitsBreak_withReturns (front cs : List Char) :
    ¬SplitsBreak front (withReturns cs) := by
  rintro ⟨_, first⟩
  cases cs with
  | nil => cases first
  | cons c cs =>
    rw [withReturns_cons] at first
    split at first
    · cases first
    · next other =>
      rw [List.singleton_append, List.head?_cons, Option.some.injEq] at first
      exact other first

theorem returned_withReturns (cs : List Char) : Returned (withReturns cs) := by
  induction cs with
  | nil => exact hasForm_of_not_mem .crlf List.not_mem_nil
  | cons c cs ih =>
    rw [withReturns_cons, returned_append_iff (not_splitsBreak_withReturns _ cs)]
    refine ⟨?_, ih⟩
    split
    · intro front behind spelled
      rcases List.append_eq_cons_iff.mp spelled.symm with ⟨rfl, rest⟩ | ⟨before, rfl, rest⟩
      · cases rest
      · rcases List.append_eq_cons_iff.mp rest.symm with ⟨rfl, _⟩ | ⟨_, rfl, more⟩
        · rfl
        · simp at more
    · next other => exact hasForm_of_not_mem .crlf (by simpa using Ne.symm other)

/-- Dropping the carriage returns that were put before line feeds leaves the text. -/
theorem withoutReturns_withReturns (cs : List Char) : withoutReturns (withReturns cs) = cs := by
  induction cs with
  | nil => rfl
  | cons c cs ih =>
    rw [withReturns_cons]
    split
    · next ends =>
      rw [List.cons_append, List.singleton_append, withoutReturns_cons, if_pos ⟨rfl, rfl⟩,
        withoutReturns_cons, if_neg (by simp), ih, ends]
    · rw [List.singleton_append, withoutReturns_cons, ih, if_neg]
      rintro ⟨rfl, first⟩
      exact not_splitsBreak_withReturns ['\r'] cs ⟨rfl, first⟩

/-- A text with a carriage return before each line feed loses and regains them. -/
theorem withReturns_withoutReturns {cs : List Char} (returned : Returned cs) :
    withReturns (withoutReturns cs) = cs := by
  -- both characters of a line break are taken at once, so the recursion is on the length
  match cs with
  | [] => rfl
  | c :: cs =>
    rw [withoutReturns_cons]
    split
    · next ending =>
      obtain ⟨rfl, first⟩ := ending
      obtain ⟨rest, rfl⟩ := List.head?_eq_some_iff.mp first
      have whole : ¬SplitsBreak ['\r', '\n'] rest := by simp [SplitsBreak]
      have later := ((returned_append_iff whole).mp returned).2
      rw [withoutReturns_cons, if_neg (by simp), withReturns_cons, if_pos rfl,
        withReturns_withoutReturns later]
      rfl
    · next ending =>
      have other : c ≠ '\n' := by
        rintro rfl
        cases returned [] cs rfl
      have whole : ¬SplitsBreak [c] cs := fun cut => ending ⟨by simpa using cut.1, cut.2⟩
      have later := ((returned_append_iff whole).mp returned).2
      rw [withReturns_cons, if_neg other, withReturns_withoutReturns later]
      rfl
termination_by cs.length

theorem length_withoutReturns_le (cs : List Char) : (withoutReturns cs).length ≤ cs.length := by
  induction cs with
  | nil => exact Nat.le_refl _
  | cons c cs ih =>
    rw [withoutReturns_cons]
    split
    · exact Nat.le_succ_of_le ih
    · exact Nat.succ_le_succ ih

theorem withoutReturns_eq_self_iff : withoutReturns cs = cs ↔ ¬HasReturn cs := by
  induction cs with
  | nil => simp [HasReturn]
  | cons c cs ih =>
    rw [withoutReturns_cons, hasReturn_cons_iff]
    by_cases ending : c = '\r' ∧ cs.head? = some '\n'
    · rw [if_pos ending]
      refine iff_of_false (fun same => ?_) fun free => free (.inl ⟨by rw [ending.1]; rfl, ending.2⟩)
      have shorter := length_withoutReturns_le cs
      rw [same, List.length_cons] at shorter
      omega
    · have whole : ¬SplitsBreak [c] cs := fun cut => ending ⟨by simpa using cut.1, cut.2⟩
      rw [if_neg ending, List.cons.injEq, ih]
      tauto

private theorem head?_withoutReturns_iff (cs : List Char) :
    (withoutReturns cs).head? = some '\n' ↔ cs.head? = some '\n' ∨ ['\r', '\n'] <+: cs := by
  cases cs with
  | nil => simp
  | cons c cs =>
    rw [withoutReturns_cons]
    split
    · next ending =>
      obtain ⟨rfl, first⟩ := ending
      obtain ⟨rest, rfl⟩ := List.head?_eq_some_iff.mp first
      rw [withoutReturns_cons, if_neg (by simp)]
      simp
    · next ending =>
      cases cs with
      | nil => simp
      | cons d ds =>
        have apart : ¬['\r', '\n'] <+: c :: d :: ds := by simpa [eq_comm] using ending
        rw [List.head?_cons, List.head?_cons, or_iff_left apart]

/-- Dropping the carriage returns leaves one before a line feed where there were two. -/
theorem hasReturn_withoutReturns_iff :
    HasReturn (withoutReturns cs) ↔ ['\r', '\r', '\n'] <:+: cs := by
  induction cs with
  | nil => simp [HasReturn]
  | cons c cs ih =>
    rw [withoutReturns_cons, List.infix_cons_iff, ← ih]
    split
    · next ending =>
      obtain ⟨rfl, first⟩ := ending
      obtain ⟨rest, rfl⟩ := List.head?_eq_some_iff.mp first
      simp
    · next ending =>
      have doubled : SplitsBreak [c] (withoutReturns cs) ↔ ['\r', '\r', '\n'] <+: c :: cs := by
        rw [SplitsBreak, head?_withoutReturns_iff, List.cons_prefix_cons, List.getLast?_singleton,
          Option.some.injEq, @eq_comm _ c]
        refine and_congr_right fun same => or_iff_right fun first => ending ⟨same.symm, first⟩
      rw [hasReturn_cons_iff, doubled]

/-- The last character of a text is never dropped. -/
theorem getLast?_withoutReturns (cs : List Char) :
    (withoutReturns cs).getLast? = cs.getLast? := by
  induction cs with
  | nil => rfl
  | cons c cs ih =>
    rw [withoutReturns_cons]
    split
    · next ending =>
      obtain ⟨rest, rfl⟩ := List.head?_eq_some_iff.mp ending.2
      rw [ih, List.getLast?_cons_cons]
    · rw [List.getLast?_cons, ih, ← List.getLast?_cons]

/-- Converting gives every line break the wanted form, except where a line feed stands behind two
carriage returns. -/
theorem hasForm_converted_iff (ending : NewLine) : HasForm ending (converted (some ending) cs) ↔
    (ending = .lf → ¬['\r', '\r', '\n'] <:+: cs) := by
  cases ending with
  | lf => simp [HasForm, converted, hasReturn_withoutReturns_iff]
  | crlf => exact iff_of_true (returned_withReturns _) fun feeds => by cases feeds

/-- Converting changes nothing exactly where every line break has the wanted form. -/
theorem converted_eq_self_iff (ending : NewLine) :
    converted (some ending) cs = cs ↔ HasForm ending cs := by
  cases ending with
  | lf => exact withoutReturns_eq_self_iff
  | crlf => exact ⟨fun same => same ▸ returned_withReturns _, withReturns_withoutReturns⟩

theorem converted_lf_crlf (cs : List Char) :
    converted (some .lf) (converted (some .crlf) cs) = converted (some .lf) cs :=
  withoutReturns_withReturns _

end Conversion

section Rendered

variable {ending : NewLine} {options : Options}

/-- What stands in front of the name of a source map. -/
private abbrev mapMark : String := "//# sourceMappingURL="

/-- Behind a text that is not empty and ends no line, a line break is put before the line that names
the source map. -/
private theorem hasForm_gap_iff (text : String) :
    HasForm ending (text.toList ++
        (if text.isEmpty || text.toList.getLast? = some '\n' then "" else ending.text).toList) ↔
      HasForm ending text.toList ∧ (ending = .lf → text.toList.getLast? ≠ some '\r') := by
  split
  · next closed =>
    have last : text.toList.getLast? ≠ some '\r' := by
      simp only [Bool.or_eq_true, String.isEmpty_iff, decide_eq_true_eq] at closed
      rcases closed with rfl | closed
      · simp
      · rw [closed]
        decide
    simp [last]
  · cases ending with
    | lf =>
      have single : ¬HasReturn ['\n'] := by simp [HasReturn, List.infix_cons_iff]
      change ¬HasReturn (text.toList ++ ['\n']) ↔ _
      rw [hasReturn_append_iff]
      simp [HasForm, SplitsBreak, single]
    | crlf =>
      have whole : ¬SplitsBreak text.toList ['\r', '\n'] := by simp [SplitsBreak]
      have ended : Returned ['\r', '\n'] := returned_withReturns ['\n']
      change Returned (text.toList ++ ['\r', '\n']) ↔ _
      rw [returned_append_iff whole]
      simp [HasForm, ended]

/-- The line that names the source map may break the form: its line feed behind a carriage return at
the end of the text, and line breaks in the name. -/
theorem hasForm_withMapLine_iff (set : options.newLine = some ending) (mapPath : Path)
    (text : String) : HasForm ending (withMapLine options mapPath text).toList ↔
      HasForm ending text.toList ∧ (ending = .lf → text.toList.getLast? ≠ some '\r') ∧
        HasForm ending (mapPath.fileName?.getD "").toList := by
  have newLine : options.newLineText = ending.text := by rw [Options.newLineText, set]; rfl
  have inside : ¬SplitsBreak mapMark.toList (mapPath.fileName?.getD "").toList := by
    rintro ⟨last, _⟩
    revert last
    decide
  have before (front : List Char) :
      ¬SplitsBreak front (mapMark.toList ++ (mapPath.fileName?.getD "").toList) := by
    rintro ⟨_, first⟩
    rw [List.head?_append_of_ne_nil _ (by decide)] at first
    revert first
    decide
  have mark : HasForm ending mapMark.toList := hasForm_of_not_mem ending (by decide)
  rw [withMapLine, newLine, String.toList_append, String.toList_append, String.toList_append,
    List.append_assoc, hasForm_append_iff ending (before _), hasForm_append_iff ending inside,
    hasForm_gap_iff]
  tauto

/-- The name under which a rendering names its source map. -/
def mapName (tree : Script.Tree) (options : Options) (projectRoot : Path) : String :=
  ((tree.file.outputPath options projectRoot).append ".map").fileName?.getD ""

private theorem text_render (tree : Script.Tree) (options : Options) (projectRoot : Path) :
    (render tree options projectRoot).text =
      if options.wantsSourceMap then
        withMapLine options ((tree.file.outputPath options projectRoot).append ".map")
          (convertBreaks options.newLine tree.print)
      else convertBreaks options.newLine tree.print := by
  have printed : (printWithMappings tree).1 = tree.print :=
    (printed_printTokens tree tree.tokens).text
  rw [← printed]
  unfold render
  split
  · rfl
  · rw [printed]

/-- Which line breaks a rendering has. All have the form that is wanted, except that under line
feeds a carriage return is left before a line feed where the printed text has two or, with a source
map, ends in one, and that line breaks in the name of the source map stay as they are. Converting
the text again changes it exactly where the form is broken. Converting any text to carriage returns
and line feeds, and then to line feeds, gives what converting it to line feeds gives. -/
theorem render_hasForm_iff (tree : Script.Tree) (options : Options) (projectRoot : Path)
    (set : options.newLine = some ending) :
    (HasForm ending (render tree options projectRoot).text.toList ↔
      (ending = .lf → ¬['\r', '\r', '\n'] <:+: tree.print.toList) ∧
      (options.wantsSourceMap = true →
        (ending = .lf → tree.print.toList.getLast? ≠ some '\r') ∧
        HasForm ending (mapName tree options projectRoot).toList)) ∧
    (convertBreaks (some ending) (render tree options projectRoot).text =
        (render tree options projectRoot).text ↔
      HasForm ending (render tree options projectRoot).text.toList) ∧
    ∀ text, convertBreaks (some .lf) (convertBreaks (some .crlf) text) =
      convertBreaks (some .lf) text := by
  refine ⟨?form, ?again, fun text => ?both⟩
  case form =>
    have last : ending = .lf →
        (converted (some ending) tree.print.toList).getLast? = tree.print.toList.getLast? := by
      rintro rfl
      exact getLast?_withoutReturns _
    rw [text_render]
    split
    · next wanted =>
      rw [hasForm_withMapLine_iff set, set, toList_convertBreaks, hasForm_converted_iff, wanted]
      refine and_congr_right fun _ => ?_
      rw [forall_prop_of_true rfl]
      exact and_congr_left fun _ => forall_congr' fun feeds => by rw [last feeds]
    · next unwanted =>
      rw [set, toList_convertBreaks, hasForm_converted_iff]
      simp [unwanted]
  case again => rw [← String.toList_inj, toList_convertBreaks, converted_eq_self_iff]
  case both =>
    apply String.toList_injective
    simp only [toList_convertBreaks, converted_lf_crlf]

/-- Under line feeds one of two carriage returns is left, and the source map is named behind a
carriage return; the other form is kept. -/
theorem render_hasForm_iff_doubled :
    let rendered (newLine : NewLine) (source : String) := (render (.parse ⟨true, ["a.ts"]⟩ source)
      { newLine := some newLine, sourceMap := some true } ⟨true, []⟩).text.toList
    ¬HasForm .lf (rendered .lf "a\r\r\nb") ∧ ¬HasForm .lf (rendered .lf "a\r") ∧
      HasForm .crlf (rendered .crlf "a\r\r\nb") := by
  have form (newLine : NewLine) (source : String) := (render_hasForm_iff
    (.parse ⟨true, ["a.ts"]⟩ source) { newLine := some newLine, sourceMap := some true } ⟨true, []⟩
    rfl).1
  simp only [Script.Tree.print_parse] at form
  have other {P : Prop} : NewLine.crlf = .lf → P := fun feeds => absurd feeds (by decide)
  refine ⟨fun kept => ?_, fun kept => ?_, (form .crlf _).mpr ⟨other, fun _ => ⟨other, ?_⟩⟩⟩
  · exact ((form .lf _).mp kept).1 rfl ⟨['a'], ['b'], by decide⟩
  · exact (((form .lf _).mp kept).2 rfl).1 rfl (by decide)
  · exact hasForm_of_not_mem .crlf (by decide +kernel)

end Rendered

end Recast.Emit
