import Recast.Proofs.Path.Sameness
import Recast.Script.Naming

/-! # Where outputs lie

The output of a file lies where the file is mirrored, under the name that it gets with the emitted
extension; its source map lies beside it. So the outputs of two files are at one place exactly when
the files are mirrored into one directory and get one name there (`same_outputPath_iff`), and an
output is never at the place of a source map (`not_same_append_map`).
-/

namespace Recast.Path

section Steps

variable {p q : Path} {rooted : Bool} {front : List String} {last name : String}

private theorem innerComponents_append (xs ys : List String) :
    innerComponents (xs ++ ys) = innerComponents xs ++ innerComponents ys := by
  simp [innerComponents]

/-- The steps of a path that begins neither at the root nor with a dot. -/
private theorem components_of_undotted {segments : List String}
    (undotted : segments.head? ≠ some ".") :
    (⟨false, segments⟩ : Path).components = innerComponents segments := by
  unfold components
  dsimp only
  rw [if_neg Bool.false_ne_true]
  split
  · exact absurd rfl undotted
  · rfl

/-- The last segment of a path takes the last step, unless it is idle. -/
private theorem components_concat (busy : isIdle last = false) :
    (⟨rooted, front ++ [last]⟩ : Path).components =
      (⟨rooted, front⟩ : Path).components ++ [stepOf last] := by
  have step : innerComponents [last] = [stepOf last] := by simp [innerComponents, busy]
  have named : last ≠ "." := by
    rintro rfl
    simp [isIdle] at busy
  cases rooted with
  | true => simp [components, innerComponents_append, step]
  | false =>
    cases front with
    | nil => rw [List.nil_append, components_of_undotted (by simpa using named), step]; rfl
    | cons first front =>
      by_cases dot : first = "."
      · subst dot
        simp [components, innerComponents_append, step]
      · rw [components_of_undotted (by simpa using dot), innerComponents_append, step,
          components_of_undotted (by simpa using dot)]

/-- An idle segment at the end takes no step, unless it is a dot and all there is. -/
private theorem components_concat_idle (idle : isIdle last = true)
    (more : (⟨rooted, front ++ [last]⟩ : Path) ≠ ⟨false, ["."]⟩) :
    (⟨rooted, front ++ [last]⟩ : Path).components = (⟨rooted, front⟩ : Path).components := by
  have none : innerComponents [last] = [] := by simp [innerComponents, idle]
  cases rooted with
  | true => simp [components, innerComponents_append, none]
  | false =>
    cases front with
    | nil =>
      have undotted : last ≠ "." := by
        rintro rfl
        exact more rfl
      rw [List.nil_append, components_of_undotted (by simpa using undotted), none]
      rfl
    | cons first front =>
      by_cases dot : first = "."
      · subst dot
        simp [components, innerComponents_append, none]
      · rw [components_of_undotted (by simpa using dot), innerComponents_append, none,
          List.append_nil, components_of_undotted (by simpa using dot)]

private theorem filter_dropWhile_isIdle (xs : List String) :
    (xs.dropWhile isIdle).filter (fun x => !isIdle x) = xs.filter fun x => !isIdle x := by
  induction xs with
  | nil => rfl
  | cons x xs ih =>
    cases idle : isIdle x with
    | true => simpa [idle] using ih
    | false => simp [idle]

private theorem innerComponents_trimEnd (segments : List String) :
    innerComponents (trimEnd segments) = innerComponents segments := by
  unfold innerComponents trimEnd
  rw [List.filter_reverse, filter_dropWhile_isIdle, ← List.filter_reverse, List.reverse_reverse]

private theorem trimEnd_cases (segments : List String) :
    trimEnd segments = [] ∨
      ∃ front last, trimEnd segments = front ++ [last] ∧ isIdle last = false := by
  unfold trimEnd
  have busy := List.head?_dropWhile_not isIdle segments.reverse
  cases left : segments.reverse.dropWhile isIdle with
  | nil => exact .inl rfl
  | cons last rest =>
    rw [left] at busy
    exact .inr ⟨rest.reverse, last, List.reverse_cons, by simpa using busy⟩

private theorem trimEnd_isPrefix (segments : List String) : trimEnd segments <+: segments := by
  have ending := List.dropWhile_suffix isIdle (l := segments.reverse)
  simpa [trimEnd] using List.reverse_prefix.mpr ending

private theorem head?_of_head?_trimEnd {segments : List String} {first : String}
    (front : (trimEnd segments).head? = some first) : segments.head? = some first := by
  obtain ⟨rest, whole⟩ := trimEnd_isPrefix segments
  have same : (trimEnd segments ++ rest).head? = some first := by
    rw [List.head?_append, front]
    rfl
  rwa [whole] at same

/-- Trimming takes no step away. What is left has no step, only a dot, or ends in a busy segment. -/
private theorem trimmed_spec (p : Path) :
    p.trimmed.components = p.components ∧ p.trimmed.rooted = p.rooted ∧
      (p.trimmed.segments = [] ∨ (p.rooted = false ∧ p.trimmed.segments = ["."]) ∨
        ∃ front last, p.trimmed.segments = front ++ [last] ∧ isIdle last = false) := by
  obtain ⟨rooted, segments⟩ := p
  cases rooted with
  | true =>
    refine ⟨by simp [trimmed, components, innerComponents_trimEnd], rfl, ?_⟩
    exact (trimEnd_cases segments).imp id .inr
  | false =>
    unfold trimmed
    dsimp only
    rw [if_neg Bool.false_ne_true]
    split
    · next rest =>
      refine ⟨by simp [components, innerComponents_trimEnd], rfl, .inr ?_⟩
      dsimp only
      rcases trimEnd_cases rest with none | ⟨front, last, spelled, busy⟩
      · rw [none]
        exact .inl ⟨rfl, rfl⟩
      · exact .inr ⟨"." :: front, last, by rw [spelled]; rfl, busy⟩
    · next undotted =>
      have undotted : segments.head? ≠ some "." := fun dotted =>
        let ⟨rest, spelled⟩ := List.head?_eq_some_iff.mp dotted
        undotted rest spelled
      refine ⟨?_, rfl, (trimEnd_cases segments).imp id .inr⟩
      rw [components_of_undotted (undotted ∘ head?_of_head?_trimEnd), innerComponents_trimEnd,
        components_of_undotted undotted]

theorem segments_trimmed_isPrefix (p : Path) : p.trimmed.segments <+: p.segments := by
  obtain ⟨rooted, segments⟩ := p
  cases rooted with
  | true => exact trimEnd_isPrefix segments
  | false =>
    unfold trimmed
    dsimp only
    rw [if_neg Bool.false_ne_true]
    split
    · next rest => exact (List.prefix_cons_inj ".").mpr (trimEnd_isPrefix rest)
    · exact trimEnd_isPrefix segments

/-- Nothing is idle at the end of a path in normal form. -/
theorem IsNormal.trimmed (normal : p.IsNormal) : p.trimmed = p :=
  have normal' : p.trimmed.IsNormal := fun segment member =>
    normal segment (p.segments_trimmed_isPrefix.subset member)
  normal'.eq_of_same normal (same_iff.mpr p.trimmed_spec.1)

theorem IsNormal.parent? (normal : p.IsNormal) :
    p.parent? =
      if p.segments.isEmpty then none else some ⟨p.rooted, p.segments.dropLast⟩ := by
  have normal' : IsNormal ⟨p.rooted, p.segments.dropLast⟩ := fun segment member =>
    normal segment ((List.dropLast_prefix _).subset member)
  unfold Path.parent?
  rw [normal.trimmed]
  dsimp only
  rw [normal'.trimmed]

/-- A path with a last name, cut in front of it. -/
theorem trimmed_of_fileName? (named : p.fileName? = some name) :
    isIdle name = false ∧ ∃ front, p.trimmed = ⟨p.rooted, front ++ [name]⟩ ∧
      p.components = (⟨p.rooted, front⟩ : Path).components ++ [.normal name] := by
  have last : p.components.getLast? = some (.normal name) := by
    unfold fileName? at named
    split at named
    · next found => rw [found, Option.some.inj named]
    · cases named
  obtain ⟨steps, rooted, shape⟩ := p.trimmed_spec
  have whole : p.trimmed = ⟨p.rooted, p.trimmed.segments⟩ := rooted ▸ rfl
  rcases shape with none | ⟨relative, dot⟩ | ⟨front, segment, spelled, busy⟩
  · rw [whole, none] at steps
    rw [← steps] at last
    cases root : p.rooted <;> simp [root, components, innerComponents] at last
  · rw [whole, dot, relative] at steps
    rw [← steps] at last
    simp [components, innerComponents] at last
  · rw [whole, spelled, components_concat busy] at steps
    rw [← steps, List.getLast?_concat, Option.some.injEq] at last
    have same : segment = name := by
      unfold stepOf at last
      split at last
      · cases last
      · exact Component.normal.inj last
    subst same
    exact ⟨busy, front, whole.trans (by rw [spelled]), by rw [← steps, last]⟩

end Steps

section Renaming

variable {p : Path} {name extension : String}

/-- The last name of a path with another extension. -/
def renamed (p : Path) (name extension : String) : String :=
  if (splitName name).1 = "." && (splitName name).2.isSome &&
    p.trimmed.segments.length = p.segments.length then ".."
  else (splitName name).1 ++ "." ++ extension

/-- The last step of a path with another extension. A step that is no name has none. -/
def lastStep? (p : Path) (extension : String) : Option Component :=
  match p.fileName? with
  | none => p.components.getLast?
  | some name => some (stepOf (p.renamed name extension))

theorem withExtension_of_fileName? (named : p.fileName? = some name) (extension : String) :
    p.withExtension extension =
      ⟨p.trimmed.rooted, p.trimmed.segments.dropLast ++ [p.renamed name extension]⟩ := by
  unfold withExtension renamed
  rw [named]

theorem isIdle_renamed (some : extension ≠ "") : isIdle (p.renamed name extension) = false := by
  unfold renamed
  split
  · rfl
  · have long : 2 ≤ ((splitName name).1 ++ "." ++ extension).length := by
      have one : extension.length ≠ 0 := fun none => some (String.length_eq_zero_iff.mp none)
      have dot : ".".length = 1 := rfl
      rw [String.length_append, String.length_append, dot]
      omega
    unfold isIdle
    simp only [Bool.or_eq_false_iff, beq_eq_false_iff_ne, ne_eq]
    constructor <;> intro same <;> rw [same] at long <;> contradiction

/-- Another extension changes the last step only. -/
theorem components_withExtension (some : extension ≠ "") :
    (p.withExtension extension).components =
      p.components.dropLast ++ (p.lastStep? extension).toList := by
  unfold lastStep?
  cases named : p.fileName? with
  | none =>
    have same : p.withExtension extension = p := by
      unfold withExtension
      rw [named]
    rw [same]
    cases last : p.components.getLast? with
    | none => simp [List.getLast?_eq_none_iff.mp last]
    | some step =>
      obtain ⟨front, steps⟩ := List.getLast?_eq_some_iff.mp last
      rw [steps, List.dropLast_concat]
      rfl
  | some name =>
    obtain ⟨_, front, trimmed, steps⟩ := trimmed_of_fileName? named
    rw [withExtension_of_fileName? named, trimmed, List.dropLast_concat, components_concat
      (isIdle_renamed some), steps, List.dropLast_concat]
    rfl

private theorem lastStep?_eq_none (none : p.lastStep? extension = none) : p.components = [] := by
  unfold lastStep? at none
  split at none
  · exact List.getLast?_eq_none_iff.mp none
  · cases none

/-- Other extensions lead to one place exactly when directory and last step are the same. -/
theorem same_withExtension_iff {q : Path} {other : String} (some : extension ≠ "")
    (some' : other ≠ "") :
    (p.withExtension extension).same (q.withExtension other) = true ↔
      p.components.dropLast = q.components.dropLast ∧
        p.lastStep? extension = q.lastStep? other := by
  rw [same_iff, components_withExtension some, components_withExtension some']
  constructor
  · intro same
    cases first : p.lastStep? extension with
    | none =>
      rw [first, lastStep?_eq_none first] at same
      cases second : q.lastStep? other with
      | none => exact ⟨by rw [lastStep?_eq_none first, lastStep?_eq_none second], rfl⟩
      | some step => simp [second] at same
    | some step =>
      rw [first] at same
      cases second : q.lastStep? other with
      | none => simp [second, lastStep?_eq_none second] at same
      | some step' =>
        rw [second] at same
        obtain ⟨directory, last⟩ := List.append_inj' same rfl
        exact ⟨directory, congrArg _ (List.cons.inj last).1⟩
  · rintro ⟨directory, last⟩
    rw [directory, last]

theorem stem_ne_empty (busy : name ≠ "") : (splitName name).1 ≠ "" := by
  unfold splitName
  dsimp only
  split
  · exact busy
  · next long =>
    simp only [Bool.or_eq_true, not_or, Bool.not_eq_true] at long
    intro none
    have empty := congrArg String.toList none
    rw [String.toList_ofList, String.toList_empty] at empty
    rw [empty] at long
    exact absurd long.2 (by simp)

/-- A stem and an extension are told apart again. -/
theorem splitName_concat {stem : String} (some : stem ≠ "")
    (undotted : '.' ∉ extension.toList) :
    splitName (stem ++ "." ++ extension) = (stem, .some extension) := by
  have chars : (stem ++ "." ++ extension).toList = stem.toList ++ '.' :: extension.toList := by
    rw [String.toList_append, String.toList_append, List.append_assoc]
    rfl
  have behind : (((stem ++ "." ++ extension).toList.reverse.takeWhile (· ≠ '.')).reverse) =
      extension.toList := by
    have whole : ∀ cs : List Char, '.' ∉ cs →
        (cs ++ '.' :: stem.toList.reverse).takeWhile (· ≠ '.') = cs := by
      intro cs free
      rw [List.takeWhile_append_of_pos]
      · simp
      · intro c member
        have other : c ≠ '.' := fun same => free (same ▸ member)
        simpa using other
    rw [chars, List.reverse_append, List.reverse_cons, List.append_assoc]
    change ((extension.toList.reverse ++ '.' :: stem.toList.reverse).takeWhile _).reverse = _
    rw [whole _ (by simpa using undotted), List.reverse_reverse]
  unfold splitName
  dsimp only
  rw [behind]
  have length : (stem ++ "." ++ extension).length = stem.length + 1 + extension.length := by
    rw [String.length_append, String.length_append]
    rfl
  have before : (stem ++ "." ++ extension).toList.take
      ((stem ++ "." ++ extension).length - extension.toList.length - 1) = stem.toList := by
    rw [length, String.length_toList, chars]
    have place : stem.length + 1 + extension.length - extension.length - 1 =
        stem.toList.length := by
      rw [String.length_toList]
      omega
    rw [place, List.take_left]
  have nonempty : stem.toList.isEmpty = false := by
    cases spelled : stem.toList with
    | nil => exact absurd (String.toList_eq_nil_iff.mp spelled) some
    | cons _ _ => rfl
  rw [before, length, nonempty, String.length_toList, String.ofList_toList, String.ofList_toList]
  simp

/-- A last name with another extension has this extension. -/
theorem splitName_of_lastStep? (undotted : '.' ∉ extension.toList)
    (named : p.lastStep? extension = some (.normal name)) :
    ∃ stem, name = stem ++ "." ++ extension ∧ splitName name = (stem, some extension) := by
  unfold lastStep? at named
  split at named
  · next none =>
    unfold fileName? at none
    rw [named] at none
    cases none
  · next old found =>
    unfold renamed stepOf at named
    obtain ⟨busy, _⟩ := trimmed_of_fileName? found
    have proper : old ≠ "" := by
      rintro rfl
      simp [isIdle] at busy
    split at named
    · simp at named
    · split at named
      · cases named
      · cases named
        exact ⟨_, rfl, splitName_concat (stem_ne_empty proper) undotted⟩

end Renaming

section Outputs

variable {source p q : Path} {options : Options} {projectRoot : Path}

/-- The place of a file below the output directory, or its own place if there is none. -/
def mirrored (source : Path) (options : Options) (projectRoot : Path) : Path :=
  match options.outDir with
  | none => source
  | some outDir =>
    outDir.join (match source.stripPrefix? (options.rootDir.getD projectRoot) with
      | some relative => relative
      | none => (source.fileName?.map ofString).getD empty)

theorem outputPath_eq (source : Path) (options : Options) (projectRoot : Path) :
    source.outputPath options projectRoot =
      (source.mirrored options projectRoot).withExtension source.emittedExtension := by
  unfold outputPath mirrored
  cases options.outDir <;> rfl

theorem emittedExtension_mem (source : Path) :
    source.emittedExtension ∈ ["js", "mjs", "cjs", "json"] := by
  unfold emittedExtension
  split <;> simp

theorem emittedExtension_ne_empty (source : Path) : source.emittedExtension ≠ "" := by
  have known := source.emittedExtension_mem
  rintro none
  simp [none] at known

theorem undotted_emittedExtension (source : Path) : '.' ∉ source.emittedExtension.toList := by
  have known := source.emittedExtension_mem
  simp only [List.mem_cons, List.not_mem_nil, or_false] at known
  rcases known with same | same | same | same <;> rw [same] <;> decide

/-- The outputs of two files are at one place exactly when the files are mirrored into one directory
and get one name there. -/
theorem same_outputPath_iff {other : Path} :
    (source.outputPath options projectRoot).same (other.outputPath options projectRoot) = true ↔
      (source.mirrored options projectRoot).components.dropLast =
          (other.mirrored options projectRoot).components.dropLast ∧
        (source.mirrored options projectRoot).lastStep? source.emittedExtension =
          (other.mirrored options projectRoot).lastStep? other.emittedExtension := by
  rw [outputPath_eq, outputPath_eq, same_withExtension_iff source.emittedExtension_ne_empty
    other.emittedExtension_ne_empty]

private theorem getLast?_components_outputPath {name : String}
    (last : (source.outputPath options projectRoot).components.getLast? = some (.normal name)) :
    ∃ stem, name = stem ++ "." ++ source.emittedExtension ∧
      splitName name = (stem, some source.emittedExtension) := by
  have undotted := source.undotted_emittedExtension
  rw [outputPath_eq, components_withExtension source.emittedExtension_ne_empty] at last
  cases found : (source.mirrored options projectRoot).lastStep? source.emittedExtension with
  | none =>
    rw [found, lastStep?_eq_none found] at last
    cases last
  | some step =>
    rw [found, Option.toList_some, List.getLast?_concat, Option.some.injEq] at last
    exact splitName_of_lastStep? undotted (last ▸ found)

/-- A text that is written behind a path changes its last name. -/
theorem components_append {suffix : String} (long : 2 < suffix.length) (p : Path) :
    (p.append suffix).components = (⟨p.rooted, p.segments.dropLast⟩ : Path).components ++
      [.normal (p.segments.getLast?.getD "" ++ suffix)] := by
  have proper (text : String) :
      isIdle (text ++ suffix) = false ∧ stepOf (text ++ suffix) = .normal (text ++ suffix) := by
    have length : 2 < (text ++ suffix).length := by
      rw [String.length_append]
      omega
    unfold isIdle stepOf
    simp only [Bool.or_eq_false_iff, beq_eq_false_iff_ne, ne_eq, ite_eq_right_iff, reduceCtorEq,
      imp_false]
    refine ⟨⟨?_, ?_⟩, ?_⟩ <;> intro same <;> rw [same] at length <;> contradiction
  unfold append
  cases last : p.segments.getLast? with
  | none =>
    have empty := List.getLast?_eq_none_iff.mp last
    obtain ⟨busy, step⟩ := proper ""
    rw [empty, List.dropLast_nil, Option.getD_none, ← step, ← components_concat busy]
    rw [String.empty_append]
    rfl
  | some segment =>
    obtain ⟨busy, step⟩ := proper segment
    rw [Option.getD_some, ← step, ← components_concat busy]

/-- An output is never at the place of a source map. -/
theorem not_same_append_map (p : Path) :
    (source.outputPath options projectRoot).same (p.append ".map") = false := by
  rw [Bool.eq_false_iff]
  intro same
  have steps := congrArg List.getLast? (same_iff.mp same)
  rw [components_append (by decide), List.getLast?_concat] at steps
  obtain ⟨stem, spelled, _⟩ := getLast?_components_outputPath steps
  have ends := congrArg (fun name => name.toList.getLast?) spelled
  have known := source.emittedExtension_mem
  simp only [List.mem_cons, List.not_mem_nil, or_false] at known
  rcases known with same | same | same | same <;> rw [same] at ends <;>
    simp [String.toList_append] at ends

private theorem extension?_eq_some {found : String} (known : p.extension? = some found) :
    ∃ name, p.components.getLast? = some (.normal name) ∧ (splitName name).2 = some found := by
  obtain ⟨name, named, split⟩ := Option.bind_eq_some_iff.mp known
  refine ⟨name, ?_, split⟩
  unfold fileName? at named
  split at named
  · next last => rw [last, Option.some.inj named]
  · cases named

/-- An output that has an extension has the one that is emitted. -/
theorem extension?_outputPath {found : String}
    (known : (source.outputPath options projectRoot).extension? = some found) :
    found = source.emittedExtension := by
  obtain ⟨name, last, split⟩ := extension?_eq_some known
  obtain ⟨stem, _, spelled⟩ := getLast?_components_outputPath last
  rw [spelled] at split
  exact (Option.some.inj split).symm

theorem extension?_append_map {found : String} (known : (p.append ".map").extension? = some found) :
    found = "map" := by
  obtain ⟨name, last, split⟩ := extension?_eq_some known
  rw [components_append (by decide), List.getLast?_concat, Option.some.injEq,
    Component.normal.injEq] at last
  subst last
  by_cases empty : p.segments.getLast?.getD "" = ""
  · have bare : (splitName ("" ++ ".map")).2 = none := by decide
    rw [empty, bare] at split
    cases split
  · have spelled : splitName (p.segments.getLast?.getD "" ++ "." ++ "map") = (_, some "map") :=
      splitName_concat empty (by decide)
    rw [String.append_assoc, show ("." ++ "map" : String) = ".map" from rfl] at spelled
    rw [spelled] at split
    exact (Option.some.inj split).symm

/-- A path, seen by its last segment. A path that is only a dot is the exception. -/
private theorem components_eq_dropLast (more : p ≠ ⟨false, ["."]⟩) :
    p.components = (⟨p.rooted, p.segments.dropLast⟩ : Path).components ++
      if isIdle (p.segments.getLast?.getD "") then []
        else [stepOf (p.segments.getLast?.getD "")] := by
  obtain ⟨rooted, segments⟩ := p
  cases last : segments.getLast? with
  | none =>
    rw [List.getLast?_eq_none_iff.mp last]
    simp [isIdle]
  | some segment =>
    obtain ⟨front, spelled⟩ := List.getLast?_eq_some_iff.mp last
    subst spelled
    rw [List.dropLast_concat, Option.getD_some]
    cases idle : isIdle segment with
    | false => exact components_concat idle
    | true => exact (components_concat_idle idle more).trans (List.append_nil _).symm

/-- Paths with the same text behind them were the same before. -/
theorem same_of_same_append {suffix : String} (long : 2 < suffix.length)
    (more : p ≠ ⟨false, ["."]⟩) (more' : q ≠ ⟨false, ["."]⟩)
    (same : (p.append suffix).same (q.append suffix) = true) : p.same q = true := by
  have steps := same_iff.mp same
  rw [components_append long, components_append long] at steps
  obtain ⟨directory, last⟩ := List.append_inj' steps rfl
  rw [List.singleton_inj, Component.normal.injEq, String.append_left_inj] at last
  rw [same_iff, components_eq_dropLast more, components_eq_dropLast more', directory, last]

private theorem dot_of_trimmed_eq (dot : p.trimmed = ⟨false, ["."]⟩) :
    p.rooted = false ∧ p.segments.head? = some "." := by
  obtain ⟨rooted, segments⟩ := p
  unfold trimmed at dot
  dsimp only at dot
  split at dot
  · simp at dot
  · next relative =>
    refine ⟨by simpa using relative, ?_⟩
    split at dot
    · rfl
    · have spelled : trimEnd segments = ["."] := congrArg Path.segments dot
      have front : (trimEnd segments).head? = some "." := by rw [spelled]; rfl
      exact head?_of_head?_trimEnd front

/-- What is left behind some steps is not only a dot. -/
private theorem dropSteps?_ne_dot {steps : List Component}
    (undotted : p.rooted = true ∨ p.segments.head? ≠ some ".") :
    dropSteps? steps p ≠ some ⟨false, ["."]⟩ := by
  induction steps generalizing p with
  | nil =>
    intro same
    obtain ⟨relative, dotted⟩ := dot_of_trimmed_eq (Option.some.inj same)
    rcases undotted with rooted | other
    · rw [relative] at rooted
      cases rooted
    · exact other dotted
  | cons step steps ih =>
    have busy (segments : List String) :
        (⟨false, segments.dropWhile isIdle⟩ : Path).segments.head? ≠ some "." := by
      intro dotted
      have idle := List.head?_dropWhile_not isIdle segments
      rw [show (segments.dropWhile isIdle).head? = some "." from dotted] at idle
      simp [isIdle] at idle
    unfold dropSteps? uncons?
    intro same
    split at same
    · next found =>
      split at same
      · refine ih (.inr ?_) same
        repeat' split at found
        all_goals cases found
        all_goals exact busy _
      · cases same
    · cases same

private theorem eq_of_splitChars {separator : Char} {cs piece : List Char}
    (single : Text.splitChars separator cs = [piece]) : cs = piece := by
  induction cs generalizing piece with
  | nil => simpa [Text.splitChars] using single
  | cons c cs ih =>
    unfold Text.splitChars at single
    split at single
    · exact absurd (List.cons.inj single).2 (Text.splitChars_ne_nil separator cs)
    · split at single
      · next none => exact absurd none (Text.splitChars_ne_nil separator cs)
      · next first rest pieces =>
        obtain ⟨rfl, rfl⟩ := List.cons.inj single
        rw [ih pieces]

private theorem ofString_ne_dot {name : String} (busy : isIdle name = false) :
    ofString name ≠ ⟨false, ["."]⟩ := by
  intro same
  unfold ofString at same
  dsimp only at same
  split at same
  · simp at same
  · next body _ =>
    have spelled := congrArg Path.segments same
    dsimp only at spelled
    split at spelled
    · cases spelled
    · obtain ⟨piece, single, dot⟩ := List.map_eq_singleton_iff.mp spelled
      have whole := eq_of_splitChars single
      rw [← whole, String.ofList_toList] at dot
      rw [dot] at busy
      simp [isIdle] at busy

private theorem join_ne_dot (p : Path) {relative : Path} (more : relative ≠ ⟨false, ["."]⟩) :
    p.join relative ≠ ⟨false, ["."]⟩ := by
  unfold join
  split
  · exact more
  · next unrooted =>
    split
    · split
      · next empty =>
        intro same
        rw [same] at empty
        cases empty
      · intro same
        have last := congrArg (fun path => path.segments.getLast?) same
        simp at last
    · next some =>
      intro same
      have spelled : p.openSegments ++ relative.segments = ["."] := congrArg Path.segments same
      rcases List.append_eq_singleton_iff.mp spelled with ⟨_, dot⟩ | ⟨_, none⟩
      · obtain ⟨rooted, segments⟩ := relative
        dsimp only at dot
        subst dot
        exact more (by simpa using unrooted)
      · exact some (by rw [none]; rfl)

/-- A file is not mirrored to only a dot. -/
private theorem mirrored_ne_dot (normal : source.IsNormal) :
    source.mirrored options projectRoot ≠ ⟨false, ["."]⟩ := by
  have undotted : source.segments.head? ≠ some "." := by
    intro dotted
    have idle := normal "." (List.mem_of_mem_head? dotted)
    simp [isIdle] at idle
  unfold mirrored
  cases options.outDir with
  | none =>
    rintro rfl
    exact undotted rfl
  | some outDir =>
    refine join_ne_dot outDir ?_
    cases stripped : source.stripPrefix? (options.rootDir.getD projectRoot) with
    | some relative =>
      rintro rfl
      exact dropSteps?_ne_dot (.inr undotted) stripped
    | none =>
      cases named : source.fileName? with
      | none => simp [empty]
      | some name => exact ofString_ne_dot (trimmed_of_fileName? named).1

/-- Source maps of files in normal form are at one place only if the outputs are. -/
theorem same_of_same_map {other : Path} (normal : source.IsNormal) (normal' : other.IsNormal)
    (same : ((source.outputPath options projectRoot).append ".map").same
      ((other.outputPath options projectRoot).append ".map") = true) :
    (source.outputPath options projectRoot).same (other.outputPath options projectRoot) = true := by
  have more {file : Path} (normal : file.IsNormal) :
      file.outputPath options projectRoot ≠ ⟨false, ["."]⟩ := by
    rw [outputPath_eq]
    cases named : (file.mirrored options projectRoot).fileName? with
    | none =>
      unfold withExtension
      rw [named]
      exact mirrored_ne_dot normal
    | some name =>
      rw [withExtension_of_fileName? named]
      intro dot
      have spelled := congrArg Path.segments dot
      rcases List.append_eq_singleton_iff.mp spelled with ⟨_, last⟩ | ⟨_, none⟩
      · have busy : isIdle ((file.mirrored options projectRoot).renamed name
            file.emittedExtension) = false :=
          isIdle_renamed file.emittedExtension_ne_empty
        rw [(List.cons.inj last).1] at busy
        simp [isIdle] at busy
      · cases none
  exact same_of_same_append (by decide) (more normal) (more normal') same

end Outputs

end Recast.Path
