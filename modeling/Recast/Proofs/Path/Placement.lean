import Mathlib.Data.List.Infix
import Recast.Proofs.Path.Relative

/-! # Outputs mirror sources

The output of a file lies below the output directory where the file lies below the root directory, under
the name of the file with another extension; without an output directory it lies beside the file. Two
files below the root get one output only if they lie in one directory and have one stem.

A name of two dots and an extension is the exception. Its old extension is taken away first, and what is
left of the name is a step back: the output is then the directory above.
-/

namespace Recast.Path

section Names

variable {name extension : String}

/-- A name that got an extension, in place of its final one or behind a name that has none. -/
inductive Extends (extension : String) : String → String → Prop
  | replaced (stem old : String) (proper : stem ≠ "") (final : '.' ∉ old.toList) :
    Extends extension (stem ++ "." ++ old) (stem ++ "." ++ extension)
  | added (name : String) (bare : '.' ∉ name.toList.tail) :
    Extends extension name (name ++ "." ++ extension)

/-- A name of two dots and an extension. -/
def IsDotted (name : String) : Prop :=
  ∃ old, name = "." ++ "." ++ old ∧ '.' ∉ old.toList

/-- The name of an output. -/
def emittedName (name extension : String) : String :=
  if (splitName name).1 = "." then ".." else (splitName name).1 ++ "." ++ extension

/-- A name ends in its final extension, or no dot stands behind its first character. -/
theorem splitName_cases (name : String) :
    (∃ stem old, name = stem ++ "." ++ old ∧ stem ≠ "" ∧ '.' ∉ old.toList ∧
        splitName name = (stem, some old)) ∨
      ('.' ∉ name.toList.tail ∧ splitName name = (name, none)) := by
  cases spelled : name.toList with
  | nil =>
    rw [String.toList_eq_nil_iff.mp spelled]
    exact .inr ⟨nofun, rfl⟩
  | cons c cs =>
    rw [List.tail_cons]
    by_cases dot : '.' ∈ cs
    · -- the last dot is the first one from behind
      obtain ⟨behind, before, reversed, final⟩ :=
        List.eq_append_cons_of_mem (List.mem_reverse.mpr dot)
      have cut : name = String.ofList (c :: before.reverse) ++ "." ++ String.ofList behind.reverse := by
        apply String.toList_inj.mp
        rw [spelled, ← List.reverse_reverse cs, reversed]
        simp
      have proper : String.ofList (c :: before.reverse) ≠ "" := fun none => by
        simpa using congrArg String.toList none
      have final : '.' ∉ (String.ofList behind.reverse).toList := by
        rwa [String.toList_ofList, List.mem_reverse]
      refine .inl ⟨_, _, cut, proper, final, ?_⟩
      rw [cut]
      exact splitName_concat proper final
    · refine .inr ⟨dot, ?_⟩
      have free : ∀ d ∈ cs.reverse, (d ≠ '.' : Bool) = true := by
        intro d member
        simpa using fun same : d = '.' => dot (same ▸ List.mem_reverse.mp member)
      have length : name.length = cs.length + 1 := by
        rw [← String.length_toList, spelled, List.length_cons]
      have behind : name.toList.reverse.takeWhile (· ≠ '.') =
          cs.reverse ++ [c].takeWhile (· ≠ '.') := by
        rw [spelled, List.reverse_cons, List.takeWhile_append_of_pos free]
      unfold splitName
      dsimp only
      rw [behind, length]
      by_cases leading : c = '.'
      · simp [leading]
      · simp [leading]

theorem isDotted_iff (named : isIdle name = false) : IsDotted name ↔ (splitName name).1 = "." := by
  constructor
  · rintro ⟨old, rfl, final⟩
    rw [splitName_concat (by decide) final]
  · intro dot
    rcases splitName_cases name with ⟨stem, old, spelled, _, final, split⟩ | ⟨_, split⟩ <;>
      rw [split] at dot <;> dsimp only at dot
    · exact ⟨old, dot ▸ spelled, final⟩
    · rw [dot] at named
      cases named

/-- The name of an output is the name of the source with another extension, unless it is dotted. -/
theorem emittedName_spec (named : isIdle name = false) (extension : String) :
    (IsDotted name → emittedName name extension = "..") ∧
      (¬IsDotted name → Extends extension name (emittedName name extension)) := by
  rw [isDotted_iff named]
  refine ⟨fun dotted => if_pos dotted, fun plain => ?_⟩
  rw [emittedName, if_neg plain]
  rcases splitName_cases name with ⟨stem, old, spelled, proper, final, split⟩ | ⟨bare, split⟩ <;>
    rw [split]
  · rw [spelled]
    exact .replaced stem old proper final
  · exact .added name bare

private theorem ne_empty_of_busy (named : isIdle name = false) : name ≠ "" := by
  rintro rfl
  cases named

/-- The stem and the extension of an output. -/
private theorem splitName_emittedName (named : name ≠ "") (undotted : '.' ∉ extension.toList) :
    splitName (emittedName name extension) =
      ((splitName name).1, some (if (splitName name).1 = "." then "" else extension)) := by
  unfold emittedName
  split
  · next dotted =>
    rw [dotted]
    decide
  · exact splitName_concat (stem_ne_empty named) undotted

theorem isIdle_emittedName (named : isIdle name = false) (undotted : '.' ∉ extension.toList) :
    isIdle (emittedName name extension) = false := by
  have parts := splitName_emittedName (ne_empty_of_busy named) undotted
  have known (idle : String) (bare : splitName idle = (idle, none)) :
      emittedName name extension ≠ idle := fun same => by
    rw [same, bare] at parts
    cases (Prod.mk.inj parts).2
  simp [isIdle, known "" rfl, known "." rfl]

theorem emittedName_eq_back_iff (named : isIdle name = false) (undotted : '.' ∉ extension.toList) :
    emittedName name extension = ".." ↔ IsDotted name := by
  rw [isDotted_iff named]
  refine ⟨fun back => ?_, fun dotted => if_pos dotted⟩
  have parts := splitName_emittedName (ne_empty_of_busy named) undotted
  rw [back, show splitName ".." = (".", some "") by decide] at parts
  exact (Prod.mk.inj parts).1.symm

/-- Outputs have one name exactly when their sources have one stem and get one extension, unless it is
lost. -/
theorem emittedName_eq_iff {other extension' : String} (named : isIdle name = false)
    (named' : isIdle other = false)
    (undotted : '.' ∉ extension.toList) (undotted' : '.' ∉ extension'.toList) :
    emittedName name extension = emittedName other extension' ↔
      (splitName name).1 = (splitName other).1 ∧
        (IsDotted name ∨ extension = extension') := by
  rw [isDotted_iff named]
  constructor
  · intro same
    have parts := congrArg splitName same
    rw [splitName_emittedName (ne_empty_of_busy named) undotted,
      splitName_emittedName (ne_empty_of_busy named') undotted', Prod.mk.injEq,
      Option.some.injEq] at parts
    obtain ⟨stems, endings⟩ := parts
    refine ⟨stems, Classical.or_iff_not_imp_left.mpr fun plain => ?_⟩
    rwa [if_neg plain, ← stems, if_neg plain] at endings
  · rintro ⟨stems, dotted | endings⟩
    · rw [emittedName, emittedName, ← stems, if_pos dotted, if_pos dotted]
    · rw [emittedName, emittedName, ← stems, endings]

end Names

section Places

variable {p base directory : Path} {name : String} {front inner : List String}

/-- A place: a path from the root that is spelled by its steps. -/
structure IsPlace (p : Path) : Prop where
  rooted : p.rooted = true
  normal : p.IsNormal
  whole : ∀ segment ∈ p.segments, '/' ∉ segment.toList

instance (p : Path) : Decidable p.IsPlace :=
  decidable_of_iff (p.rooted = true ∧ (∀ segment ∈ p.segments, isIdle segment = false) ∧
    ∀ segment ∈ p.segments, '/' ∉ segment.toList)
    ⟨fun ⟨rooted, normal, whole⟩ => ⟨rooted, normal, whole⟩,
      fun place => ⟨place.rooted, place.normal, place.whole⟩⟩

/-- Strictly below a directory: some steps behind it, and none of them leads back. -/
def IsBelow (directory p : Path) : Prop :=
  ∃ steps, steps ≠ [] ∧ p.components = directory.components ++ steps ∧ .parent ∉ steps

theorem IsPlace.eq_mk (place : p.IsPlace) : p = ⟨true, p.segments⟩ := by
  rw [← place.rooted]

theorem IsPlace.components (place : p.IsPlace) : p.components = .root :: p.segments.map stepOf := by
  rw [place.normal.components, if_pos place.rooted]

/-- What is resolved from the root is a place. -/
theorem isPlace_normalize (rooted : p.rooted = true)
    (whole : ∀ segment ∈ p.segments, '/' ∉ segment.toList) : p.normalize.IsPlace := by
  refine ⟨rooted, isNormal_normalize p, fun segment member => ?_⟩
  have folded : ∀ left ∈ p.components.foldl foldStep [], '/' ∉ left.toList := by
    rw [foldl_components]
    refine List.foldlRecOn (motive := fun done : List String => ∀ left ∈ done, '/' ∉ left.toList)
      _ _ (by simp) ?_
    intro done free step taken
    obtain ⟨segment, member, rfl⟩ := List.mem_map.mp taken
    have here := whole segment (List.mem_filter.mp member).1
    unfold stepOf
    split
    · cases done with
      | nil => simp [foldStep]
      | cons last before => exact fun left member => free left (List.mem_cons_of_mem _ member)
    · exact List.forall_mem_cons.mpr ⟨here, free⟩
  exact folded segment (List.mem_reverse.mp member)

/-- A place that has a name ends in it. -/
theorem IsPlace.of_fileName? (place : p.IsPlace) (named : p.fileName? = some name) :
    isIdle name = false ∧ name ≠ ".." ∧ ∃ front, p.segments = front ++ [name] := by
  obtain ⟨busy, front, trimmed, steps⟩ := trimmed_of_fileName? named
  rw [place.normal.trimmed] at trimmed
  have spelled : p.segments = front ++ [name] := congrArg Path.segments trimmed
  refine ⟨busy, ?_, front, spelled⟩
  rintro rfl
  have last := congrArg List.getLast? (place.components.symm.trans steps)
  rw [spelled, List.map_append, ← List.cons_append, List.map_singleton, List.getLast?_concat,
    List.getLast?_concat] at last
  exact absurd (Option.some.inj last) (by decide)

theorem fileName?_concat (normal : IsNormal ⟨true, front ++ [name]⟩) (proper : name ≠ "..") :
    (⟨true, front ++ [name]⟩ : Path).fileName? = some name := by
  unfold fileName?
  rw [normal.components, if_pos rfl, List.map_append, ← List.cons_append, List.map_singleton,
    List.getLast?_concat, stepOf, if_neg proper]

/-- Another extension changes the last name. -/
theorem withExtension_concat (normal : IsNormal ⟨true, front ++ [name]⟩) (proper : name ≠ "..")
    (extension : String) : (⟨true, front ++ [name]⟩ : Path).withExtension extension =
      ⟨true, front ++ [emittedName name extension]⟩ := by
  have busy : isIdle name = false := normal name (List.mem_append_right _ (List.mem_singleton_self _))
  rw [withExtension_of_fileName? (fileName?_concat normal proper), normal.trimmed,
    List.dropLast_concat]
  congr 3
  unfold renamed emittedName
  rw [normal.trimmed]
  rcases splitName_cases name with ⟨stem, old, _, _, _, split⟩ | ⟨_, split⟩ <;> rw [split]
  · simp
  · have undotted : name ≠ "." := by
      rintro rfl
      cases busy
    simp [undotted]

private theorem dropWhile_isIdle {segments : List String}
    (normal : ∀ segment ∈ segments, isIdle segment = false) :
    segments.dropWhile isIdle = segments := by
  cases segments with
  | nil => rfl
  | cons segment rest =>
    exact List.dropWhile_cons_of_neg (by simp [normal segment (List.mem_cons_self ..)])

/-- Steps are dropped as the segments that take them. -/
theorem dropSteps?_map_stepOf {front segments : List String}
    (normal : ∀ segment ∈ segments, isIdle segment = false) :
    dropSteps? (front.map stepOf) ⟨false, segments⟩ =
      (segments.dropPrefix? front).map (Path.mk false) := by
  induction front generalizing segments with
  | nil =>
    have whole : IsNormal ⟨false, segments⟩ := normal
    rw [List.map_nil, dropSteps?, whole.trimmed, List.dropPrefix?_nil]
    rfl
  | cons step front ih =>
    cases segments with
    | nil => rfl
    | cons segment rest =>
      have later : ∀ other ∈ rest, isIdle other = false := fun other member =>
        normal other (List.mem_cons_of_mem _ member)
      have first : uncons? ⟨false, segment :: rest⟩ = some (stepOf segment, ⟨false, rest⟩) := by
        unfold uncons?
        dsimp only
        rw [if_neg Bool.false_ne_true]
        split
        · next none => cases none
        · next dotted =>
          rw [(List.cons.inj dotted).1] at normal
          exact absurd (normal "." (List.mem_cons_self ..)) (by decide)
        · next same =>
          obtain ⟨rfl, rfl⟩ := List.cons.inj same
          rw [dropWhile_isIdle later]
      rw [List.map_cons, dropSteps?, first]
      dsimp only
      rw [List.dropPrefix?]
      by_cases same : segment = step
      · rw [if_pos (congrArg stepOf same), ih later, if_pos (beq_iff_eq.mpr same)]
      · rw [if_neg (mt stepOf_injective same), if_neg (mt beq_iff_eq.mp same)]
        rfl

namespace IsPlace

theorem stripPrefix? (place : p.IsPlace) (base' : base.IsPlace) :
    p.stripPrefix? base = (p.segments.dropPrefix? base.segments).map (Path.mk false) := by
  have first : p.uncons? = some (.root, ⟨false, p.segments⟩) := by
    rw [uncons?, if_pos place.rooted, dropWhile_isIdle place.normal]
  rw [Path.stripPrefix?, base'.components, dropSteps?, first]
  dsimp only
  rw [if_pos rfl, dropSteps?_map_stepOf place.normal]

theorem startsWith_iff (place : p.IsPlace) (base' : base.IsPlace) :
    p.startsWith base = true ↔ base.segments <+: p.segments := by
  rw [startsWith, List.isPrefixOf_iff_prefix, place.components, base'.components,
    List.prefix_cons_inj, List.prefix_map_iff_of_injective fun _ _ => stepOf_injective]

theorem join (place : p.IsPlace) (some : inner ≠ []) :
    p.join ⟨false, inner⟩ = ⟨true, p.segments ++ inner⟩ := by
  have closed : p.openSegments = p.segments := by
    refine if_neg fun open' => ?_
    have idle := place.normal "" (List.mem_of_getLast? open')
    cases idle
  rw [Path.join, if_neg Bool.false_ne_true, if_neg (by simpa using some), closed, place.rooted]

end IsPlace

/-- What lies under a name some steps below a directory. -/
def placeBelow (directory : Path) (inner : List String) (name : String) : Path :=
  ⟨true, directory.segments ++ inner ++ [name]⟩

theorem isNormal_placeBelow (normal : directory.IsNormal)
    (between : ∀ segment ∈ inner, isIdle segment = false) (busy : isIdle name = false) :
    (placeBelow directory inner name).IsNormal := by
  intro segment member
  rcases List.mem_append.mp member with member | last
  · rcases List.mem_append.mp member with outer | member
    · exact normal segment outer
    · exact between segment member
  · rwa [List.mem_singleton.mp last]

theorem parent?_placeBelow (normal : (placeBelow directory inner name).IsNormal) :
    (placeBelow directory inner name).parent? = some ⟨true, directory.segments ++ inner⟩ := by
  rw [normal.parent?, placeBelow, List.dropLast_concat]
  simp

/-- Only steps back lead out of the directory. -/
theorem isBelow_placeBelow_iff (place : directory.IsPlace)
    (normal : (placeBelow directory inner name).IsNormal) :
    IsBelow directory (placeBelow directory inner name) ↔ ".." ∉ inner ∧ name ≠ ".." := by
  have steps : (placeBelow directory inner name).components =
      directory.components ++ (inner ++ [name]).map stepOf := by
    rw [normal.components, place.components, placeBelow, if_pos rfl, List.append_assoc,
      List.map_append, List.cons_append]
  have back (segment : String) : stepOf segment = .parent ↔ segment = ".." := by
    unfold stepOf
    split <;> simp [*]
  have direct : .parent ∉ (inner ++ [name]).map stepOf ↔ ".." ∉ inner ∧ name ≠ ".." := by
    simp [back, eq_comm.trans (back _)]
  rw [← direct]
  constructor
  · rintro ⟨others, _, same, free⟩
    rwa [List.append_cancel_left (steps.symm.trans same)]
  · exact fun free => ⟨_, by simp, steps, free⟩

end Places

section Outputs

variable {options : Options} {projectRoot root outDir source other output : Path}
  {name emitted : String} {inner : List String}

/-- A file that is not itself the directory that files are mirrored from. -/
structure IsSource (root source : Path) : Prop where
  place : source.IsPlace
  named : source.fileName? ≠ none
  apart : source ≠ root

instance (root source : Path) : Decidable (IsSource root source) :=
  decidable_of_iff (source.IsPlace ∧ source.fileName? ≠ none ∧ source ≠ root)
    ⟨fun ⟨place, named, apart⟩ => ⟨place, named, apart⟩,
      fun isSource => ⟨isSource.place, isSource.named, isSource.apart⟩⟩

/-- The steps between the output directory and the output of a file: for a file below the root those that
lead to it from there, and none for any other. -/
structure MirroredSteps (root source : Path) (name : String) (inner : List String) : Prop where
  below : source.startsWith root = true → source = placeBelow root inner name
  outside : source.startsWith root = false → inner = []

theorem IsSource.exists_mirrored (isSource : IsSource root source) (above : root.IsPlace)
    (out : outDir.IsPlace) (named : source.fileName? = some name)
    (rooting : options.rootDir.getD projectRoot = root) (writes : options.outDir = some outDir) :
    ∃ inner, source.mirrored options projectRoot = placeBelow outDir inner name ∧
      MirroredSteps root source name inner := by
  obtain ⟨busy, _, front, spelled⟩ := isSource.place.of_fileName? named
  have whole : source.mirrored options projectRoot = outDir.join
      ((source.stripPrefix? root).getD ((source.fileName?.map ofString).getD empty)) := by
    unfold mirrored
    rw [writes, rooting]
    cases source.stripPrefix? root <;> rfl
  rw [whole, isSource.place.stripPrefix? above]
  cases left : source.segments.dropPrefix? root.segments with
  | some relative =>
    obtain ⟨base, split, same⟩ := List.dropPrefix?_eq_some_iff.mp left
    obtain rfl := eq_of_beq same
    have under : source.startsWith root = true :=
      (isSource.place.startsWith_iff above).mpr ⟨relative, split.symm⟩
    rcases List.eq_nil_or_concat' relative with rfl | ⟨inner, final, rfl⟩
    · rw [List.append_nil] at split
      exact absurd (by rw [isSource.place.eq_mk, above.eq_mk, split]) isSource.apart
    · rw [← List.append_assoc, spelled] at split
      obtain ⟨higher, last⟩ := List.append_inj' split rfl
      obtain rfl : name = final := List.singleton_inj.mp last
      refine ⟨inner, ?_, fun _ => ?_, fun outside => ?_⟩
      · change outDir.join ⟨false, inner ++ [name]⟩ = _
        rw [out.join (by simp), placeBelow, List.append_assoc]
      · rw [isSource.place.eq_mk, spelled, higher, placeBelow]
      · rw [under] at outside
        cases outside
  | none =>
    have outside : ¬source.startsWith root = true := fun under => by
      obtain ⟨relative, split⟩ := (isSource.place.startsWith_iff above).mp under
      rw [← split, List.dropPrefix?_append_of_beq _ (beq_self_eq_true _)] at left
      cases left
    have plain : IsPlain name := by
      refine ⟨?_, isSource.place.whole name (by rw [spelled]; simp)⟩
      rintro rfl
      cases busy
    refine ⟨[], ?_, fun under => absurd under outside, fun _ => rfl⟩
    rw [named, placeBelow, List.append_nil]
    change outDir.join (ofString name) = _
    rw [ofString_of_isPlain plain, out.join (List.cons_ne_nil _ _)]

/-- No idle segment stands between the output directory and the name of a mirrored file. -/
theorem MirroredSteps.between (steps : MirroredSteps root source name inner) (place : source.IsPlace) :
    ∀ segment ∈ inner, isIdle segment = false := by
  intro segment member
  cases under : source.startsWith root with
  | true =>
    refine place.normal segment ?_
    rw [steps.below under, placeBelow]
    simp [member]
  | false =>
    rw [steps.outside under] at member
    cases member

/-- Outputs below one directory are at one place exactly when nothing between tells them apart, and no
name. -/
theorem same_placeBelow_iff {inner' : List String} {name' : String}
    (normal : (placeBelow outDir inner name).IsNormal)
    (normal' : (placeBelow outDir inner' name').IsNormal) :
    (placeBelow outDir inner name).same (placeBelow outDir inner' name') = true ↔
      inner = inner' ∧ name = name' := by
  constructor
  · intro same
    have whole := congrArg Path.segments (normal.eq_of_same normal' same)
    obtain ⟨front, last⟩ := List.append_inj' whole rfl
    exact ⟨List.append_cancel_left front, List.singleton_inj.mp last⟩
  · rintro ⟨rfl, rfl⟩
    exact same_self _

theorem IsSource.parent? (isSource : IsSource root source) (named : source.fileName? = some name) :
    ∃ front, source = placeBelow ⟨true, front⟩ [] name ∧ source.parent? = some ⟨true, front⟩ := by
  obtain ⟨_, _, front, spelled⟩ := isSource.place.of_fileName? named
  have whole : source = placeBelow ⟨true, front⟩ [] name := by
    rw [isSource.place.eq_mk, spelled, placeBelow, List.append_nil]
  refine ⟨front, whole, ?_⟩
  rw [whole, parent?_placeBelow (whole ▸ isSource.place.normal), List.append_nil]

/-- Where the output of a file lies when there is an output directory. -/
theorem IsSource.outputPath_below (isSource : IsSource root source) (above : root.IsPlace)
    (out : outDir.IsPlace) (named : source.fileName? = some name)
    (rooting : options.rootDir.getD projectRoot = root) (writes : options.outDir = some outDir) :
    ∃ inner, MirroredSteps root source name inner ∧
      (placeBelow outDir inner (emittedName name source.emittedExtension)).IsNormal ∧
      source.outputPath options projectRoot =
        placeBelow outDir inner (emittedName name source.emittedExtension) := by
  obtain ⟨busy, proper, _⟩ := isSource.place.of_fileName? named
  obtain ⟨inner, spelled, steps⟩ := isSource.exists_mirrored above out named rooting writes
  have between := steps.between isSource.place
  refine ⟨inner, steps, isNormal_placeBelow out.normal between
    (isIdle_emittedName busy source.undotted_emittedExtension), ?_⟩
  rw [outputPath_eq, spelled]
  exact withExtension_concat (isNormal_placeBelow out.normal between busy) proper _

/-- Where it lies when there is none. -/
theorem IsSource.outputPath_beside (isSource : IsSource root source)
    (named : source.fileName? = some name) (beside : options.outDir = none) :
    ∃ directory, source.parent? = some directory ∧
      (placeBelow directory [] (emittedName name source.emittedExtension)).IsNormal ∧
      source.outputPath options projectRoot =
        placeBelow directory [] (emittedName name source.emittedExtension) := by
  obtain ⟨busy, proper, _⟩ := isSource.place.of_fileName? named
  obtain ⟨front, whole, above⟩ := isSource.parent? named
  have normal : IsNormal (placeBelow ⟨true, front⟩ [] name) := whole ▸ isSource.place.normal
  have outer : IsNormal ⟨true, front⟩ := fun segment member =>
    normal segment (by rw [placeBelow]; simp [member])
  refine ⟨⟨true, front⟩, above, isNormal_placeBelow outer nofun
    (isIdle_emittedName busy source.undotted_emittedExtension), ?_⟩
  have renamed : (placeBelow ⟨true, front⟩ [] name).withExtension source.emittedExtension =
      placeBelow ⟨true, front⟩ [] (emittedName name source.emittedExtension) :=
    withExtension_concat normal proper _
  rw [← whole] at renamed
  rw [outputPath_eq, mirrored, beside, ← renamed]

theorem stem?_eq (named : source.fileName? = some name) : source.stem? = some (splitName name).1 := by
  rw [stem?, named]
  rfl

/-- A name that keeps an extension keeps its stem. -/
theorem stem?_placeBelow_emittedName {directory : Path}
    (normal : (placeBelow directory inner (emittedName name source.emittedExtension)).IsNormal)
    (named : source.fileName? = some name) (busy : isIdle name = false) (plain : ¬IsDotted name) :
    (placeBelow directory inner (emittedName name source.emittedExtension)).stem? =
      source.stem? := by
  have proper := mt (emittedName_eq_back_iff busy source.undotted_emittedExtension).mp plain
  refine (stem?_eq (fileName?_concat normal proper)).trans ?_
  rw [stem?_eq named,
    splitName_emittedName (ne_empty_of_busy busy) source.undotted_emittedExtension]

/-- The outputs of two files below the root. -/
theorem IsSource.same_outputPath_iff (isSource : IsSource root source)
    (isSource' : IsSource root other) (above : root.IsPlace) (out : outDir.IsPlace)
    (named : source.fileName? = some name) (rooting : options.rootDir.getD projectRoot = root)
    (writes : options.outDir = some outDir) (under : source.startsWith root = true)
    (under' : other.startsWith root = true) :
    (source.outputPath options projectRoot).same (other.outputPath options projectRoot) = true ↔
      source.parent? = other.parent? ∧ source.stem? = other.stem? ∧
        (IsDotted name ∨ source.emittedExtension = other.emittedExtension) := by
  obtain ⟨name', named'⟩ := Option.ne_none_iff_exists'.mp isSource'.named
  obtain ⟨busy, _⟩ := isSource.place.of_fileName? named
  obtain ⟨busy', _⟩ := isSource'.place.of_fileName? named'
  obtain ⟨inner, steps, normal, whole⟩ :=
    isSource.outputPath_below above out named rooting writes
  obtain ⟨inner', steps', normal', whole'⟩ :=
    isSource'.outputPath_below above out named' rooting writes
  have parents : source.parent? = other.parent? ↔ inner = inner' := by
    have lies := steps.below under
    have lies' := steps'.below under'
    rw [lies, lies', parent?_placeBelow (lies ▸ isSource.place.normal),
      parent?_placeBelow (lies' ▸ isSource'.place.normal)]
    simp
  rw [whole, whole', same_placeBelow_iff normal normal', parents, stem?_eq named, stem?_eq named',
    Option.some.injEq, emittedName_eq_iff busy busy' source.undotted_emittedExtension
      other.undotted_emittedExtension]

/-- How an output is called after its source: a dotted name is lost, and any other one gets the emitted
extension and keeps its stem. -/
structure NamedAfter (source output : Path) (name emitted : String) : Prop where
  source_name : source.fileName? = some name
  lost : IsDotted name → emitted = ".."
  extended : ¬IsDotted name → Extends source.emittedExtension name emitted
  kept : ¬IsDotted name → output.stem? = source.stem?

theorem IsSource.namedAfter (isSource : IsSource root source) (above : root.IsPlace)
    (out : ∀ outDir, options.outDir = some outDir → outDir.IsPlace)
    (named : source.fileName? = some name) (rooting : options.rootDir.getD projectRoot = root) :
    NamedAfter source (source.outputPath options projectRoot) name
      (emittedName name source.emittedExtension) := by
  obtain ⟨busy, _⟩ := isSource.place.of_fileName? named
  obtain ⟨lost, extended⟩ := emittedName_spec busy source.emittedExtension
  refine ⟨named, lost, extended, fun plain => ?_⟩
  cases writes : options.outDir with
  | none =>
    obtain ⟨directory, _, normal, whole⟩ := isSource.outputPath_beside named writes
    rw [whole]
    exact stem?_placeBelow_emittedName normal named busy plain
  | some outDir =>
    obtain ⟨inner, _, normal, whole⟩ :=
      isSource.outputPath_below above (out outDir writes) named rooting writes
    rw [whole]
    exact stem?_placeBelow_emittedName normal named busy plain

/-- Outputs mirror sources. Without an output directory the output lies in the directory of the source.
With one it lies behind the steps from the root to the source, or directly in it when the source is
outside; it is strictly below unless these steps lead back or the name is lost. Two sources below the root
have one output exactly when they have the same directory and stem, and the same emitted extension unless
the name is lost. -/
theorem outputs_mirror_sources (rooting : options.rootDir.getD projectRoot = root)
    (above : root.IsPlace) (out : ∀ outDir, options.outDir = some outDir → outDir.IsPlace)
    (isSource : IsSource root source) :
    ∃ name emitted, NamedAfter source (source.outputPath options projectRoot) name emitted ∧
      (options.outDir = none → ∃ directory, source.parent? = some directory ∧
        source.outputPath options projectRoot = placeBelow directory [] emitted) ∧
      ∀ outDir, options.outDir = some outDir → ∃ inner, MirroredSteps root source name inner ∧
        source.outputPath options projectRoot = placeBelow outDir inner emitted ∧
        (IsBelow outDir (source.outputPath options projectRoot) ↔ ".." ∉ inner ∧ ¬IsDotted name) ∧
        ∀ other, IsSource root other → source.startsWith root = true →
          other.startsWith root = true →
          ((source.outputPath options projectRoot).same (other.outputPath options projectRoot) =
              true ↔
            source.parent? = other.parent? ∧ source.stem? = other.stem? ∧
              (IsDotted name ∨ source.emittedExtension = other.emittedExtension)) := by
  obtain ⟨name, named⟩ := Option.ne_none_iff_exists'.mp isSource.named
  obtain ⟨busy, _⟩ := isSource.place.of_fileName? named
  refine ⟨name, emittedName name source.emittedExtension,
    isSource.namedAfter above out named rooting, fun beside => ?_, fun outDir writes => ?_⟩
  · obtain ⟨directory, parent, _, whole⟩ := isSource.outputPath_beside named beside
    exact ⟨directory, parent, whole⟩
  · have place := out outDir writes
    obtain ⟨inner, steps, normal, whole⟩ :=
      isSource.outputPath_below above place named rooting writes
    refine ⟨inner, steps, whole, ?_, fun other isOther under under' =>
      isSource.same_outputPath_iff isOther above place named rooting writes under under'⟩
    rw [whole, isBelow_placeBelow_iff place normal, ne_eq,
      emittedName_eq_back_iff busy source.undotted_emittedExtension]

/-- The output of a file `..ts` is the directory above the one that it is mirrored into, like that of a file
`..mts` beside it. -/
theorem outputs_mirror_sources_dotted :
    let options : Options := { outDir := some ⟨true, ["p", "dist"]⟩ }
    let output (name : String) : Path := outputPath ⟨true, ["p", "src", name]⟩ options ⟨true, ["p"]⟩
    IsBelow ⟨true, ["p", "dist"]⟩ (output "a.d.MTS") ∧
      ¬IsBelow ⟨true, ["p", "dist"]⟩ (output "..ts") ∧
      (output "..ts").same (output "..mts") = true := by
  intro options output
  have out : ∀ outDir, options.outDir = some outDir → outDir.IsPlace := by
    rintro _ ⟨⟩
    decide
  have rooting : options.rootDir.getD ⟨true, ["p"]⟩ = ⟨true, ["p"]⟩ := rfl
  constructor
  · obtain ⟨name, _, named, _, below⟩ := outputs_mirror_sources rooting (by decide) out
      (show IsSource _ ⟨true, ["p", "src", "a.d.MTS"]⟩ by decide)
    obtain rfl : "a.d.MTS" = name := Option.some.inj named.source_name
    obtain ⟨inner, steps, _, isBelow, _⟩ := below _ rfl
    have spelled : ["src"] ++ ["a.d.MTS"] = inner ++ ["a.d.MTS"] := by
      simpa [placeBelow] using steps.below rfl
    obtain rfl : ["src"] = inner := List.append_cancel_right spelled
    exact isBelow.mpr ⟨by decide, mt (isDotted_iff (by decide)).mp (by decide)⟩
  · obtain ⟨name, _, named, _, below⟩ := outputs_mirror_sources rooting (by decide) out
      (show IsSource _ ⟨true, ["p", "src", "..ts"]⟩ by decide)
    obtain rfl : "..ts" = name := Option.some.inj named.source_name
    obtain ⟨_, _, _, isBelow, same⟩ := below _ rfl
    have dotted : IsDotted "..ts" := ⟨"ts", by decide, by decide⟩
    refine ⟨fun strict => (isBelow.mp strict).2 dotted, ?_⟩
    exact (same ⟨true, ["p", "src", "..mts"]⟩ (by decide) rfl rfl).mpr
      ⟨by decide, by decide, .inl dotted⟩

end Outputs

end Recast.Path
