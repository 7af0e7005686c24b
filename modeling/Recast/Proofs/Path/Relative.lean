import Recast.Path.Normal
import Recast.Proofs.Path.Outputs
import Recast.Proofs.Text.Lines

/-! # Relative references lead back

A reference from a directory to a place goes up from the directory to the last step that both have in
common, and from there down to the place. When neither of them steps back, the steps up take back just
what the directory has beyond the common steps, so whoever follows the reference from the directory
arrives at the place (`leadsTo_relativeTo`).
-/

namespace Recast.Path

/-- The steps that are left lie behind the longest common front. -/
theorem dropCommon_spec (as bs : List Component) :
    ∃ shared, as = shared ++ (dropCommon as bs).1 ∧ bs = shared ++ (dropCommon as bs).2 ∧
      ∀ common, common <+: as → common <+: bs → common <+: shared := by
  have apart {a b : Component} {as bs common : List Component} (differ : a ≠ b)
      (first : common <+: a :: as) (second : common <+: b :: bs) : common <+: [] := by
    cases common with
    | nil => exact List.prefix_rfl
    | cons c common =>
      exact absurd ((List.cons_prefix_cons.mp first).1.symm.trans (List.cons_prefix_cons.mp second).1)
        differ
  induction as generalizing bs with
  | nil => exact ⟨[], rfl, rfl, fun _ first _ => first⟩
  | cons a as ih =>
    cases bs with
    | nil => exact ⟨[], rfl, rfl, fun _ _ second => second⟩
    | cons b bs =>
      rw [dropCommon]
      split
      · next same =>
        obtain ⟨shared, front, front', longest⟩ := ih bs
        refine ⟨a :: shared, congrArg (a :: ·) front, same ▸ congrArg (a :: ·) front', ?_⟩
        intro common first second
        cases common with
        | nil => exact List.nil_prefix
        | cons c common =>
          have first := List.cons_prefix_cons.mp first
          have second := List.cons_prefix_cons.mp second
          exact List.cons_prefix_cons.mpr ⟨first.1, longest common first.2 second.2⟩
      · next differ => exact ⟨[], rfl, rfl, fun _ first second => apart differ first second⟩

/-- A path from the root that never steps back. No segment holds a slash, as in all that texts spell. -/
structure IsStraight (p : Path) : Prop where
  rooted : p.rooted = true
  whole : ∀ segment ∈ p.segments, '/' ∉ segment.toList
  direct : ".." ∉ p.segments

/-- The segments that take a step. -/
def names (p : Path) : List String :=
  p.segments.filter fun segment => !isIdle segment

/-- A step that is written between slashes as it is. -/
def IsPlain (step : String) : Prop :=
  step ≠ "" ∧ '/' ∉ step.toList

variable {p place directory : Path}

theorem mem_names {name : String} : name ∈ p.names ↔ name ∈ p.segments ∧ isIdle name = false := by
  simp [names]

private theorem innerComponents_of_direct {segments : List String} (direct : ".." ∉ segments) :
    innerComponents segments = (segments.filter fun s => !isIdle s).map .normal := by
  refine List.map_congr_left fun segment member => if_neg ?_
  rintro rfl
  exact direct (List.mem_filter.mp member).1

namespace IsStraight

theorem components (straight : p.IsStraight) : p.components = .root :: p.names.map .normal := by
  rw [Path.components, straight.rooted, if_pos rfl, innerComponents_of_direct straight.direct]
  rfl

theorem isPlain (straight : p.IsStraight) {name : String} (member : name ∈ p.names) :
    IsPlain name := by
  obtain ⟨here, busy⟩ := mem_names.mp member
  refine ⟨?_, straight.whole name here⟩
  rintro rfl
  simp [isIdle] at busy

/-- The directory of a straight path is straight. -/
theorem parent? (straight : p.IsStraight) (above : p.parent? = some directory) :
    directory.IsStraight := by
  unfold Path.parent? at above
  dsimp only at above
  split at above
  · cases above
  · have trimmed : p.trimmed.rooted = true := by
      rw [Path.trimmed, straight.rooted, if_pos rfl]
    have kept : directory.segments ⊆ p.segments := by
      rw [← Option.some.inj above]
      exact List.Subset.trans (segments_trimmed_isPrefix _).subset
        (List.Subset.trans (List.dropLast_prefix _).subset p.segments_trimmed_isPrefix.subset)
    refine ⟨?_, fun segment member => straight.whole segment (kept member),
      fun back => straight.direct (kept back)⟩
    rw [← Option.some.inj above, trimmed, Path.trimmed, if_pos rfl]

end IsStraight

/-- Of the paths that texts spell, those are straight that begin at the root and have no dots among
their steps. -/
theorem isStraight_ofString_iff (text : String) :
    (ofString text).IsStraight ↔ (ofString text).rooted = true ∧
      .current ∉ (ofString text).components ∧ .parent ∉ (ofString text).components := by
  have whole : ∀ segment ∈ (ofString text).segments, '/' ∉ segment.toList := by
    have pieces (body : List Char) :
        ∀ segment ∈ (if body.isEmpty then [] else (Text.splitChars '/' body).map String.ofList),
          '/' ∉ segment.toList := by
      intro segment member
      split at member
      · cases member
      · obtain ⟨piece, found, rfl⟩ := List.mem_map.mp member
        rw [String.toList_ofList]
        exact Text.not_mem_of_mem_splitChars found
    unfold ofString
    dsimp only
    split <;> exact pieces _
  constructor
  · intro straight
    refine ⟨straight.rooted, ?_, ?_⟩ <;> simp [straight.components]
  · rintro ⟨rooted, _, direct⟩
    refine ⟨rooted, whole, fun back => direct ?_⟩
    rw [components, if_pos rooted]
    refine List.mem_cons_of_mem _ (List.mem_map.mpr ⟨"..", List.mem_filter.mpr ⟨back, rfl⟩, rfl⟩)

section Spelling

theorem ofString_of_isPlain {step : String} (plain : IsPlain step) : ofString step = ⟨false, [step]⟩ := by
  obtain ⟨some, free⟩ := plain
  unfold ofString
  dsimp only
  split
  · next body spelled => exact absurd (spelled ▸ List.mem_cons_self ..) free
  · have long : step.toList.isEmpty = false := by
      simpa using some
    rw [long, if_neg Bool.false_ne_true, Text.splitChars_of_not_mem free, List.map_singleton,
      String.ofList_toList]

/-- Plain steps are written one behind the other. -/
theorem foldl_join_ofString {steps front : List String} (plain : ∀ step ∈ steps, IsPlain step)
    (busy : front.getLast? ≠ some "") :
    steps.foldl (fun out step => out.join (ofString step)) (⟨false, front⟩ : Path) =
      ⟨false, front ++ steps⟩ := by
  induction steps generalizing front with
  | nil => rw [List.append_nil]; rfl
  | cons step steps ih =>
    have first := plain step (List.mem_cons_self ..)
    have joined : (⟨false, front⟩ : Path).join (ofString step) = ⟨false, front ++ [step]⟩ := by
      rw [ofString_of_isPlain first]
      simp [join, openSegments, busy]
    rw [List.foldl_cons, joined, ih (fun other member => plain other (List.mem_cons_of_mem _ member)),
      List.append_assoc, List.singleton_append]
    rw [List.getLast?_concat]
    exact fun none => first.1 (Option.some.inj none)

/-- A text between slashes is read as its segments. -/
private theorem segments_intercalate {segments : List String} (some : segments ≠ [])
    (whole : ∀ segment ∈ segments, '/' ∉ segment.toList) :
    (Text.splitChars '/' ("/".intercalate segments).toList).map String.ofList = segments := by
  have chars : ("/".intercalate segments).toList = ['/'].intercalate (segments.map String.toList) := by
    rw [String.toList_intercalate]
    rfl
  rw [chars, Text.splitChars_intercalate (by simpa using some), List.map_map]
  · conv_rhs => rw [← List.map_id segments]
    exact List.map_congr_left fun segment _ => String.ofList_toList
  · intro piece member
    obtain ⟨segment, found, rfl⟩ := List.mem_map.mp member
    exact whole segment found

/-- A relative path of plain steps is read as it was written. -/
theorem ofString_toString {steps : List String} (plain : ∀ step ∈ steps, IsPlain step) :
    ofString (⟨false, steps⟩ : Path).toString = ⟨false, steps⟩ := by
  change ofString ("" ++ "/".intercalate steps) = _
  rw [String.empty_append]
  cases steps with
  | nil => rfl
  | cons step steps =>
    obtain ⟨some, free⟩ := plain step (List.mem_cons_self ..)
    obtain ⟨c, cs, first⟩ := List.exists_cons_of_ne_nil (mt String.toList_eq_nil_iff.mp some)
    have named : c ≠ '/' := fun slash => free (slash ▸ first ▸ List.mem_cons_self ..)
    obtain ⟨rest, opened⟩ : ∃ rest, ("/".intercalate (step :: steps)).toList = c :: rest := by
      cases steps with
      | nil => exact ⟨cs, by simpa using first⟩
      | cons other steps => exact ⟨_, by simp [first]; rfl⟩
    have read := segments_intercalate (List.cons_ne_nil step steps) fun segment member =>
      (plain segment member).2
    rw [opened] at read
    unfold ofString
    dsimp only
    rw [opened]
    split
    · next slash => exact absurd (List.cons.inj slash).1 named
    · rw [List.isEmpty_cons, if_neg Bool.false_ne_true, read]

/-- A path from the root is read as the same path. -/
theorem components_ofString_toString (straight : p.IsStraight) :
    (ofString p.toString).components = p.components := by
  obtain ⟨rooted, segments⟩ := p
  obtain rfl : rooted = true := straight.rooted
  have spelled : (toString ⟨true, segments⟩).toList = '/' :: ("/".intercalate segments).toList := by
    simp [toString]
  have opened : ofString (toString ⟨true, segments⟩) =
      ⟨true, if ("/".intercalate segments).toList.isEmpty then [] else
        (Text.splitChars '/' ("/".intercalate segments).toList).map String.ofList⟩ := by
    rw [ofString, spelled]
    rfl
  rw [opened]
  cases segments with
  | nil => rfl
  | cons segment segments =>
    have read := segments_intercalate (List.cons_ne_nil segment segments) straight.whole
    split
    · next none =>
      -- then nothing but one empty segment is there
      rw [List.isEmpty_iff.mp none] at read
      rw [← read]
      rfl
    · rw [read]

end Spelling

section Leading

theorem foldl_foldStep_names (names done : List String) :
    (names.map Component.normal).foldl foldStep done = names.reverse ++ done := by
  induction names generalizing done with
  | nil => rfl
  | cons name names ih =>
    rw [List.map_cons, List.foldl_cons, foldStep, ih, List.reverse_cons, List.append_assoc,
      List.singleton_append]

/-- As many steps back take back as many names. -/
theorem foldl_foldStep_back (taken done : List String) :
    (List.replicate taken.length Component.parent).foldl foldStep (taken ++ done) = done := by
  induction taken with
  | nil => rfl
  | cons name taken ih => rw [List.length_cons, List.replicate_succ, List.foldl_cons]; exact ih

/-- A path from the root whose segments are names. -/
private theorem components_of_names {names : List String}
    (proper : ∀ name ∈ names, isIdle name = false ∧ name ≠ "..") :
    (⟨true, names⟩ : Path).components = .root :: names.map .normal := by
  rw [components, if_pos rfl, innerComponents_of_direct fun back => (proper _ back).2 rfl,
    List.filter_eq_self.mpr fun name member => by simp [(proper name member).1]]

/-- The way between two straight paths: the names that they have in common, those that the directory has
beyond them, and those that the place has. -/
structure Way (directory place : Path) (shared up down : List String) : Prop where
  from_eq : directory.names = shared ++ up
  to_eq : place.names = shared ++ down
  split_eq : dropCommon directory.components place.components = (up.map .normal, down.map .normal)
  longest : ∀ common, common <+: directory.components → common <+: place.components →
    common <+: .root :: shared.map .normal

theorem exists_way (origin : directory.IsStraight) (aim : place.IsStraight) :
    ∃ shared up down, Way directory place shared up down := by
  obtain ⟨front, first, second, longest⟩ := dropCommon_spec directory.components place.components
  have named := origin.components
  have named' := aim.components
  -- both begin at the root, so it is common to them
  have rooted : [Component.root] <+: front := by
    refine longest _ ?_ ?_
    · exact named ▸ List.cons_prefix_cons.mpr ⟨rfl, List.nil_prefix⟩
    · exact named' ▸ List.cons_prefix_cons.mpr ⟨rfl, List.nil_prefix⟩
  obtain ⟨common, rfl⟩ := rooted
  rw [List.append_assoc, List.singleton_append] at first second
  have first := (List.cons.inj (named.symm.trans first)).2
  have second := (List.cons.inj (named'.symm.trans second)).2
  rw [List.map_eq_append_iff] at first second
  obtain ⟨shared, up, behind, rfl, above⟩ := first
  obtain ⟨shared', down, behind', agree, below⟩ := second
  obtain rfl : shared' = shared := (List.map_inj_right fun _ _ => Component.normal.inj).mp agree
  exact ⟨shared', up, down, behind, behind', Prod.ext above.symm below.symm, longest⟩

variable {shared up down : List String}

theorem Way.isPlain (way : Way directory place shared up down) (aim : place.IsStraight) :
    ∀ step ∈ List.replicate up.length ".." ++ down, IsPlain step := by
  intro step member
  rcases List.mem_append.mp member with back | named
  · rw [(List.mem_replicate.mp back).2]
    exact ⟨by decide, by decide⟩
  · exact aim.isPlain (way.to_eq ▸ List.mem_append_right _ named)

theorem Way.relativeTo_eq (way : Way directory place shared up down) (aim : place.IsStraight) :
    place.relativeTo directory = ⟨false, List.replicate up.length ".." ++ down⟩ := by
  have back : (up.map Component.normal).map (fun _ => "..") = List.replicate up.length ".." := by
    rw [List.map_map, ← List.map_const']
    rfl
  have named : (down.map Component.normal).map Component.text = down := by
    rw [List.map_map]
    exact List.map_id down
  unfold relativeTo
  rw [way.split_eq]
  dsimp only
  rw [back, named]
  exact foldl_join_ofString (way.isPlain aim) nofun

/-- The steps of the way: up, and then down. -/
theorem Way.components_relativeTo (way : Way directory place shared up down)
    (aim : place.IsStraight) : (place.relativeTo directory).components =
      List.replicate up.length .parent ++ down.map .normal := by
  have undotted : ∀ step ∈ List.replicate up.length ".." ++ down, isIdle step = false := by
    intro step member
    rcases List.mem_append.mp member with back | named
    · rw [(List.mem_replicate.mp back).2]
      rfl
    · exact (mem_names.mp (way.to_eq ▸ List.mem_append_right _ named)).2
  have direct : ".." ∉ down := fun back =>
    aim.direct (mem_names.mp (way.to_eq ▸ List.mem_append_right _ back)).1
  have normal : (⟨false, List.replicate up.length ".." ++ down⟩ : Path).IsNormal := undotted
  rw [way.relativeTo_eq aim, normal.components, if_neg Bool.false_ne_true, List.map_append,
    List.map_replicate]
  congr 1
  refine List.map_congr_left fun name member => if_neg ?_
  rintro rfl
  exact direct member

/-- Whoever goes the way arrives at the place. -/
theorem Way.normalize_join (way : Way directory place shared up down) (origin : directory.IsStraight)
    (aim : place.IsStraight) :
    (directory.join (place.relativeTo directory)).normalize = ⟨true, place.names⟩ := by
  have relative : ¬(place.relativeTo directory).rooted := by simp [way.relativeTo_eq aim]
  have at_directory : directory.components.foldl foldStep [] = up.reverse ++ shared.reverse := by
    rw [origin.components, way.from_eq, List.foldl_cons]
    exact (foldl_foldStep_names _ []).trans (by simp)
  have at_shared : (List.replicate up.length Component.parent).foldl foldStep
      (up.reverse ++ shared.reverse) = shared.reverse := by
    rw [← List.length_reverse]
    exact foldl_foldStep_back _ _
  rw [normalize, rooted_join _ relative, origin.rooted, foldl_join _ relative, at_directory,
    way.components_relativeTo aim, List.foldl_append, at_shared, foldl_foldStep_names, way.to_eq]
  simp

theorem IsStraight.same_names (straight : p.IsStraight) : (⟨true, p.names⟩ : Path).same p = true := by
  rw [same_iff, straight.components]
  refine components_of_names fun name member => ?_
  obtain ⟨here, busy⟩ := mem_names.mp member
  exact ⟨busy, fun back => straight.direct (back ▸ here)⟩

theorem IsStraight.normalize_same (straight : p.IsStraight) : p.normalize.same p = true := by
  have folded : p.components.foldl foldStep [] = p.names.reverse := by
    rw [straight.components, List.foldl_cons]
    exact (foldl_foldStep_names _ _).trans (List.append_nil _)
  rw [normalize, folded, straight.rooted, List.reverse_reverse]
  exact straight.same_names

/-- A reference leads from a directory to a place: who follows it arrives there, after as many steps
back as the directory has beyond the longest common front, and then the steps that the place has beyond
it. -/
structure LeadsTo (directory reference place : Path) : Prop where
  arrives : (directory.join reference).normalize.same place = true
  steps : ∃ shared up down, directory.components = shared ++ up ∧ place.components = shared ++ down ∧
    (∀ common, common <+: directory.components → common <+: place.components →
      common <+: shared) ∧
    reference.components = List.replicate up.length .parent ++ down

/-- The relative reference leads from a straight directory to a straight place. -/
theorem leadsTo_relativeTo (origin : directory.IsStraight) (aim : place.IsStraight) :
    LeadsTo directory (place.relativeTo directory) place := by
  obtain ⟨shared, up, down, way⟩ := exists_way origin aim
  refine ⟨?_, .root :: shared.map .normal, up.map .normal, down.map .normal, ?_, ?_, way.longest, ?_⟩
  · rw [way.normalize_join origin aim]
    exact aim.same_names
  · rw [origin.components, way.from_eq, List.map_append, List.cons_append]
  · rw [aim.components, way.to_eq, List.map_append, List.cons_append]
  · rw [List.length_map, way.components_relativeTo aim]

end Leading

end Recast.Path
