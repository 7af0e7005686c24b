import Recast.Proofs.Path.Relative
import Recast.SourceMap.Mapping

/-! # The source that a map names

A source map names its source by a reference from the directory of the output. The reference is written
as a text, with slashes for backslashes. A name without backslash is spelled there as it is, so the
text is read as the reference that was written, and leads back to the source.
-/

namespace Recast.SourceMap

open Path

/-- The sources that a document names. -/
def sources : Json → List String
  | .obj members =>
    match members.lookup "sources" with
    | some (.arr items) => items.filterMap fun
      | .str text => some text
      | _ => none
    | _ => []
  | _ => []

/-- The path that leads from the directory of an output to a source. -/
def referenceTo (output source : Path) : Path :=
  match output.parent? with
  | some directory => source.relativeTo directory
  | none => source

theorem sources_document (output source : Path) (mappings : String) :
    sources (document output source mappings) =
      [Text.replace "\\" "/" (referenceTo output source).toString] := by
  rfl

private theorem not_mem_intercalate {c separator : Char} {pieces : List (List Char)}
    (other : c ≠ separator) (free : ∀ piece ∈ pieces, c ∉ piece) :
    c ∉ [separator].intercalate pieces := by
  induction pieces with
  | nil => exact List.not_mem_nil
  | cons piece pieces ih =>
    have rest := ih fun later member => free later (List.mem_cons_of_mem _ member)
    have first := free piece (List.mem_cons_self ..)
    cases pieces with
    | nil => rwa [List.intercalate_singleton]
    | cons next pieces =>
      rw [List.intercalate_cons_cons]
      simp [first, other, rest]

/-- Backslashes are in the text of a path only when they are in its segments. -/
private theorem replace_toString {p : Path} (free : ∀ segment ∈ p.segments, '\\' ∉ segment.toList) :
    Text.replace "\\" "/" p.toString = p.toString := by
  have absent : '\\' ∉ p.toString.toList := by
    have joined : '\\' ∉ ("/".intercalate p.segments).toList := by
      rw [String.toList_intercalate]
      refine not_mem_intercalate (show '\\' ≠ '/' by decide) fun piece member => ?_
      obtain ⟨segment, found, rfl⟩ := List.mem_map.mp member
      exact free segment found
    unfold Path.toString
    rw [String.toList_append, List.mem_append, not_or]
    refine ⟨?_, joined⟩
    split <;> decide
  have kept : Text.replaceChars ['\\'] "/".toList p.toString.toList = p.toString.toList :=
    Text.replaceChars_of_not_mem _ absent
  exact (congrArg String.ofList kept).trans String.ofList_toList

variable {output source : Path}

/-- What is written for the source of a straight output below a directory. -/
private theorem arrives_below {directory : Path} (above : output.parent? = some directory)
    (straight : output.IsStraight) (aim : source.IsStraight)
    (clean : ∀ name ∈ source.names, '\\' ∉ name.toList) :
    Text.replace "\\" "/" (referenceTo output source).toString =
        (source.relativeTo directory).toString ∧
      (directory.join (ofString (source.relativeTo directory).toString)).normalize.same source := by
  have origin := straight.parent? above
  obtain ⟨shared, up, down, way⟩ := exists_way origin aim
  have written := way.relativeTo_eq aim
  have reference : referenceTo output source = source.relativeTo directory := by
    unfold referenceTo
    rw [above]
  constructor
  · rw [reference, written]
    refine replace_toString fun segment member => ?_
    rcases List.mem_append.mp member with back | named
    · rw [(List.mem_replicate.mp back).2]
      decide
    · exact clean segment (way.to_eq ▸ List.mem_append_right _ named)
  · rw [written, ofString_toString (way.isPlain aim), ← written]
    exact (leadsTo_relativeTo origin aim).arrives

/-- A root has no directory. The source is then named by its own path. -/
private theorem arrives_at_root (none : output.parent? = none) (aim : source.IsStraight)
    (clean : ∀ name ∈ source.names, '\\' ∉ name.toList) :
    Text.replace "\\" "/" (referenceTo output source).toString = source.toString ∧
      (output.join (ofString source.toString)).normalize.same source := by
  have reference : referenceTo output source = source := by
    unfold referenceTo
    rw [none]
  constructor
  · rw [reference]
    refine replace_toString fun segment member => ?_
    cases idle : isIdle segment with
    | false => exact clean segment (mem_names.mpr ⟨member, idle⟩)
    | true =>
      simp only [isIdle, Bool.or_eq_true, beq_iff_eq] at idle
      rcases idle with rfl | rfl <;> decide
  · have read := components_ofString_toString aim
    have rooted : (ofString source.toString).rooted = true := by
      rw [rooted_eq, read, ← rooted_eq, aim.rooted]
    have meant := resolveFrom_congr (same_iff.mpr read) output
    unfold resolveFrom at meant
    rw [if_pos rooted, if_pos aim.rooted] at meant
    rw [join, if_pos rooted, meant]
    exact aim.normalize_same

/-- The relative reference between straight paths leads to its aim, by as many steps back as the directory
has beyond the longest common front and then the other steps of the aim. So the source that a map names
is found from the directory of the output, when no name of it holds a backslash. -/
theorem source_reference_leads_back :
    (∀ directory place : Path, directory.IsStraight → place.IsStraight →
      LeadsTo directory (place.relativeTo directory) place) ∧
    ∀ (output source : Path) (mappings : String), output.IsStraight → source.IsStraight →
      (∀ name ∈ source.names, '\\' ∉ name.toList) →
      ∃ reference, sources (document output source mappings) = [reference] ∧
        ((output.parent?.getD output).join (ofString reference)).normalize.same source := by
  refine ⟨fun directory place origin aim => leadsTo_relativeTo origin aim,
    fun output source mappings straight aim clean => ?_⟩
  rw [sources_document]
  cases above : output.parent? with
  | some directory =>
    obtain ⟨written, arrives⟩ := arrives_below above straight aim clean
    exact ⟨_, congrArg (fun text => [text]) written, arrives⟩
  | none =>
    obtain ⟨written, arrives⟩ := arrives_at_root above aim clean
    exact ⟨_, congrArg (fun text => [text]) written, arrives⟩

/-- `dist` and `dist2` begin alike as texts, but share no step. -/
theorem source_reference_leads_back_beside :
    ((ofString "/p/dist2/a.ts").relativeTo (ofString "/p/dist")).components =
        [.parent, .normal "dist2", .normal "a.ts"] ∧
      LeadsTo (ofString "/p/dist") ((ofString "/p/dist2/a.ts").relativeTo (ofString "/p/dist"))
        (ofString "/p/dist2/a.ts") ∧
      sources (document (ofString "/p/dist/a.js") (ofString "/p/dist2/a.ts") "AAAA;") =
        ["../dist2/a.ts"] ∧
      ((ofString "/p/dist").join (ofString "../dist2/a.ts")).normalize.same
        (ofString "/p/dist2/a.ts") := by
  have straight (text : String) (spelled : (ofString text).rooted = true ∧
      .current ∉ (ofString text).components ∧ .parent ∉ (ofString text).components) :
      (ofString text).IsStraight := (isStraight_ofString_iff text).mpr spelled
  have origin := straight "/p/dist" (by decide +kernel)
  have output := straight "/p/dist/a.js" (by decide +kernel)
  have aim := straight "/p/dist2/a.ts" (by decide +kernel)
  have named : sources (document (ofString "/p/dist/a.js") (ofString "/p/dist2/a.ts") "AAAA;") =
      ["../dist2/a.ts"] := by decide +kernel
  have above : (ofString "/p/dist/a.js").parent?.getD (ofString "/p/dist/a.js") =
      ofString "/p/dist" := by decide +kernel
  obtain ⟨reference, found, arrives⟩ := source_reference_leads_back.2 _ _ "AAAA;" output aim
    (by decide +kernel)
  obtain rfl : "../dist2/a.ts" = reference := (List.cons.inj (named.symm.trans found)).1
  exact ⟨by decide +kernel, source_reference_leads_back.1 _ _ origin aim, named, above ▸ arrives⟩

end Recast.SourceMap
