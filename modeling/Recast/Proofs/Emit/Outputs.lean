import Recast.Emit.Module

/-! # What is emitted for a script

A script is emitted unless nothing is to be emitted or it has faults: its rendering is placed at a
path, and its source map beside it (`Rendering.filesAt`).
-/

namespace Recast.Emit

open Recast.Script

/-- Everything that is wrong with a parsed script is an error. -/
theorem isError_of_mem_faults {path : Path} {text : String} {fault : Diagnostic}
    (member : fault ∈ (Tree.parse path text).faults) : fault.isError = true := by
  rcases List.mem_append.mp member with lexical | bracket
  · obtain ⟨⟨offset, kind⟩, _, rfl⟩ := List.mem_map.mp lexical
    rfl
  · obtain ⟨⟨offset, kind⟩, _, rfl⟩ := List.mem_map.mp bracket
    rfl

/-- A script without errors has no faults at all. -/
theorem faults_eq_nil {path : Path} {text : String}
    (faultless : Diagnostic.anyError (Tree.parse path text).faults = false) :
    (Tree.parse path text).faults = [] := by
  refine List.eq_nil_iff_forall_not_mem.mpr fun fault member => ?_
  have error : Diagnostic.anyError (Tree.parse path text).faults = true :=
    List.any_eq_true.mpr ⟨fault, member, isError_of_mem_faults member⟩
  rw [faultless] at error
  contradiction

/-- The files of a printed script and of its source map, when the script is placed at a path. -/
def Rendering.filesAt (rendering : Rendering) (path : Path) (writeBom : Bool) : List OutputFile :=
  ⟨path, rendering.text, writeBom⟩ ::
    (rendering.map.map (·.2)).toList.map fun map => ⟨path.append ".map", map, false⟩

theorem Rendering.filesAt_inj {rendering : Rendering} {p q : Path} {writeBom : Bool} :
    rendering.filesAt p writeBom = rendering.filesAt q writeBom ↔ p = q := by
  constructor
  · intro same
    exact congrArg OutputFile.name (List.cons.inj same).1
  · rintro rfl
    rfl

/-- A rendering lies where its tree says, and its source map beside it. -/
theorem files_render (tree : Tree) (options : Options) (projectRoot : Path) (writeBom : Bool) :
    (render tree options projectRoot).files writeBom =
      (render tree options projectRoot).filesAt (tree.file.outputPath options projectRoot)
        writeBom := by
  unfold render
  dsimp only
  split <;> rfl

/-- A file is emitted on its own as follows. -/
theorem transpileFile_eq (path : Path) (text : String) (options : Options) (projectRoot : Path)
    (transformers : TransformerSet) :
    transpileFile path text options projectRoot transformers =
      if options.wantsNoEmit then pure { skipped := true }
      else if path.isJson then pure { files := jsonFiles path text options projectRoot }
      else if Diagnostic.anyError (Tree.parse path text).faults then
        pure { diagnostics := (Tree.parse path text).faults, skipped := true }
      else do
        let tree ← transformers.run (Tree.parse path text)
        let rendering := render tree options projectRoot
        return { files := rendering.filesAt (path.outputPath options projectRoot)
                            options.wantsBom } := by
  unfold transpileFile transpileModule
  dsimp only
  split
  · rfl
  · split
    · rfl
    · cases faulty : Diagnostic.anyError (Tree.parse path text).faults with
      | true =>
        simp only [↓reduceIte, pure_bind]
        rw [if_pos faulty]
      | false =>
        have clean : Diagnostic.anyError [] = false := rfl
        simp only [Bool.false_eq_true, ↓reduceIte, bind_assoc, pure_bind,
          faults_eq_nil faulty, clean]
        rfl

end Recast.Emit
