import Recast.Emit.Rendering

/-!
# Emission of one module

`transpileModule` emits a script on its own. A script with faults has no output.
-/

namespace Recast.Emit

open Recast.Script

/-- What the emission of a file gives. -/
structure Emission where
  files : List OutputFile := []
  diagnostics : List Diagnostic := []
  skipped : Bool := false
deriving Inhabited

/-- The text of an emitted module, its source map, and what is wrong with it. -/
structure ModuleOutput where
  text : String := ""
  map : Option String := none
  diagnostics : List Diagnostic := []
deriving Inhabited

/-- Emits a script on its own. -/
def transpileModule (file : Path) (text : String) (options : Options) (projectRoot : Path)
    (transformers : TransformerSet) : Journaled ModuleOutput := do
  let tree := Tree.parse file text
  if Diagnostic.anyError tree.faults then return { diagnostics := tree.faults }
  let tree' ← transformers.run tree
  let rendering := render tree' options projectRoot
  return { text := rendering.text, map := rendering.map.map (·.2), diagnostics := tree.faults }

/-- Emits a file without looking at others. -/
def transpileFile (file : Path) (text : String) (options : Options) (projectRoot : Path)
    (transformers : TransformerSet) : Journaled Emission := do
  if options.wantsNoEmit then return { skipped := true }
  if file.isJson then return { files := jsonFiles file text options projectRoot }
  let output ← transpileModule file text options projectRoot transformers
  if Diagnostic.anyError output.diagnostics then return { diagnostics := output.diagnostics, skipped := true }
  let path := file.outputPath options projectRoot
  let script : OutputFile := ⟨path, output.text, options.wantsBom⟩
  let maps := output.map.toList.map fun map => (⟨path.append ".map", map, false⟩ : OutputFile)
  return { files := script :: maps, diagnostics := output.diagnostics }

end Recast.Emit
