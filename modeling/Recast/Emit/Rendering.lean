import Recast.Emit.Transformer
import Recast.OutputFile
import Recast.Script.Naming
import Recast.SourceMap.Mapping

/-!
# Renderings

The text of a tree with its line endings, its source map, and the files that hold them.
-/

namespace Recast.Emit

open Recast.Script

/-- A printed script, and its source map where one is wanted. -/
structure Rendering where
  path : Path
  text : String
  map : Option (Path × String)
deriving Repr, Inhabited

/-- A text with the line endings that are wanted. Both kinds of line ending become the wanted one. -/
def convertBreaks : Option NewLine → String → String
  | none, text => text
  | some .lf, text => Text.replace "\r\n" "\n" text
  | some .crlf, text => Text.replace "\n" "\r\n" (Text.replace "\r\n" "\n" text)

/-- A script with the line behind it that names its source map. -/
def withMapLine (options : Options) (mapPath : Path) (text : String) : String :=
  let gap := if text.isEmpty || text.toList.getLast? = some '\n' then "" else options.newLineText
  text ++ gap ++ "//# sourceMappingURL=" ++ mapPath.fileName?.getD ""

/-- Renders a tree. -/
def render (tree : Tree) (options : Options) (projectRoot : Path) : Rendering :=
  let path := tree.file.outputPath options projectRoot
  if options.wantsSourceMap then
    let (text, mappings) := SourceMap.printWithMappings tree
    let mapPath := path.append ".map"
    let map := SourceMap.document path tree.file mappings
    ⟨path, withMapLine options mapPath (convertBreaks options.newLine text), some (mapPath, map.compact)⟩
  else ⟨path, convertBreaks options.newLine tree.print, none⟩

/-- The files of a rendering: the script, and its source map behind it. -/
def Rendering.files (rendering : Rendering) (writeBom : Bool) : List OutputFile :=
  ⟨rendering.path, rendering.text, writeBom⟩ ::
    match rendering.map with
    | some (path, text) => [⟨path, text, false⟩]
    | none => []

/-- A JSON file is copied into the output directory, if there is one. -/
def jsonFiles (source : Path) (text : String) (options : Options) (projectRoot : Path) : List OutputFile :=
  if options.outDir.isSome then [⟨source.outputPath options projectRoot, text, false⟩] else []

end Recast.Emit
