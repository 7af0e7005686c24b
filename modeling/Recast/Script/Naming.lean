import Recast.Options
import Recast.Path.Extension

/-!
# Names of scripts and of their outputs
-/

namespace Recast

/-- The extensions of scripts. -/
def scriptExtensions : List String :=
  ["ts", "tsx", "mts", "cts", "js", "jsx", "mjs", "cjs"]

namespace Path

/-- Whether the path has the extension of a script. -/
def isScript (p : Path) : Bool :=
  p.hasExtension scriptExtensions

/-- Whether the path has the extension of a JSON file. -/
def isJson (p : Path) : Bool :=
  p.hasExtension ["json"]

/-- The extension of what is emitted for a file: modules and common modules keep their kind. -/
def emittedExtension (p : Path) : String :=
  match p.extension?.map lowerAscii with
  | some "mts" => "mjs"
  | some "mjs" => "mjs"
  | some "cts" => "cjs"
  | some "cjs" => "cjs"
  | some "json" => "json"
  | _ => "js"

/-- Where the output of a file goes: beside it, or to the same place below the output directory. A file
outside the root directory goes directly into the output directory. -/
def outputPath (source : Path) (options : Options) (projectRoot : Path) : Path :=
  match options.outDir with
  | none => source.withExtension source.emittedExtension
  | some outDir =>
    let root := options.rootDir.getD projectRoot
    let relative :=
      match source.stripPrefix? root with
      | some relative => relative
      | none => (source.fileName?.map ofString).getD empty
    (outDir.join relative).withExtension source.emittedExtension

end Path

end Recast
