import Recast.Digest
import Recast.Json
import Recast.Path.Basic

/-!
# Output files
-/

namespace Recast

/-- A file to be written, and whether a byte order mark goes in front of its text. -/
structure OutputFile where
  name : Path
  text : String
  writeBom : Bool := false
deriving DecidableEq, Repr, Inhabited

namespace OutputFile

/-- The byte order mark. -/
def bom : Char := '\ufeff'

/-- The text as it is written to the disk. -/
def diskText (file : OutputFile) : String :=
  if file.writeBom then String.ofList (bom :: file.text.toList) else file.text

/-- The digest of the text, without a byte order mark. -/
def digest (file : OutputFile) : Digest :=
  Digest.of file.text

def toJson (file : OutputFile) : Json :=
  .obj [("name", .str file.name.toString), ("text", .str file.text), ("write_bom", .bool file.writeBom)]

end OutputFile

end Recast
