import Recast.Diagnostic
import Recast.Text.EditDistance
import Recast.Text.Pieces

/-!
# Warnings about unknown keys

An unknown key is reported with the first line that holds its text, and with the known key that is nearest by
edit distance, if that is at most two edits away.
-/

namespace Recast

/-- A key that the configuration does not know. -/
structure KeyWarning where
  key : String
  file : Path
  line : Option Nat
  suggestion : Option String
deriving Repr, Inhabited

namespace KeyWarning

/-- The keys of all tables. -/
def knownKeys : List String :=
  ["files", "include", "addons", "addon_dir", "compiler_options", "targets", "out_dir", "root_dir", "source_map",
    "no_emit", "emit_bom", "new_line", "transpile_only", "strict", "write", "settings"]

/-- The first of the nearest candidates, with its distance. -/
def nearest (unknown : String) : List String → Option (String × Nat)
  | [] => none
  | candidate :: rest =>
    let distance := Text.byteDistance unknown candidate
    match nearest unknown rest with
    | some (other, least) => if least < distance then some (other, least) else some (candidate, distance)
    | none => some (candidate, distance)

/-- The known key that was probably meant. -/
def suggest (unknown : String) : Option String :=
  match nearest unknown knownKeys with
  | some (candidate, distance) => if distance ≤ 2 then some candidate else none
  | none => none

/-- The lines of a text: a carriage return before a line break belongs to the break, and the last line does not
count when it is empty. -/
def linesOf (text : String) : List (List Char) :=
  let pieces := Text.splitChars '\n' text.toList
  let ended := pieces.dropLast.map fun line => if line.getLast? = some '\r' then line.dropLast else line
  match pieces.getLast? with
  | some [] => ended
  | some last => ended ++ [last]
  | none => ended

/-- The number of the first line that holds a text. -/
def lineOf (content needle : String) : Option Nat :=
  ((linesOf content).findIdx? (Text.containsChars needle.toList)).map (· + 1)

/-- The warning about a key of a configuration text; only what stands behind the last dot counts. -/
def ofKey (content : String) (file : Path) (key : String) : KeyWarning :=
  let name := (Text.split '.' key).getLastD ""
  ⟨name, file, lineOf content name, suggest name⟩

/-- The warning as a diagnostic. -/
def diagnostic (w : KeyWarning) : Diagnostic :=
  let hint := (w.suggestion.map fun s => " Did you mean '" ++ s ++ "'?").getD ""
  ((Diagnostic.warning ("Unknown configuration key '" ++ w.key ++ "'." ++ hint)).withFile w.file).withPosition
    (w.line.map (⟨·, 1⟩))

end KeyWarning

end Recast
