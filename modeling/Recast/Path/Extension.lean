import Recast.Path.Basic

/-!
# File name extensions

The extension of a name is what follows its last dot, unless that dot is the first character.
-/

namespace Recast.Path

/-- The parts of a name before and behind its last dot. A name without a dot, and one whose only dot leads
it, has no second part. -/
def splitName (name : String) : String × Option String :=
  let behind := (name.toList.reverse.takeWhile (· ≠ '.')).reverse
  let before := name.toList.take (name.length - behind.length - 1)
  if behind.length = name.length || before.isEmpty then (name, none)
  else (String.ofList before, some (String.ofList behind))

/-- The last name without its extension. -/
def stem? (p : Path) : Option String :=
  p.fileName?.map fun name => (splitName name).1

/-- The extension of the last name. -/
def extension? (p : Path) : Option String :=
  p.fileName?.bind fun name => (splitName name).2

/-- The last name with another extension; a path without a last name stays as it is. The bytes of the old
extension are cut off at the end of the text first, which turns a last name `..x` into `..`. -/
def withExtension (p : Path) (extension : String) : Path :=
  match p.fileName? with
  | none => p
  | some name =>
    let whole := p.trimmed
    let (stem, old) := splitName name
    let renamed :=
      if stem = "." && old.isSome && whole.segments.length = p.segments.length then ".."
      else stem ++ "." ++ extension
    ⟨whole.rooted, whole.segments.dropLast ++ [renamed]⟩

/-- A letter of ASCII in lower case. -/
def lowerAscii (s : String) : String :=
  String.ofList (s.toList.map Char.toLower)

/-- Whether the extension is one of those listed, in any case of ASCII letters; no list allows all. -/
def hasExtension (p : Path) (extensions : List String) : Bool :=
  extensions.isEmpty ||
    match p.extension? with
    | some extension => extensions.any fun wanted => lowerAscii wanted == lowerAscii extension
    | none => false

end Recast.Path
