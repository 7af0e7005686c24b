import Recast.Files.Glob
import Recast.Text.Blank

/-!
# Ignore files

A line of an ignore file excludes what its pattern matches, or admits it again. Of the lines that match, the
last one decides.
-/

namespace Recast.Files

/-- A line of an ignore file. -/
structure IgnoreRule where
  admits : Bool
  onlyDirectories : Bool
  pattern : List GlobToken
deriving Repr, Inhabited

/-- What an ignore file says about a path. -/
inductive Verdict where
  | silent
  | excluded
  | admitted
deriving DecidableEq, Repr, Inhabited

namespace IgnoreRule

def trimEnd (cs : List Char) : List Char :=
  (cs.reverse.dropWhile Text.isBlank).reverse

/-- Whether the characters end with a suffix. -/
def endsWith (suffix cs : List Char) : Bool :=
  suffix.reverse.isPrefixOf cs.reverse

/-- Takes the mark of an admission and the anchor at the front off: what is left, whether the line admits, and
whether it is anchored. -/
def frontMarks (line : List Char) : List Char × Bool × Bool :=
  match line with
  | '\\' :: '!' :: rest => ('!' :: rest, false, false)
  | '\\' :: '#' :: rest => ('#' :: rest, false, false)
  | '!' :: '/' :: rest => (rest, true, true)
  | '!' :: rest => (rest, true, false)
  | '/' :: rest => (rest, false, true)
  | rest => (rest, false, false)

/-- Takes the slash that asks for a directory off the end, with a backslash before it. -/
def backMark (line : List Char) : List Char × Bool :=
  match line.reverse with
  | '/' :: '\\' :: rest => (rest.reverse, true)
  | '/' :: rest => (rest.reverse, true)
  | _ => (line, false)

/-- The pattern for the whole relative path: one without a slash may match below any directory, and one for
all that is inside a directory does not match the directory. -/
def wholePattern (anchored : Bool) (line : List Char) : List Char :=
  let anywhere := !anchored && !line.contains '/' && line != ['*', '*']
  let pattern := if anywhere then ['*', '*', '/'] ++ line else line
  if endsWith ['/', '*', '*'] pattern then pattern ++ ['/', '*'] else pattern

/-- The rule of a line; comments, empty lines and broken patterns have none. -/
def ofLine? (line : List Char) : Option IgnoreRule :=
  if line.head? = some '#' then none
  else
    let trimmed := if endsWith ['\\', ' '] line then line else trimEnd line
    if trimmed.isEmpty then none
    else
      let (rest, admits, anchored) := frontMarks trimmed
      let (rest, onlyDirectories) := backMark rest
      (parseGlob (String.ofList (wholePattern anchored rest))).map (⟨admits, onlyDirectories, ·⟩)

/-- The lines of a file. A line feed ends a line, with a carriage return before it. -/
def linesOf : List UInt8 → List (List UInt8)
  | [] => []
  | 0x0A :: bytes => [] :: linesOf bytes
  | 0x0D :: 0x0A :: bytes => [] :: linesOf bytes
  | b :: bytes =>
    match linesOf bytes with
    | line :: lines => (b :: line) :: lines
    | [] => [[b]]

/-- The texts of the lines up to the first that is not UTF-8. -/
def textsOf (bytes : ByteArray) : List (List Char) :=
  let lines := (linesOf bytes.data.toList).map fun line => String.fromUTF8? ⟨line.toArray⟩
  (lines.takeWhile Option.isSome).filterMap fun text => text.map String.toList

/-- The rules of an ignore file. Byte order marks at its front do not count, and a pattern that is too deep takes
all rules of the file with it. -/
def ofBytes (bytes : ByteArray) : List IgnoreRule :=
  match textsOf bytes with
  | [] => []
  | first :: rest =>
    let rules := (first.dropWhile (· = '\ufeff') :: rest).filterMap ofLine?
    if rules.any fun rule => isTooDeep rule.pattern then [] else rules

/-- The verdict on a relative path. -/
def verdict (rules : List IgnoreRule) (path : String) (isDirectory : Bool) : Verdict :=
  let bytes := path.toUTF8.toList
  match rules.reverse.find? fun rule =>
    (isDirectory || !rule.onlyDirectories) && globMatches rule.pattern bytes with
  | some rule => if rule.admits then .admitted else .excluded
  | none => .silent

end IgnoreRule

end Recast.Files
