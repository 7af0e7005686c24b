import Recast.Files.Disk
import Recast.Files.Ignore

/-!
# What a listing of a directory shows

A listing leaves out hidden entries and what ignore files exclude. Each directory has ignore files of its own, and the
exclude file of the repository that begins there.
-/

namespace Recast.Files

/-- The names of ignore files, the strongest first. The exclude file of a repository is weaker than all of them. -/
def ignoreFileNames : List String :=
  [".tspipeignore", ".ignore", ".gitignore"]

namespace DiskNode

/-- The path that the first line of a file spells behind a mark. -/
def spelled? (mark : String) (bytes : ByteArray) : Option Path := do
  let line ← (IgnoreRule.textsOf bytes).head?
  guard (mark.toList.isPrefixOf line)
  return .ofString (String.ofList (line.drop mark.length))

/-- The directory of a work tree that a `.git` file names. -/
def workTreeDirectory? (gitFile : ByteArray) : Option Path :=
  spelled? "gitdir: " gitFile

/-- The directory that the work trees of a repository share, named in that of the work tree. A name that begins with
a dot is seen from there. -/
def sharedDirectory (workTree : Path) (named : Path) : Path :=
  if named.toString.toList.head? = some '.' then workTree / named else named

/-- The exclude file behind a `.git` file. -/
def linkedExclude? (root : DiskNode) (start : List String) (gitFile : ByteArray) : Option Path := do
  let workTree ← workTreeDirectory? gitFile
  let named ← spelled? "" (← root.fileAt? start (workTree / .ofString "commondir"))
  return sharedDirectory workTree named / .ofString "info/exclude"

/-- The exclude file of the repository that begins in a directory: inside `.git`, or where a file of that name leads.
Relative paths are seen from `start`, wherever the directory is. -/
def exclude? (root : DiskNode) (start : List String) (directory : DiskNode) : Option ByteArray :=
  match directory.file? [".git"] with
  | some gitFile => do root.fileAt? start (← root.linkedExclude? start gitFile)
  | none => directory.file? [".git", "info", "exclude"]

end DiskNode

/-- The rules of the ignore files of one directory, the strongest first. -/
abbrev DirectoryRules := List (List IgnoreRule)

/-- The rules that a directory of a disk holds. -/
def DiskNode.rules (root : DiskNode) (start : List String) (directory : DiskNode) : DirectoryRules :=
  let files := ignoreFileNames.map (fun name => directory.file? [name]) ++ [root.exclude? start directory]
  files.map fun file => (file.map IgnoreRule.ofBytes).getD []

/-- A directory above an entry: its rules, and the names from there to the entry. -/
structure RuleScope where
  rules : DirectoryRules
  names : List String

/-- The verdict of one kind of ignore file: the innermost directory that is not silent decides. -/
def verdictOfKind (scopes : List RuleScope) (isDirectory : Bool) (kind : Nat) : Verdict :=
  let verdicts := scopes.map fun scope =>
    IgnoreRule.verdict (scope.rules.getD kind []) ("/".intercalate scope.names) isDirectory
  (verdicts.find? (· ≠ .silent)).getD .silent

/-- Whether a listing leaves an entry out. The strongest kind that is not silent decides; where all are silent,
hidden entries are left out. The scopes are listed innermost first. -/
def leavesOut (scopes : List RuleScope) (name : String) (isDirectory : Bool) : Bool :=
  match ((List.range (ignoreFileNames.length + 1)).map (verdictOfKind scopes isDirectory)).find? (· ≠ .silent) with
  | some .excluded => true
  | some _ => false
  | none => name.toList.head? = some '.'

mutual

/-- The files below a directory that a listing shows, with their names behind `before`. The scopes are those of
the directories above, innermost first, with the names from there to the directory. -/
def listed (rules : DiskNode → DirectoryRules) (scopes : List RuleScope) (before : List String) :
    DiskNode → List (List String)
  | .file _ => [before]
  | .directory entries =>
    let here := (⟨rules (.directory entries), []⟩ : RuleScope) :: scopes
    listedEntries rules here before entries

def listedEntries (rules : DiskNode → DirectoryRules) (scopes : List RuleScope) (before : List String) :
    List (String × DiskNode) → List (List String)
  | [] => []
  | (name, node) :: rest =>
    let inner := scopes.map fun scope => { scope with names := scope.names ++ [name] }
    (if leavesOut inner name node.isDirectory then [] else listed rules inner (before ++ [name]) node) ++
      listedEntries rules scopes before rest

end

/-- The scopes of the directories above the end of a list of names, innermost first. -/
def scopesAbove (rules : DiskNode → DirectoryRules) (node : DiskNode) : List String → List RuleScope
  | [] => []
  | name :: names =>
    match node with
    | .file _ => []
    | .directory entries =>
      let inner := ((entries.lookup name).map fun inner => scopesAbove rules inner names).getD []
      inner ++ [⟨rules node, name :: names⟩]

end Recast.Files
