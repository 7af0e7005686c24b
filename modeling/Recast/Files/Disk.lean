import Recast.Failure
import Recast.Path.Basic

/-!
# A disk

A tree of directories and files of bytes, with limits on the length of names and paths. Nodes are found by lists of
names; `fileAt?` follows a path step by step, so that a step back needs the directory that it leaves.
-/

namespace Recast.Files

/-- A file or a directory; the entries of a directory have different names. -/
inductive DiskNode where
  | file (bytes : ByteArray)
  | directory (entries : List (String × DiskNode))
deriving Inhabited

/-- What a disk answers when it refuses. -/
inductive DiskError where
  | missing
  | exists
  | notDirectory
  | isDirectory
  | nameTooLong
  /-- A path with a zero byte, met before the disk is asked. -/
  | zeroByte
  /-- A path that the disk itself turns down. -/
  | invalid
  | notText
deriving DecidableEq, Repr, Inhabited

/-- The wording of a refusal other than a missing file. -/
def DiskError.detail : DiskError → String
  | missing => "No such file or directory (os error 2)"
  | .exists => "File exists (os error 17)"
  | notDirectory => "Not a directory (os error 20)"
  | isDirectory => "Is a directory (os error 21)"
  | nameTooLong => "File name too long (os error 36)"
  | zeroByte => "file name contained an unexpected NUL byte"
  | invalid => "Invalid argument (os error 22)"
  | notText => "stream did not contain valid UTF-8"

/-- The refusal as an error about a path. -/
def DiskError.toFileError (error : DiskError) (path : Path) : FileError :=
  match error with
  | missing => .notFound path
  | error => .io error.detail

/-- The greatest number of bytes of a name. -/
def nameLimit : Nat := 255

/-- The greatest number of bytes of a path. -/
def pathLimit : Nat := 4095

namespace DiskNode

def isDirectory : DiskNode → Bool
  | directory _ => true
  | file _ => false

/-- The entries with a node behind a name, at the end if the name is new. -/
def setEntry (name : String) (node : DiskNode) : List (String × DiskNode) → List (String × DiskNode)
  | [] => [(name, node)]
  | (other, old) :: rest =>
    if other = name then (name, node) :: rest else (other, old) :: setEntry name node rest

/-- What a directory holds under a name. -/
def entry? (entries : List (String × DiskNode)) (name : String) : Except DiskError (Option DiskNode) :=
  if nameLimit < name.utf8ByteSize then .error .nameTooLong else .ok (entries.lookup name)

/-- The node at the end of a list of names. -/
def find (node : DiskNode) : List String → Except DiskError DiskNode
  | [] => .ok node
  | name :: names =>
    match node with
    | file _ => .error .notDirectory
    | directory entries =>
      match entry? entries name with
      | .error error => .error error
      | .ok (some inner) => inner.find names
      | .ok none => .error .missing

/-- The tree with all directories of a list of names; where one cannot be made, with those before it. -/
def makeDirectories (node : DiskNode) : List String → DiskNode × Option DiskError
  | [] =>
    match node with
    | file _ => (node, some .exists)
    | directory _ => (node, none)
  | name :: names =>
    match node with
    | file _ => (node, some .notDirectory)
    | directory entries =>
      match entry? entries name with
      | .error error => (node, some error)
      | .ok inner =>
        let (inner, error) := (inner.getD (directory [])).makeDirectories names
        (directory (setEntry name inner entries), error)

/-- The tree with a file in a directory that is there. -/
def putFile (node : DiskNode) (bytes : ByteArray) : List String → Except DiskError DiskNode
  | [] =>
    match node with
    | file _ => .ok (file bytes)
    | directory _ => .error .isDirectory
  | name :: names =>
    match node with
    | file _ => .error .notDirectory
    | directory entries => do
      match ← entry? entries name, names with
      | some inner, _ => .ok (directory (setEntry name (← inner.putFile bytes names) entries))
      | none, [] => .ok (directory (setEntry name (file bytes) entries))
      | none, _ :: _ => .error .missing

/-- The tree with a node at the end of a list of names; what is not there on the way becomes a directory. -/
def graft (node inner : DiskNode) : List String → DiskNode
  | [] => inner
  | name :: names =>
    let entries := match node with
      | file _ => []
      | directory entries => entries
    directory (setEntry name (((entries.lookup name).getD (directory [])).graft inner names) entries)

/-- The tree without a file. -/
def dropFile (node : DiskNode) : List String → Except DiskError DiskNode
  | [] => .error .isDirectory
  | name :: names =>
    match node with
    | file _ => .error .notDirectory
    | directory entries =>
      match entries.lookup name, names with
      | none, _ => .error .missing
      | some (file _), [] => .ok (directory (entries.filter (·.1 ≠ name)))
      | some inner, names => do .ok (directory (setEntry name (← inner.dropFile names) entries))

mutual

/-- All files below a node with their relative names. -/
def files (before : List String) : DiskNode → List (List String × ByteArray)
  | file bytes => [(before, bytes)]
  | directory entries => filesOf before entries

def filesOf (before : List String) : List (String × DiskNode) → List (List String × ByteArray)
  | [] => []
  | (name, node) :: rest => node.files (before ++ [name]) ++ filesOf before rest

end

/-- The bytes of the file at the end of a list of names. -/
def file? (node : DiskNode) (names : List String) : Option ByteArray :=
  match node.find names with
  | .ok (.file bytes) => some bytes
  | _ => none

/-- Where a step leads from the directory at the end of a list of names; the root has no directory above it. -/
def step? (node : DiskNode) (names : List String) (step : Component) : Option (List String) :=
  match node.find names with
  | .ok (.directory _) =>
    match step with
    | .root => some []
    | .current => some names
    | .parent => some names.dropLast
    | .normal name => some (names ++ [name])
  | _ => none

/-- The bytes of the file that a path leads to, one step after the other from a directory. -/
def fileAt? (node : DiskNode) (start : List String) (p : Path) : Option ByteArray := do
  guard (p.toString.utf8ByteSize ≤ pathLimit)
  node.file? (← p.components.foldlM node.step? start)

end DiskNode

end Recast.Files
