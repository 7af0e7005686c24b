import Recast.Files.Listing
import Recast.OutputFile
import Recast.Path.Extension
import Recast.Path.Normal

/-!
# Files of a disk

A disk as seen from a current directory. Reading wants text, writing makes the directories on the way, and a listing
is in path order.
-/

namespace Recast.Files

/-- A disk, seen from a current directory. -/
structure LocalTree where
  current : Path
  root : DiskNode
  /-- The directory that the program runs in; relative paths in `.git` files are seen from there. -/
  start : List String

instance : Inhabited LocalTree := ⟨⟨.empty, .directory [], []⟩⟩

namespace LocalTree

/-- Where a path leads. -/
def resolve (tree : LocalTree) (p : Path) : Path :=
  p.resolveFrom tree.current

/-- The names of a resolved path; the root has no directory above it. -/
def names (p : Path) : List String :=
  p.segments.filter (· ≠ "..")

/-- The names of a resolved path that a disk can be asked for. -/
def checkedNames (p : Path) : Except DiskError (List String) :=
  let text := p.toString
  if text.toList.contains '\x00' then .error .zeroByte
  else if pathLimit < text.utf8ByteSize then .error .nameTooLong
  else .ok (names p)

def find (tree : LocalTree) (p : Path) : Except DiskError DiskNode := do
  tree.root.find (← checkedNames (tree.resolve p))

/-- The text of a file, without a byte order mark. -/
def read (tree : LocalTree) (p : Path) : Except FileError String :=
  let text : Except DiskError String := do
    match ← tree.find p with
    | .directory _ => .error .isDirectory
    | .file bytes =>
      match String.fromUTF8? bytes with
      | some text => .ok text
      | none => .error .notText
  match text with
  | .error error => .error (error.toFileError (tree.resolve p))
  | .ok text =>
    match text.toList with
    | c :: cs => .ok (if c = OutputFile.bom then String.ofList cs else text)
    | [] => .ok text

/-- Makes the directory at a resolved path, and those on the way. -/
def makeDirectory (tree : LocalTree) (path : Path) : LocalTree × Option DiskError :=
  match checkedNames path with
  | .error error => (tree, some error)
  | .ok names =>
    let (root, error) := tree.root.makeDirectories names
    ({ tree with root := root }, error)

/-- Moves a finished file to a resolved path. Here it is the disk itself that turns a zero byte down. -/
def place (tree : LocalTree) (path : Path) (bytes : ByteArray) : Except DiskError LocalTree := do
  let names ← (checkedNames path).mapError fun error => if error = .zeroByte then .invalid else error
  return { tree with root := ← tree.root.putFile bytes names }

/-- Writes a file, and makes the directories on the way, which stay when the file cannot be written. -/
def write (tree : LocalTree) (p : Path) (text : String) : LocalTree × Option FileError :=
  let path := tree.resolve p
  let directory := (path.parent?.filter fun parent => !parent.isEmpty).getD tree.current
  match tree.makeDirectory directory with
  | (tree, some error) => (tree, some (error.toFileError directory))
  | (tree, none) =>
    match tree.place path text.toUTF8 with
    | .error error => (tree, some (error.toFileError path))
    | .ok tree => (tree, none)

/-- Removes a file, if there is one. -/
def remove (tree : LocalTree) (p : Path) : Option LocalTree :=
  match tree.root.dropFile (names (tree.resolve p)) with
  | .ok root => some { tree with root := root }
  | .error _ => none

def exists? (tree : LocalTree) (p : Path) : Bool :=
  (tree.find p).isOk

def fileExists (tree : LocalTree) (p : Path) : Bool :=
  match tree.find p with
  | .ok (.file _) => true
  | _ => false

def directoryExists (tree : LocalTree) (p : Path) : Bool :=
  match tree.find p with
  | .ok (.directory _) => true
  | _ => false

/-- The files below a directory that a listing shows and that have one of the extensions, in path order. -/
def list (tree : LocalTree) (p : Path) (extensions : List String) : Except FileError (List Path) :=
  let directory := tree.resolve p
  match tree.find p with
  | .ok (.directory entries) =>
    let rules := tree.root.rules tree.start
    let shown := listed rules (scopesAbove rules tree.root (names directory)) [] (.directory entries)
    let paths := shown.map fun file => (⟨directory.rooted, directory.segments ++ file⟩ : Path)
    .ok ((paths.filter (·.hasExtension extensions)).mergeSort fun a b => (a.compare b).isLE)
  | _ => .error (.notFound directory)

end LocalTree

end Recast.Files
