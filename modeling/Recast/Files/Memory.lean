import Recast.Failure
import Recast.Path.Extension
import Recast.Path.Map
import Recast.Path.Normal

/-!
# Files in memory

A map from resolved paths to texts, with watchers. Directories are implied by the files below them, and watchers
are told of a change only by `notified`.
-/

namespace Recast.Files

/-- A watcher of a resolved path. -/
structure Watcher where
  path : Path
  active : Bool
deriving Repr, Inhabited

/-- Files by resolved path, and all watchers that were ever opened, in that order. -/
structure MemoryTree where
  current : Path
  files : PathMap String := .empty
  watchers : List Watcher := []
  supportsWatch : Bool := true
deriving Repr, Inhabited

namespace MemoryTree

/-- No files, seen from a current directory. -/
def new (current : Path) (supportsWatch : Bool) : MemoryTree :=
  { current := current.normalize, supportsWatch := supportsWatch }

/-- Where a path leads. -/
def resolve (tree : MemoryTree) (p : Path) : Path :=
  p.resolveFrom tree.current

def write (tree : MemoryTree) (p : Path) (text : String) : MemoryTree :=
  { tree with files := tree.files.insert (tree.resolve p) text }

def remove (tree : MemoryTree) (p : Path) : MemoryTree :=
  { tree with files := tree.files.erase (tree.resolve p) }

/-- The text of a file. -/
def file? (tree : MemoryTree) (p : Path) : Option String :=
  tree.files.get? (tree.resolve p)

def fileExists (tree : MemoryTree) (p : Path) : Bool :=
  (tree.file? p).isSome

def read (tree : MemoryTree) (p : Path) : Except FileError String :=
  match tree.file? p with
  | some text => .ok text
  | none => .error (.notFound (tree.resolve p))

/-- Whether a file lies strictly below the path. -/
def directoryExists (tree : MemoryTree) (p : Path) : Bool :=
  let directory := tree.resolve p
  tree.files.keys.any fun file => !file.same directory && file.startsWith directory

/-- The files below a directory that have one of the extensions. -/
def list (tree : MemoryTree) (p : Path) (extensions : List String) : Except FileError (List Path) :=
  let directory := tree.resolve p
  if tree.directoryExists directory then
    .ok (tree.files.keys.filter fun file => file.startsWith directory && file.hasExtension extensions)
  else .error (.notFound directory)

/-- Opens a watcher; its number counts the watchers opened before. -/
def watch (tree : MemoryTree) (p : Path) : Except FileError (Nat × Path × MemoryTree) :=
  if tree.supportsWatch then
    let path := tree.resolve p
    .ok (tree.watchers.length, path, { tree with watchers := tree.watchers ++ [⟨path, true⟩] })
  else .error (.other "file watching is not supported on this system")

/-- Closes a watcher. -/
def close (tree : MemoryTree) (watcher : Nat) : MemoryTree :=
  { tree with watchers := tree.watchers.modify watcher fun w => { w with active := false } }

/-- The numbers of the watchers that are told when a path changes, in the order in which they were opened. -/
def notified (tree : MemoryTree) (p : Path) : List Nat :=
  let path := tree.resolve p
  (tree.watchers.zipIdx.filter fun (w, _) => w.active && w.path.same path).map (·.2)

def activeCount (tree : MemoryTree) : Nat :=
  tree.watchers.countP (·.active)

end MemoryTree

end Recast.Files
