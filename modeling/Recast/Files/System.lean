import Recast.Files.Local
import Recast.Files.Memory

/-!
# Places where files live

The compiler works on files in memory and on files of a disk in the same way.
-/

namespace Recast.Files

/-- A place where files live. -/
inductive System where
  | memory (tree : MemoryTree)
  | disk (tree : LocalTree)

instance : Inhabited System := ⟨.memory default⟩

namespace System

/-- The directory from which relative paths lead. -/
def current : System → Path
  | memory tree => tree.current
  | disk tree => tree.current

/-- Where a path leads. -/
def resolve (system : System) (p : Path) : Path :=
  p.resolveFrom system.current

def read (system : System) (p : Path) : Except FileError String :=
  match system with
  | memory tree => tree.read p
  | disk tree => tree.read p

/-- Writes a file. What was made on the way to it stays when it cannot be written. -/
def write (system : System) (p : Path) (text : String) : System × Option FileError :=
  match system with
  | memory tree => (memory (tree.write p text), none)
  | disk tree =>
    let (tree, error) := tree.write p text
    (disk tree, error)

def fileExists (system : System) (p : Path) : Bool :=
  match system with
  | memory tree => tree.fileExists p
  | disk tree => tree.fileExists p

def directoryExists (system : System) (p : Path) : Bool :=
  match system with
  | memory tree => tree.directoryExists p
  | disk tree => tree.directoryExists p

/-- The files below a directory that have one of the extensions, in path order. -/
def list (system : System) (p : Path) (extensions : List String) : Except FileError (List Path) :=
  match system with
  | memory tree => tree.list p extensions
  | disk tree => tree.list p extensions

/-- Whether the time of the last change is known. -/
def hasTime (system : System) (p : Path) : Bool :=
  match system with
  | memory tree => tree.fileExists p
  | disk tree => tree.exists? p

/-- The line ending of status messages. -/
def newLine (_ : System) : String := "\n"

def supportsWatch : System → Bool
  | memory tree => tree.supportsWatch
  | disk _ => true

/-- Opens a watcher: its number, and the path that it watches. A disk has no numbers; whoever looks after it
compares the paths. -/
def watch (system : System) (p : Path) : Except FileError (Nat × Path × System) :=
  match system with
  | memory tree => (tree.watch p).map fun (watcher, path, tree) => (watcher, path, memory tree)
  | disk tree => .ok (0, tree.resolve p, disk tree)

def close (system : System) (watcher : Nat) : System :=
  match system with
  | memory tree => memory (tree.close watcher)
  | disk tree => disk tree

end System

end Recast.Files
