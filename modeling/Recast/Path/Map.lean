import Recast.Path.Basic

/-!
# Maps with paths as keys

A sorted list of pairs. Keys that name the same are one key, and the spelling that came first stays.
-/

namespace Recast

/-- Values by path, in path order. -/
structure PathMap (α : Type) where
  entries : List (Path × α)
deriving Inhabited, Repr

namespace PathMap

variable {α : Type}

def empty : PathMap α := ⟨[]⟩

/-- The value of the first entry with that key. -/
def lookup (p : Path) : List (Path × α) → Option α
  | [] => none
  | (q, value) :: rest => if p.same q then some value else lookup p rest

/-- The value of a path. -/
def get? (map : PathMap α) (p : Path) : Option α :=
  lookup p map.entries

/-- Puts a pair into its place of a sorted list, or the value behind the key that is there. -/
def place (p : Path) (value : α) : List (Path × α) → List (Path × α)
  | [] => [(p, value)]
  | (q, old) :: rest =>
    match p.compare q with
    | .lt => (p, value) :: (q, old) :: rest
    | .eq => (q, value) :: rest
    | .gt => (q, old) :: place p value rest

/-- Sets the value of a path. -/
def insert (map : PathMap α) (p : Path) (value : α) : PathMap α :=
  ⟨place p value map.entries⟩

/-- Forgets a path. -/
def erase (map : PathMap α) (p : Path) : PathMap α :=
  ⟨map.entries.filter fun entry => !p.same entry.1⟩

def contains (map : PathMap α) (p : Path) : Bool :=
  (map.get? p).isSome

/-- The paths in order. -/
def keys (map : PathMap α) : List Path :=
  map.entries.map (·.1)

def size (map : PathMap α) : Nat :=
  map.entries.length

/-- Applies a function to every value. -/
def mapValues {β : Type} (f : α → β) (map : PathMap α) : PathMap β :=
  ⟨map.entries.map fun entry => (entry.1, f entry.2)⟩

/-- Keeps the entries whose value passes. -/
def filter (keep : α → Bool) (map : PathMap α) : PathMap α :=
  ⟨map.entries.filter fun entry => keep entry.2⟩

/-- The pairs set one after the other. -/
def ofList (pairs : List (Path × α)) : PathMap α :=
  pairs.foldl (fun map pair => map.insert pair.1 pair.2) empty

end PathMap

/-- Paths in order, each once. -/
abbrev PathSet := PathMap Unit

namespace PathSet

def insertPath (set : PathSet) (p : Path) : PathSet :=
  set.insert p ()

end PathSet

end Recast
