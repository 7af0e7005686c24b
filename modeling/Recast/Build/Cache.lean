import Recast.Files.System

/-!
# The cache of a compiler

For each file and target: the text that was read, the text that was compiled, a version that counts their
changes, and the outputs of the last compilation that had any. Changes are found by comparing texts.
-/

namespace Recast.Build

/-- What is known of one file under one target. -/
structure CacheEntry where
  version : Nat := 0
  source : String := ""
  snapshot : Option String := none
  timed : Bool := false
  outputs : List OutputFile := []
  failed : Bool := false
deriving DecidableEq, Repr, Inhabited

namespace CacheEntry

/-- Whether a source and what the processors make of it are already recorded. -/
def records (entry : CacheEntry) (source processed : String) : Bool :=
  entry.source == source && entry.snapshot == some processed

/-- The entry with a new text. -/
def update (entry : CacheEntry) (source processed : String) : CacheEntry :=
  if entry.records source processed then entry
  else { entry with version := entry.version + 1, source := source, snapshot := some processed, timed := true }

/-- The entry without its snapshot: the next text counts as new. -/
def stale (entry : CacheEntry) : CacheEntry :=
  { entry with snapshot := none }

/-- The entry after a compilation with output. -/
def withOutputs (entry : CacheEntry) (outputs : List OutputFile) : CacheEntry :=
  { entry with outputs := outputs, failed := false }

/-- The entry after a compilation without output. -/
def withoutOutput (entry : CacheEntry) : CacheEntry :=
  { entry with failed := true }

/-- Whether the entry stands for a text that was compiled, and the last compilation had output. -/
def isSettled (entry : CacheEntry) : Bool :=
  entry.snapshot.isSome && !entry.failed

end CacheEntry

/-- A file under a target. -/
structure CacheKey where
  path : Path
  target : String
deriving Repr, Inhabited

/-- Keys with the same path and the same target are one key. -/
def CacheKey.same (a b : CacheKey) : Bool :=
  a.path.same b.path && a.target == b.target

/-- Entries by key. -/
structure Cache where
  entries : List (CacheKey × CacheEntry) := []
deriving Repr, Inhabited

namespace Cache

/-- The entry of a key in a list of pairs. -/
def lookup (key : CacheKey) : List (CacheKey × CacheEntry) → Option CacheEntry
  | [] => none
  | (other, entry) :: rest => if key.same other then some entry else lookup key rest

/-- The list of pairs with another entry for a key. -/
def assign (key : CacheKey) (entry : CacheEntry) : List (CacheKey × CacheEntry) → List (CacheKey × CacheEntry)
  | [] => [(key, entry)]
  | (other, old) :: rest =>
    if key.same other then (other, entry) :: rest else (other, old) :: assign key entry rest

def get? (cache : Cache) (path : Path) (target : String) : Option CacheEntry :=
  lookup ⟨path, target⟩ cache.entries

/-- The entry of a file under a target, or one that knows nothing. -/
def get (cache : Cache) (path : Path) (target : String) : CacheEntry :=
  (cache.get? path target).getD {}

def contains (cache : Cache) (path : Path) (target : String) : Bool :=
  (cache.get? path target).isSome

def set (cache : Cache) (path : Path) (target : String) (entry : CacheEntry) : Cache :=
  ⟨assign ⟨path, target⟩ entry cache.entries⟩

/-- Applies a function to an entry, if it exists. -/
def modify (cache : Cache) (path : Path) (target : String) (f : CacheEntry → CacheEntry) : Cache :=
  match cache.get? path target with
  | some entry => cache.set path target (f entry)
  | none => cache

/-- Makes an entry that knows nothing, unless there is one. -/
def ensure (cache : Cache) (path : Path) (target : String) : Cache :=
  cache.set path target (cache.get path target)

def remove (cache : Cache) (path : Path) (target : String) : Cache :=
  ⟨cache.entries.filter fun (key, _) => !(⟨path, target⟩ : CacheKey).same key⟩

/-- Whether recording a source and what the processors made of it is news. -/
def isNews (cache : Cache) (path : Path) (target source processed : String) : Bool :=
  !(cache.get path target).records source processed

/-- Records a source and what the processors made of it. -/
def update (cache : Cache) (path : Path) (target source processed : String) : Cache :=
  cache.set path target ((cache.get path target).update source processed)

def markStale (cache : Cache) (path : Path) (target : String) : Cache :=
  cache.modify path target (·.stale)

def setOutputs (cache : Cache) (path : Path) (target : String) (outputs : List OutputFile) : Cache :=
  cache.modify path target (·.withOutputs outputs)

def markFailed (cache : Cache) (path : Path) (target : String) : Cache :=
  cache.modify path target (·.withoutOutput)

/-- Whether a file has to be compiled: its last compilation is not known to have had output, or its text is not
the one that was recorded. A file that cannot be read has changed. -/
def hasChanged (cache : Cache) (system : Files.System) (path : Path) (target : String) : Bool :=
  match cache.get? path target with
  | none => true
  | some entry =>
    if entry.isSettled then
      match system.read path with
      | .ok text => text != entry.source
      | .error _ => true
    else true

def size (cache : Cache) : Nat :=
  cache.entries.length

end Cache

end Recast.Build
