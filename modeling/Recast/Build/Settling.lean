import Recast.Path.Map

/-!
# Settling changes

Changes are collected until none has come for a while; then they are taken all at once, each path once.
-/

namespace Recast.Build

/-- The changes that wait, and how many ticks ago the last one came. -/
structure Settling where
  pending : PathSet := .empty
  age? : Option Nat := none
deriving Inhabited, Repr

namespace Settling

/-- How many ticks of a millisecond changes must rest. -/
def restTime : Nat := 100

def add (settling : Settling) (path : Path) : Settling :=
  ⟨settling.pending.insertPath path, some 0⟩

/-- Lets time go by. -/
def wait (settling : Settling) (ticks : Nat) : Settling :=
  { settling with age? := settling.age?.map (· + ticks) }

def hasPending (settling : Settling) : Bool :=
  !settling.pending.entries.isEmpty

/-- Whether there are changes, and the last one is old enough. -/
def isReady (settling : Settling) : Bool :=
  match settling.age? with
  | some age => settling.hasPending && decide (restTime ≤ age)
  | none => false

/-- The changes in path order; none is left. -/
def take (settling : Settling) : List Path × Settling :=
  (settling.pending.keys, {})

end Settling

end Recast.Build
