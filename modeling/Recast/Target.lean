import Recast.Distinct
import Recast.Text.Blank
import Recast.Text.Pieces

/-!
# Target names

A target is a named way to build the same scripts. The wildcard stands for the build without a name.
-/

namespace Recast.Target

/-- The name of the build without a name. -/
def wildcard : String := "*"

def isWildcard (target : String) : Bool :=
  target == wildcard

/-- The names of a list that is written with commas: trimmed, and without empty ones. -/
def splitNames (list : String) : List String :=
  ((Text.split ',' list).map Text.trim).filter (· ≠ "")

/-- The targets that are asked for, each once and in order; the wildcard when nothing is. -/
def normalize (requested : List String) : List String :=
  let names := distinct (· == ·) (requested.flatMap splitNames)
  if names.isEmpty then [wildcard] else names

end Recast.Target
