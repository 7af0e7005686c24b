import Recast.Path.Basic

/-!
# The normal form of a path, and relative references

`normalize` folds `..` against the step before it. Where no step is left to take back, `..` is written down;
it can itself be taken back by the next `..`.
-/

namespace Recast.Path

/-- Takes one step, on the reversed steps so far. -/
def foldStep (done : List String) : Component → List String
  | .root => done
  | .current => done
  | .parent =>
    match done with
    | [] => [".."]
    | _ :: before => before
  | .normal name => name :: done

/-- The path without dots, idle segments, and steps that are taken back. -/
def normalize (p : Path) : Path :=
  ⟨p.rooted, (p.components.foldl foldStep []).reverse⟩

/-- Where a path leads from a current directory. -/
def resolveFrom (p current : Path) : Path :=
  normalize (if p.rooted then p else current.join p)

/-- The steps that two lists have in common at the front are dropped from both. -/
def dropCommon : List Component → List Component → List Component × List Component
  | a :: as, b :: bs => if a = b then dropCommon as bs else (a :: as, b :: bs)
  | as, bs => (as, bs)

/-- The path that leads from a directory to a place: up to the last common step, then down. -/
def relativeTo (place directory : Path) : Path :=
  let (up, down) := dropCommon directory.components place.components
  (up.map (fun _ => "..") ++ down.map Component.text).foldl (fun out step => out.join (ofString step)) empty

end Recast.Path
