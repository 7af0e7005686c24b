import Recast.Text.Pieces

/-!
# Paths

A path is a spelled text, cut at its slashes. What it names is the list of its components: empty segments and
inner dots do not count, so `/p//a` and `/p/./a/` name the same as `/p/a`. Paths are compared and ordered by
components, and printed as they are spelled.
-/

namespace Recast

/-- A spelled path: whether it begins with a slash, and the texts between the slashes after that. The empty
text has no segments. -/
structure Path where
  rooted : Bool
  segments : List String
deriving DecidableEq, Repr, Inhabited

/-- A step of a path. -/
inductive Component where
  | root
  | current
  | parent
  | normal (name : String)
deriving DecidableEq, Repr, Inhabited

namespace Component

/-- Roots come first, then `.`, `..` and names by code points. -/
def rank : Component → Nat
  | root => 0
  | current => 1
  | parent => 2
  | normal _ => 3

/-- The component as it is spelled. -/
def text : Component → String
  | root => "/"
  | current => "."
  | parent => ".."
  | normal name => name

/-- The order of components. -/
def compare : Component → Component → Ordering
  | normal a, normal b => if a < b then .lt else if a = b then .eq else .gt
  | a, b => Ord.compare a.rank b.rank

end Component

namespace Path

/-- A segment that takes no step. -/
def isIdle (segment : String) : Bool :=
  segment == "" || segment == "."

/-- The step that a segment takes. -/
def stepOf (segment : String) : Component :=
  if segment = ".." then .parent else .normal segment

/-- The steps of segments behind the first one. -/
def innerComponents (segments : List String) : List Component :=
  (segments.filter fun segment => !isIdle segment).map stepOf

/-- The steps of a path. A dot counts only at the front of a path that does not begin at the root. -/
def components (p : Path) : List Component :=
  if p.rooted then .root :: innerComponents p.segments
  else
    match p.segments with
    | "." :: rest => .current :: innerComponents rest
    | segments => innerComponents segments

/-- Paths that name the same. -/
def same (p q : Path) : Bool :=
  p.components == q.components

/-- Lexicographic order of lists of components. -/
def compareComponents : List Component → List Component → Ordering
  | [], [] => .eq
  | [], _ :: _ => .lt
  | _ :: _, [] => .gt
  | a :: as, b :: bs => (a.compare b).then (compareComponents as bs)

/-- The order of paths. -/
def compare (p q : Path) : Ordering :=
  compareComponents p.components q.components

/-- The path that a text spells. -/
def ofString (text : String) : Path :=
  let segments (body : List Char) : List String :=
    if body.isEmpty then [] else (Text.splitChars '/' body).map String.ofList
  match text.toList with
  | '/' :: body => ⟨true, segments body⟩
  | body => ⟨false, segments body⟩

/-- The text that spells a path. -/
def toString (p : Path) : String :=
  (if p.rooted then "/" else "") ++ "/".intercalate p.segments

instance : ToString Path := ⟨toString⟩

/-- The empty path. -/
def empty : Path := ⟨false, []⟩

/-- Whether nothing is spelled. -/
def isEmpty (p : Path) : Bool :=
  !p.rooted && p.segments.isEmpty

/-- The segments with room for another one behind them: a slash at the end is not written twice. -/
def openSegments (p : Path) : List String :=
  if p.segments.getLast? = some "" then p.segments.dropLast else p.segments

/-- `p` followed by `q`, or `q` alone when it begins at the root. -/
def join (p q : Path) : Path :=
  if q.rooted then q
  else if q.segments.isEmpty then
    if p.segments.isEmpty then p else ⟨p.rooted, p.openSegments ++ [""]⟩
  else ⟨p.rooted, p.openSegments ++ q.segments⟩

instance : Div Path := ⟨join⟩

/-- Removes idle segments at the end. -/
def trimEnd (segments : List String) : List String :=
  (segments.reverse.dropWhile isIdle).reverse

/-- The path without idle segments at its end; a dot at the front is no idle one. -/
def trimmed (p : Path) : Path :=
  if p.rooted then ⟨true, trimEnd p.segments⟩
  else
    match p.segments with
    | "." :: rest => ⟨false, "." :: trimEnd rest⟩
    | segments => ⟨false, trimEnd segments⟩

/-- The path without its last step; a root and the empty path have none. -/
def parent? (p : Path) : Option Path :=
  let whole := p.trimmed
  if whole.segments.isEmpty then none
  else some (trimmed ⟨whole.rooted, whole.segments.dropLast⟩)

/-- The last step, when it is a name. -/
def fileName? (p : Path) : Option String :=
  match p.components.getLast? with
  | some (.normal name) => some name
  | _ => none

/-- Whether the path begins with the steps of another one. -/
def startsWith (p base : Path) : Bool :=
  base.components.isPrefixOf p.components

/-- The first step, and the path behind it. -/
def uncons? (p : Path) : Option (Component × Path) :=
  if p.rooted then some (.root, ⟨false, p.segments.dropWhile isIdle⟩)
  else
    match p.segments with
    | [] => none
    | "." :: rest => some (.current, ⟨false, rest.dropWhile isIdle⟩)
    | segment :: rest => some (stepOf segment, ⟨false, rest.dropWhile isIdle⟩)

/-- What is left of a path behind the given steps. -/
def dropSteps? : List Component → Path → Option Path
  | [], p => some p.trimmed
  | step :: steps, p =>
    match p.uncons? with
    | some (first, rest) => if first = step then dropSteps? steps rest else none
    | none => none

/-- The path relative to a base that it begins with. -/
def stripPrefix? (p base : Path) : Option Path :=
  dropSteps? base.components p

/-- The path with a text written directly behind it. -/
def append (p : Path) (suffix : String) : Path :=
  match p.segments.getLast? with
  | none => ⟨p.rooted, [suffix]⟩
  | some last => ⟨p.rooted, p.segments.dropLast ++ [last ++ suffix]⟩

end Path

end Recast
