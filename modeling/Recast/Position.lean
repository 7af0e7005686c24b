/-!
# Positions in a text

A position has a line and a column, both counted from one; columns count UTF-8 bytes. A byte offset has a
position exactly when it does not fall inside a character (`Position.ofOffset?`).
-/

namespace Recast

namespace Text

/-- The number of UTF-8 bytes of the characters. -/
def byteLength : List Char → Nat
  | [] => 0
  | c :: cs => c.utf8Size + byteLength cs

/-- The characters before a byte offset, all of them when it lies beyond the end; none when the offset
falls inside a character. -/
def takeBytes? : Nat → List Char → Option (List Char)
  | 0, _ => some []
  | _ + 1, [] => some []
  | n + 1, c :: cs =>
    if c.utf8Size ≤ n + 1 then (takeBytes? (n + 1 - c.utf8Size) cs).map (c :: ·) else none

@[simp] theorem byteLength_nil : byteLength [] = 0 := rfl

@[simp] theorem byteLength_cons (c : Char) (cs : List Char) :
    byteLength (c :: cs) = c.utf8Size + byteLength cs := rfl

@[simp] theorem byteLength_append (cs ds : List Char) :
    byteLength (cs ++ ds) = byteLength cs + byteLength ds := by
  induction cs with
  | nil => simp
  | cons c cs ih =>
    rw [List.cons_append, byteLength_cons, byteLength_cons, ih]
    omega

/-- What is taken is a beginning of the text. -/
theorem isPrefix_of_takeBytes? {n : Nat} {cs before : List Char} (h : takeBytes? n cs = some before) :
    before <+: cs := by
  fun_induction takeBytes? n cs generalizing before with
  | case1 => simp_all
  | case2 => simp_all
  | case3 n c cs _ ih =>
    obtain ⟨rest, taken, rfl⟩ := Option.map_eq_some_iff.mp h
    exact List.cons_prefix_cons.mpr ⟨rfl, ih taken⟩
  | case4 => simp at h

end Text

/-- A line and a column, counted from one. -/
structure Position where
  line : Nat
  column : Nat
deriving DecidableEq, Repr, Inhabited

namespace Position

/-- The position at the start of a text. -/
def start : Position := ⟨1, 1⟩

/-- The position behind a character. -/
def advance (p : Position) (c : Char) : Position :=
  if c = '\n' then ⟨p.line + 1, 1⟩ else ⟨p.line, p.column + c.utf8Size⟩

/-- The position behind the characters. -/
def after (before : List Char) : Position :=
  before.foldl advance start

/-- The position of a byte offset; an offset beyond the end counts as the end. -/
def ofOffset? (text : List Char) (offset : Nat) : Option Position :=
  (Text.takeBytes? offset text).map after

@[simp] theorem after_nil : after [] = start := rfl

theorem after_append_singleton (before : List Char) (c : Char) :
    after (before ++ [c]) = (after before).advance c := by
  simp [after]

end Position

end Recast
