/-!
# Edit distance

The least number of insertions, deletions and substitutions that turn one list into another, computed row by
row: a row holds the distances from one beginning of the first list to every beginning of the second.
-/

namespace Recast.Text

variable {α : Type} [DecidableEq α]

/-- The cells of the next row behind its first one: `left` is the cell before, and the row above is read at
the diagonal and straight up. -/
def nextCells (a : α) : Nat → List α → List Nat → List Nat
  | left, b :: bs, diagonal :: above :: row =>
    let cell := min (min (above + 1) (left + 1)) (diagonal + if a = b then 0 else 1)
    cell :: nextCells a cell bs (above :: row)
  | _, _, _ => []

/-- The next row, which is one letter `a` further in the first list. -/
def nextRow (a : α) (bs : List α) (row : List Nat) : List Nat :=
  match row with
  | [] => []
  | first :: _ => (first + 1) :: nextCells a (first + 1) bs row

/-- The least number of edits between two lists. -/
def editDistance (as bs : List α) : Nat :=
  (as.foldl (fun row a => nextRow a bs row) (List.range (bs.length + 1))).getLastD 0

/-- The least number of edits between the bytes of two texts. -/
def byteDistance (s t : String) : Nat :=
  editDistance s.toUTF8.toList t.toUTF8.toList

end Recast.Text
