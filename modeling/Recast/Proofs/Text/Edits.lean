import Mathlib.Order.Bounds.Basic
import Mathlib.Order.MinMax
import Recast.Text.EditDistance

/-! # Edits

An edit inserts an element into a list, deletes one or substitutes one. The least number of edits
that turn one list into another follows from what becomes of the first elements (`leastEdits`),
because no edit changes that number by more than one (`Edit.leastEdits_le`).

The rows of the edit distance go through both lists from the front, so a row holds the least numbers
of edits for what has been read, backwards (`foldl_nextRow`). Edits can be read backwards as well,
and so the last cell of the last row is the least number of edits (`isLeast_editDistance`).
-/

namespace Recast.Text

variable {α : Type} {as bs cs : List α} {m n : Nat}

/-- One edit, at any place of a list. -/
inductive Edit : List α → List α → Prop
  | insert (front back : List α) (a : α) : Edit (front ++ back) (front ++ a :: back)
  | delete (front back : List α) (a : α) : Edit (front ++ a :: back) (front ++ back)
  | substitute (front back : List α) (a b : α) : Edit (front ++ a :: back) (front ++ b :: back)

/-- A number of edits, one after the other. -/
inductive Edits : Nat → List α → List α → Prop
  | none (as : List α) : Edits 0 as as
  | more {n : Nat} {as bs cs : List α} (first : Edit as bs) (rest : Edits n bs cs) :
    Edits (n + 1) as cs

section Editing

theorem Edit.symm (edit : Edit as bs) : Edit bs as := by
  cases edit with
  | insert front back a => exact .delete front back a
  | delete front back a => exact .insert front back a
  | substitute front back a b => exact .substitute front back b a

theorem Edit.cons (c : α) (edit : Edit as bs) : Edit (c :: as) (c :: bs) := by
  cases edit with
  | insert front back a => exact .insert (c :: front) back a
  | delete front back a => exact .delete (c :: front) back a
  | substitute front back a b => exact .substitute (c :: front) back a b

/-- An edit can be read backwards. -/
theorem Edit.reverse (edit : Edit as bs) : Edit as.reverse bs.reverse := by
  cases edit with
  | insert front back a => simpa using Edit.insert back.reverse front.reverse a
  | delete front back a => simpa using Edit.delete back.reverse front.reverse a
  | substitute front back a b => simpa using Edit.substitute back.reverse front.reverse a b

theorem Edit.length_le (edit : Edit as bs) : bs.length ≤ as.length + 1 := by
  cases edit <;> simp only [List.length_append, List.length_cons] <;> omega

theorem Edit.once (edit : Edit as bs) : Edits 1 as bs :=
  .more edit (.none bs)

theorem Edits.trans (first : Edits m as bs) (second : Edits n bs cs) : Edits (m + n) as cs := by
  induction first with
  | none as => rwa [Nat.zero_add]
  | more edit _ ih =>
    rw [Nat.add_right_comm]
    exact .more edit (ih second)

theorem Edits.symm (edits : Edits n as bs) : Edits n bs as := by
  induction edits with
  | none as => exact .none as
  | more edit _ ih => exact ih.trans edit.symm.once

theorem Edits.cons (c : α) (edits : Edits n as bs) : Edits n (c :: as) (c :: bs) := by
  induction edits with
  | none as => exact .none (c :: as)
  | more edit _ ih => exact .more (edit.cons c) ih

theorem Edits.reverse (edits : Edits n as bs) : Edits n as.reverse bs.reverse := by
  induction edits with
  | none as => exact .none as.reverse
  | more edit _ ih => exact .more edit.reverse ih

theorem Edits.length_le (edits : Edits n as bs) : bs.length ≤ as.length + n := by
  induction edits with
  | none as => exact Nat.le_refl _
  | more edit _ ih =>
    have once := edit.length_le
    omega

theorem Edits.least (some : Edits m as bs) (others : Edits n as bs) : Edits (min m n) as bs := by
  rcases min_choice m n with least | least <;> rwa [least]

theorem Edits.eq_of_zero (edits : Edits 0 as bs) : as = bs := by
  cases edits
  rfl

/-- A list is written by as many edits as it has elements. -/
theorem edits_nil (bs : List α) : Edits bs.length [] bs := by
  induction bs with
  | nil => exact .none []
  | cons b bs ih => exact ih.trans (Edit.insert [] bs b).once

end Editing

section Least

variable [DecidableEq α]

/-- The least number of edits between two lists: the first element of the one is deleted, that of
the other is inserted, or the one becomes the other, which takes no edit if they are equal. -/
def leastEdits : List α → List α → Nat
  | [], bs => bs.length
  | as, [] => as.length
  | a :: as, b :: bs =>
    min (min (leastEdits as (b :: bs) + 1) (leastEdits (a :: as) bs + 1))
      (leastEdits as bs + if a = b then 0 else 1)
termination_by as bs => as.length + bs.length

theorem leastEdits_nil_left (bs : List α) : leastEdits [] bs = bs.length := by
  rw [leastEdits]

theorem leastEdits_nil_right (as : List α) : leastEdits as [] = as.length := by
  cases as with
  | nil => exact leastEdits_nil_left []
  | cons a as => rw [leastEdits]; exact List.cons_ne_nil a as

theorem leastEdits_cons_cons (a b : α) (as bs : List α) :
    leastEdits (a :: as) (b :: bs) =
      min (min (leastEdits as (b :: bs) + 1) (leastEdits (a :: as) bs + 1))
        (leastEdits as bs + if a = b then 0 else 1) := by
  rw [leastEdits]

/-- The recursion names edits that lead from the one list to the other. -/
theorem edits_leastEdits (as bs : List α) : Edits (leastEdits as bs) as bs := by
  fun_induction leastEdits as bs with
  | case1 bs => exact edits_nil bs
  | case2 as => exact (edits_nil as).symm
  | case3 a as b bs deleted inserted both =>
    have delete : Edits (leastEdits as (b :: bs) + 1) (a :: as) (b :: bs) :=
      .more (.delete [] as a) deleted
    have insert : Edits (leastEdits (a :: as) bs + 1) (a :: as) (b :: bs) :=
      inserted.trans (Edit.insert [] bs b).once
    have become : Edits (leastEdits as bs + if a = b then 0 else 1) (a :: as) (b :: bs) := by
      split
      · next same => exact same ▸ both.cons a
      · exact .more (.substitute [] as a b) (both.cons b)
    exact (delete.least insert).least become

theorem leastEdits_self (as : List α) : leastEdits as as = 0 := by
  induction as with
  | nil => exact leastEdits_nil_left []
  | cons a as ih => rw [leastEdits_cons_cons, ih, if_pos rfl, Nat.add_zero, Nat.min_zero]

/-- An element in front of a list costs at most one edit more. -/
theorem leastEdits_cons_left_le (a : α) (as bs : List α) :
    leastEdits (a :: as) bs ≤ leastEdits as bs + 1 := by
  cases bs with
  | nil => rw [leastEdits_nil_right, leastEdits_nil_right, List.length_cons]
  | cons b bs =>
    rw [leastEdits_cons_cons]
    omega

theorem leastEdits_cons_right_le (as : List α) (b : α) (bs : List α) :
    leastEdits as (b :: bs) ≤ leastEdits as bs + 1 := by
  cases as with
  | nil => rw [leastEdits_nil_left, leastEdits_nil_left, List.length_cons]
  | cons a as =>
    rw [leastEdits_cons_cons]
    omega

theorem leastEdits_cons_cons_le (a b : α) (as bs : List α) :
    leastEdits (a :: as) (b :: bs) ≤ leastEdits as bs + 1 := by
  rw [leastEdits_cons_cons]
  split <;> omega

/-- Also without its first element a list is at most one edit further away. -/
theorem leastEdits_le_cons (a : α) (as cs : List α) :
    leastEdits as cs ≤ leastEdits (a :: as) cs + 1 := by
  induction cs with
  | nil =>
    rw [leastEdits_nil_right, leastEdits_nil_right, List.length_cons]
    omega
  | cons c cs ih =>
    have inserted := leastEdits_cons_right_le as c cs
    rw [leastEdits_cons_cons]
    omega

theorem leastEdits_substitute_le (a b : α) (as cs : List α) :
    leastEdits (a :: as) cs ≤ leastEdits (b :: as) cs + 1 := by
  induction cs with
  | nil =>
    rw [leastEdits_nil_right, leastEdits_nil_right, List.length_cons, List.length_cons]
    omega
  | cons c cs ih =>
    have deleted := leastEdits_cons_left_le a as (c :: cs)
    have inserted := leastEdits_cons_right_le (a :: as) c cs
    have both := leastEdits_cons_cons_le a c as cs
    rw [leastEdits_cons_cons b]
    omega

/-- Lists that are one edit apart from everywhere stay so behind a common front. -/
theorem leastEdits_append_le (near : ∀ cs, leastEdits as cs ≤ leastEdits bs cs + 1)
    (front cs : List α) : leastEdits (front ++ as) cs ≤ leastEdits (front ++ bs) cs + 1 := by
  induction front generalizing cs with
  | nil => exact near cs
  | cons a front further =>
    rw [List.cons_append, List.cons_append]
    -- The recursion also takes elements from the other list alone, which leaves the front as it is.
    induction cs with
    | nil =>
      have shorter := further []
      rw [leastEdits_nil_right, leastEdits_nil_right] at shorter ⊢
      rw [List.length_cons, List.length_cons]
      omega
    | cons c cs ih =>
      have deleted := further (c :: cs)
      have both := further cs
      rw [leastEdits_cons_cons, leastEdits_cons_cons]
      omega

/-- No edit changes the least number of edits by more than one. -/
theorem Edit.leastEdits_le (edit : Edit as bs) (cs : List α) :
    leastEdits as cs ≤ leastEdits bs cs + 1 := by
  cases edit with
  | insert front back a => exact leastEdits_append_le (leastEdits_le_cons a back) front cs
  | delete front back a => exact leastEdits_append_le (leastEdits_cons_left_le a back) front cs
  | substitute front back a b =>
    exact leastEdits_append_le (leastEdits_substitute_le a b back) front cs

theorem Edits.leastEdits_le (edits : Edits n as bs) : leastEdits as bs ≤ n := by
  induction edits with
  | none as => exact (leastEdits_self as).le
  | more edit _ ih => exact (edit.leastEdits_le _).trans (Nat.succ_le_succ ih)

theorem isLeast_leastEdits (as bs : List α) :
    IsLeast {n | Edits n as bs} (leastEdits as bs) :=
  ⟨edits_leastEdits as bs, fun _ edits => edits.leastEdits_le⟩

theorem leastEdits_reverse (as bs : List α) :
    leastEdits as.reverse bs.reverse = leastEdits as bs := by
  apply Nat.le_antisymm
  · exact (edits_leastEdits as bs).reverse.leastEdits_le
  · have back := (edits_leastEdits as.reverse bs.reverse).reverse
    rw [List.reverse_reverse, List.reverse_reverse] at back
    exact back.leastEdits_le

theorem leastEdits_le_max (as bs : List α) : leastEdits as bs ≤ max as.length bs.length := by
  fun_induction leastEdits as bs with
  | case1 bs => exact Nat.le_max_right _ _
  | case2 as => exact Nat.le_max_left _ _
  | case3 a as b bs _ _ both =>
    rw [List.length_cons, List.length_cons]
    split <;> omega

end Least

section Rows

variable [DecidableEq α]

/-- The least numbers of edits between a list and what has been read of another one, backwards: for
what has been read so far, and each time after one more element. -/
def rowFrom (as read : List α) : List α → List Nat
  | [] => [leastEdits as read]
  | b :: bs => leastEdits as read :: rowFrom as (b :: read) bs

theorem rowFrom_eq_cons (as read bs : List α) :
    rowFrom as read bs = leastEdits as read :: (rowFrom as read bs).tail := by
  cases bs <;> rfl

/-- The first row numbers the beginnings of the other list. -/
theorem rowFrom_nil (read bs : List α) :
    rowFrom [] read bs = List.range' read.length (bs.length + 1) := by
  induction bs generalizing read with
  | nil => rw [rowFrom, leastEdits_nil_left]; rfl
  | cons b bs ih =>
    rw [rowFrom, ih, leastEdits_nil_left, List.length_cons, List.length_cons]
    rfl

/-- A cell is computed from its three neighbours as the recursion says. -/
theorem nextCells_rowFrom (a : α) (as read bs : List α) :
    nextCells a (leastEdits (a :: as) read) bs (rowFrom as read bs) =
      (rowFrom (a :: as) read bs).tail := by
  induction bs generalizing read with
  | nil => rfl
  | cons b bs ih =>
    have above := rowFrom_eq_cons as (b :: read) bs
    calc nextCells a (leastEdits (a :: as) read) (b :: bs) (rowFrom as read (b :: bs))
      _ = leastEdits (a :: as) (b :: read) ::
          nextCells a (leastEdits (a :: as) (b :: read)) bs (rowFrom as (b :: read) bs) := by
        rw [rowFrom, above, nextCells, leastEdits_cons_cons]
      _ = leastEdits (a :: as) (b :: read) :: (rowFrom (a :: as) (b :: read) bs).tail := by rw [ih]
      _ = rowFrom (a :: as) (b :: read) bs := (rowFrom_eq_cons (a :: as) (b :: read) bs).symm

theorem nextRow_rowFrom (a : α) (as bs : List α) :
    nextRow a bs (rowFrom as [] bs) = rowFrom (a :: as) [] bs := by
  have first : leastEdits (a :: as) [] = leastEdits as [] + 1 := by
    rw [leastEdits_nil_right, leastEdits_nil_right, List.length_cons]
  calc nextRow a bs (rowFrom as [] bs)
    _ = leastEdits (a :: as) [] ::
        nextCells a (leastEdits (a :: as) []) bs (rowFrom as [] bs) := by
      rw [first]
      cases bs <;> rfl
    _ = leastEdits (a :: as) [] :: (rowFrom (a :: as) [] bs).tail := by rw [nextCells_rowFrom]
    _ = rowFrom (a :: as) [] bs := (rowFrom_eq_cons (a :: as) [] bs).symm

/-- Each row holds the least numbers of edits for what has been read of the first list. -/
theorem foldl_nextRow (as read bs : List α) :
    as.foldl (fun row a => nextRow a bs row) (rowFrom read [] bs) =
      rowFrom (as.reverse ++ read) [] bs := by
  induction as generalizing read with
  | nil => rfl
  | cons a as ih =>
    rw [List.foldl_cons, nextRow_rowFrom, ih, List.reverse_cons, List.append_assoc]
    rfl

theorem getLastD_rowFrom (as read bs : List α) :
    (rowFrom as read bs).getLastD 0 = leastEdits as (bs.reverse ++ read) := by
  induction bs generalizing read with
  | nil => rfl
  | cons b bs ih =>
    rw [List.reverse_cons, List.append_assoc, List.singleton_append, ← ih, rowFrom,
      rowFrom_eq_cons as (b :: read)]
    rfl

/-- The rows compute what the recursion defines. -/
theorem editDistance_eq (as bs : List α) : editDistance as bs = leastEdits as bs := by
  have start : List.range (bs.length + 1) = rowFrom [] [] bs := by
    rw [rowFrom_nil, List.range_eq_range']
    rfl
  rw [editDistance, start, foldl_nextRow, getLastD_rowFrom, List.append_nil, List.append_nil,
    leastEdits_reverse]

theorem isLeast_editDistance (as bs : List α) :
    IsLeast {n | Edits n as bs} (editDistance as bs) := by
  rw [editDistance_eq]
  exact isLeast_leastEdits as bs

end Rows

section Laws

variable [DecidableEq α]

theorem editDistance_eq_zero_iff : editDistance as bs = 0 ↔ as = bs := by
  obtain ⟨edits, _⟩ := isLeast_editDistance as bs
  constructor
  · intro zero
    rw [zero] at edits
    exact edits.eq_of_zero
  · rintro rfl
    rw [editDistance_eq, leastEdits_self]

theorem editDistance_comm (as bs : List α) : editDistance as bs = editDistance bs as := by
  obtain ⟨there, least⟩ := isLeast_editDistance as bs
  obtain ⟨back, least'⟩ := isLeast_editDistance bs as
  exact Nat.le_antisymm (least back.symm) (least' there.symm)

theorem editDistance_triangle (as bs cs : List α) :
    editDistance as cs ≤ editDistance as bs + editDistance bs cs := by
  obtain ⟨first, _⟩ := isLeast_editDistance as bs
  obtain ⟨second, _⟩ := isLeast_editDistance bs cs
  exact (isLeast_editDistance as cs).2 (first.trans second)

theorem length_le_editDistance (as bs : List α) :
    max as.length bs.length - min as.length bs.length ≤ editDistance as bs := by
  obtain ⟨edits, _⟩ := isLeast_editDistance as bs
  have there := edits.length_le
  have back := edits.symm.length_le
  omega

theorem editDistance_le_length (as bs : List α) :
    editDistance as bs ≤ max as.length bs.length := by
  rw [editDistance_eq]
  exact leastEdits_le_max as bs

end Laws

section Bytes

/-- The bytes of an array from some place on are listed behind those that were taken before. -/
private theorem loop_eq_append_drop (bytes : ByteArray) (i : Nat) (taken : List UInt8) :
    ByteArray.toList.loop bytes i taken = taken.reverse ++ bytes.data.toList.drop i := by
  fun_induction ByteArray.toList.loop bytes i taken with
  | case1 i taken inside ih =>
    have there : i < bytes.data.toList.length := inside
    have read : bytes.get! i = bytes.data.toList[i] := getElem!_pos bytes.data i inside
    rw [ih, List.reverse_cons, List.append_assoc, read, List.drop_eq_getElem_cons there]
    rfl
  | case2 i taken outside =>
    have beyond : bytes.data.toList.length ≤ i := Nat.le_of_not_lt outside
    rw [List.drop_eq_nil_of_le beyond, List.append_nil]

theorem toList_toUTF8 (s : String) : s.toUTF8.toList = s.toByteArray.data.toList :=
  loop_eq_append_drop s.toByteArray 0 []

theorem toList_toUTF8_inj {s t : String} : s.toUTF8.toList = t.toUTF8.toList ↔ s = t := by
  rw [toList_toUTF8, toList_toUTF8, Array.toList_inj, ← ByteArray.ext_iff, String.toByteArray_inj]

theorem length_toUTF8 (s : String) : s.toUTF8.toList.length = s.utf8ByteSize := by
  rw [toList_toUTF8]
  rfl

end Bytes

end Recast.Text
