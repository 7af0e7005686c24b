/-!
# Lists without repetition

Adding to the end of a list what is not there yet, for any notion of being the same.
-/

namespace Recast

variable {α : Type}

/-- The list with `x` at its end, unless something the same is in it. -/
def pushNew (same : α → α → Bool) (xs : List α) (x : α) : List α :=
  if xs.any (same x) then xs else xs ++ [x]

/-- The first of each kind, in order. -/
def distinct (same : α → α → Bool) (xs : List α) : List α :=
  xs.foldl (pushNew same) []

theorem mem_pushNew_of_mem {same : α → α → Bool} {xs : List α} {x y : α} (member : y ∈ xs) :
    y ∈ pushNew same xs x := by
  unfold pushNew
  split
  · exact member
  · exact List.mem_append_left _ member

theorem mem_or_eq_of_mem_pushNew {same : α → α → Bool} {xs : List α} {x y : α}
    (member : y ∈ pushNew same xs x) : y ∈ xs ∨ y = x := by
  unfold pushNew at member
  split at member
  · exact .inl member
  · simpa using member

/-- Nothing is in the list without repetition that was not in the list. -/
theorem mem_of_mem_distinct {same : α → α → Bool} {xs : List α} {x : α} (member : x ∈ distinct same xs) : x ∈ xs := by
  have folded : ∀ (xs acc : List α), x ∈ xs.foldl (pushNew same) acc → x ∈ acc ∨ x ∈ xs := by
    intro xs
    induction xs with
    | nil => exact fun acc known => .inl known
    | cons first xs ih =>
      intro acc known
      rcases ih _ known with before | behind
      · rcases mem_or_eq_of_mem_pushNew before with old | new
        · exact .inl old
        · exact .inr (new ▸ List.mem_cons_self ..)
      · exact .inr (List.mem_cons_of_mem _ behind)
  simpa using folded xs [] member

/-- What has something the same in the list already is not added. -/
theorem foldl_pushNew_of_any {same : α → α → Bool} {new xs : List α}
    (known : ∀ x ∈ new, xs.any (same x) = true) : new.foldl (pushNew same) xs = xs := by
  induction new with
  | nil => rfl
  | cons first new ih =>
    have here : pushNew same xs first = xs := if_pos (known first (List.mem_cons_self ..))
    rw [List.foldl_cons, here]
    exact ih fun x member => known x (List.mem_cons_of_mem _ member)

/-- What has something the same in the list keeps it. -/
theorem any_foldl_pushNew {same : α → α → Bool} {xs : List α} {x : α}
    (known : xs.any (same x) = true) (new : List α) :
    (new.foldl (pushNew same) xs).any (same x) = true := by
  induction new generalizing xs with
  | nil => exact known
  | cons first new ih =>
    obtain ⟨other, member, alike⟩ := List.any_eq_true.mp known
    exact ih (List.any_eq_true.mpr ⟨other, mem_pushNew_of_mem member, alike⟩)

/-- Something the same as each element is in the list without repetition. -/
theorem any_distinct {same : α → α → Bool} (refl : ∀ x, same x x = true) {xs : List α} {x : α}
    (member : x ∈ xs) : (distinct same xs).any (same x) = true := by
  obtain ⟨before, behind, rfl⟩ := List.append_of_mem member
  unfold distinct
  rw [List.foldl_append, List.foldl_cons]
  refine any_foldl_pushNew ?_ behind
  unfold pushNew
  split
  · next known => exact known
  · simp [refl]

/-- Parts that only repeat what stands before all of them may be left out. -/
theorem distinct_append_flatMap {β : Type} {same : α → α → Bool} (refl : ∀ x, same x x = true)
    {f g : β → List α} {parts : List β} {front : List α}
    (each : ∀ part ∈ parts, f part = g part ∨ g part = [] ∧ ∀ x ∈ f part, x ∈ front) :
    distinct same (front ++ parts.flatMap f) = distinct same (front ++ parts.flatMap g) := by
  have folded : ∀ acc : List α, (∀ x ∈ front, acc.any (same x) = true) →
      (parts.flatMap f).foldl (pushNew same) acc = (parts.flatMap g).foldl (pushNew same) acc := by
    induction parts with
    | nil => exact fun _ _ => rfl
    | cons part parts ih =>
      intro acc known
      rw [List.flatMap_cons, List.flatMap_cons, List.foldl_append, List.foldl_append]
      have rest := ih fun other member => each other (List.mem_cons_of_mem _ member)
      rcases each part (List.mem_cons_self ..) with alike | ⟨none, repeated⟩
      · rw [alike]
        exact rest _ fun x member => any_foldl_pushNew (known x member) _
      · rw [none, foldl_pushNew_of_any fun x member => known x (repeated x member)]
        exact rest acc known
  unfold distinct
  rw [List.foldl_append, List.foldl_append]
  exact folded _ fun x member => any_distinct refl member

/-- What is added stands behind what was there, and nothing in it is the same as something before
it. -/
theorem exists_foldl_pushNew (same : α → α → Bool) (new xs : List α) :
    ∃ added, new.foldl (pushNew same) xs = xs ++ added ∧ (∀ x ∈ added, x ∈ new) ∧
      added.Pairwise (fun a b => same b a = false) ∧ ∀ a ∈ xs, ∀ b ∈ added, same b a = false := by
  induction new generalizing xs with
  | nil => exact ⟨[], by simp⟩
  | cons first new ih =>
    obtain ⟨added, grown, among, apart, fresh⟩ := ih (pushNew same xs first)
    rw [List.foldl_cons, grown]
    unfold pushNew at fresh ⊢
    split
    · next known =>
      rw [if_pos known] at fresh
      exact ⟨added, rfl, fun x member => List.mem_cons_of_mem _ (among x member), apart, fresh⟩
    · next absent =>
      rw [if_neg absent] at fresh
      refine ⟨first :: added, by simp, fun x member => ?_, List.pairwise_cons.mpr ⟨?_, apart⟩, ?_⟩
      · rcases List.mem_cons.mp member with here | behind
        · exact here ▸ List.mem_cons_self ..
        · exact List.mem_cons_of_mem _ (among x behind)
      · exact fresh first (by simp)
      · intro a known b member
        rcases List.mem_cons.mp member with here | behind
        · subst here
          simp only [List.any_eq_true, not_exists, not_and, Bool.not_eq_true] at absent
          exact absent a known
        · exact fresh a (List.mem_append_left _ known) b behind

theorem pairwise_foldl_pushNew {same : α → α → Bool} (new : List α) {xs : List α}
    (apart : xs.Pairwise fun a b => same b a = false) :
    (new.foldl (pushNew same) xs).Pairwise fun a b => same b a = false := by
  obtain ⟨added, grown, _, apart', fresh⟩ := exists_foldl_pushNew same new xs
  rw [grown]
  exact List.pairwise_append.mpr ⟨apart, apart', fresh⟩

theorem pairwise_distinct (same : α → α → Bool) (xs : List α) :
    (distinct same xs).Pairwise fun a b => same b a = false :=
  pairwise_foldl_pushNew xs .nil

/-- A list in which nothing is the same as something before it stays as it is. -/
theorem distinct_of_pairwise {same : α → α → Bool} {xs : List α}
    (apart : xs.Pairwise fun a b => same b a = false) : distinct same xs = xs := by
  have folded (seen : List α) (apart : (seen ++ xs).Pairwise fun a b => same b a = false) :
      xs.foldl (pushNew same) seen = seen ++ xs := by
    induction xs generalizing seen with
    | nil => exact (List.append_nil seen).symm
    | cons first xs ih =>
      have new : ¬seen.any (same first) = true := by
        simp only [List.any_eq_true, not_exists, not_and, Bool.not_eq_true]
        exact fun known member =>
          (List.pairwise_append.mp apart).2.2 known member first (List.mem_cons_self ..)
      rw [List.append_cons] at apart ⊢
      rw [List.foldl_cons, pushNew, if_neg new]
      exact ih (apart.sublist (List.sublist_append_right ..)) _ apart
  exact folded [] apart

theorem distinct_concat (same : α → α → Bool) (xs : List α) (x : α) :
    distinct same (xs ++ [x]) = pushNew same (distinct same xs) x := by
  rw [distinct, List.foldl_append]
  rfl

end Recast
