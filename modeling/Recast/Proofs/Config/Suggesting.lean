import Recast.Config.Warning
import Recast.Proofs.Text.Edits

/-! # Suggestions for unknown keys

For an unknown key the first of the known keys at the least distance is suggested, if at most two
edits lie between them. The distance is the least number of edits that turn the bytes of the one key
into those of the other (`suggestions_by_least_edits`).
-/

namespace Recast.KeyWarning

open Text

/-- The first candidate at the least distance: the ones before it are further away, and none behind
it is nearer. -/
def IsFirstNearest (unknown : String) (candidates : List String) (key : String) : Prop :=
  ∃ before behind, candidates = before ++ key :: behind ∧
    (∀ other ∈ before, byteDistance unknown key < byteDistance unknown other) ∧
    ∀ other ∈ behind, byteDistance unknown key ≤ byteDistance unknown other

section Nearest

variable {unknown key : String} {candidates : List String}

theorem IsFirstNearest.mem (first : IsFirstNearest unknown candidates key) : key ∈ candidates := by
  obtain ⟨before, behind, rfl, -, -⟩ := first
  simp

theorem IsFirstNearest.le (first : IsFirstNearest unknown candidates key) :
    ∀ other ∈ candidates, byteDistance unknown key ≤ byteDistance unknown other := by
  obtain ⟨before, behind, rfl, further, notNearer⟩ := first
  intro other member
  rcases List.mem_append.mp member with earlier | later
  · exact (further other earlier).le
  · rcases List.mem_cons.mp later with rfl | later
    · exact le_rfl
    · exact notNearer other later

theorem nearest_eq_none_iff : nearest unknown candidates = none ↔ candidates = [] := by
  cases candidates with
  | nil => exact iff_of_true rfl rfl
  | cons candidate rest =>
    rw [nearest]
    split
    · split <;> simp
    · simp

/-- The search finds the first candidate at the least distance. -/
theorem isFirstNearest_of_nearest {distance : Nat}
    (found : nearest unknown candidates = some (key, distance)) :
    IsFirstNearest unknown candidates key ∧ distance = byteDistance unknown key := by
  induction candidates generalizing key distance with
  | nil => cases found
  | cons candidate rest ih =>
    rw [nearest] at found
    split at found
    · next other least search =>
      obtain ⟨first, rfl⟩ := ih search
      split at found
      · next nearer =>
        cases found
        obtain ⟨before, behind, rfl, further, notNearer⟩ := first
        exact ⟨⟨candidate :: before, behind, rfl, List.forall_mem_cons.mpr ⟨nearer, further⟩,
          notNearer⟩, rfl⟩
      · next notNearer =>
        cases found
        refine ⟨⟨[], rest, rfl, by simp, fun later member => ?_⟩, rfl⟩
        exact (Nat.le_of_not_lt notNearer).trans (first.le later member)
    · next search =>
      cases found
      rw [nearest_eq_none_iff] at search
      subst search
      exact ⟨⟨[], [], rfl, by simp, by simp⟩, rfl⟩

/-- There is only one candidate to find. -/
theorem IsFirstNearest.nearest_eq (first : IsFirstNearest unknown candidates key) :
    nearest unknown candidates = some (key, byteDistance unknown key) := by
  obtain ⟨before, behind, rfl, further, notNearer⟩ := first
  induction before with
  | nil =>
    rw [List.nil_append, nearest]
    split
    · next other least search =>
      obtain ⟨firstBehind, rfl⟩ := isFirstNearest_of_nearest search
      rw [if_neg (Nat.not_lt.mpr (notNearer other firstBehind.mem))]
    · rfl
  | cons candidate before ih =>
    obtain ⟨nearer, further⟩ := List.forall_mem_cons.mp further
    rw [List.cons_append, nearest, ih further]
    exact if_pos nearer

theorem suggest_eq_some_iff : suggest unknown = some key ↔
    IsFirstNearest unknown knownKeys key ∧ byteDistance unknown key ≤ 2 := by
  constructor
  · intro suggested
    unfold suggest at suggested
    split at suggested
    · next candidate distance search =>
      obtain ⟨first, rfl⟩ := isFirstNearest_of_nearest search
      split at suggested
      · next close =>
        cases suggested
        exact ⟨first, close⟩
      · cases suggested
    · cases suggested
  · rintro ⟨first, close⟩
    unfold suggest
    rw [first.nearest_eq]
    exact if_pos close

theorem suggest_eq_none_iff : suggest unknown = none ↔
    ∀ key ∈ knownKeys, 2 < byteDistance unknown key := by
  obtain ⟨⟨candidate, distance⟩, search⟩ : ∃ found, nearest unknown knownKeys = some found :=
    Option.ne_none_iff_exists'.mp fun none => by cases nearest_eq_none_iff.mp none
  obtain ⟨first, rfl⟩ := isFirstNearest_of_nearest search
  unfold suggest
  rw [search]
  dsimp only
  constructor
  · intro refused key member
    have far : ¬byteDistance unknown candidate ≤ 2 := fun close => by
      rw [if_pos close] at refused
      cases refused
    exact (Nat.lt_of_not_le far).trans_le (first.le key member)
  · intro far
    exact if_neg (Nat.not_le.mpr (far candidate first.mem))

end Nearest

/-- The distance of two keys is given by the recursion over their bytes, and it is the least number
of insertions, deletions and substitutions of bytes that turn the one into the other. So it tells
keys apart, is the same in both directions, takes no detour, and lies between the difference of the
lengths and the greater one. What is suggested for an unknown key is the first of the known keys at
the least distance if that is at most two, and nothing else. -/
theorem suggestions_by_least_edits :
    (∀ s t : String, byteDistance s t = leastEdits s.toUTF8.toList t.toUTF8.toList ∧
      IsLeast {n | Edits n s.toUTF8.toList t.toUTF8.toList} (byteDistance s t)) ∧
    (∀ s t, byteDistance s t = 0 ↔ s = t) ∧
    (∀ s t, byteDistance s t = byteDistance t s) ∧
    (∀ s t u, byteDistance s u ≤ byteDistance s t + byteDistance t u) ∧
    (∀ s t, max s.utf8ByteSize t.utf8ByteSize - min s.utf8ByteSize t.utf8ByteSize ≤
        byteDistance s t ∧
      byteDistance s t ≤ max s.utf8ByteSize t.utf8ByteSize) ∧
    (∀ unknown key, suggest unknown = some key ↔
      IsFirstNearest unknown knownKeys key ∧ byteDistance unknown key ≤ 2) ∧
    ∀ unknown, suggest unknown = none ↔ ∀ key ∈ knownKeys, 2 < byteDistance unknown key := by
  refine ⟨fun s t => ⟨editDistance_eq _ _, isLeast_editDistance _ _⟩,
    fun s t => editDistance_eq_zero_iff.trans toList_toUTF8_inj, fun s t => editDistance_comm _ _,
    fun s t u => editDistance_triangle _ _ _, fun s t => ?_, fun _ _ => suggest_eq_some_iff,
    fun _ => suggest_eq_none_iff⟩
  rw [← length_toUTF8, ← length_toUTF8]
  exact ⟨length_le_editDistance _ _, editDistance_le_length _ _⟩

/-- A letter that was left out is one edit, and eight other letters are too many. -/
example : suggest "adons" = some "addons" ∧ suggest "zzzzzzzz" = none := by decide +kernel

end Recast.KeyWarning
