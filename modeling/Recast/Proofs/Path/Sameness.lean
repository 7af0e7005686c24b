import Recast.Path.Extension
import Recast.Path.Map
import Recast.Path.Normal

/-! # Paths that name the same

Paths are compared by their components, and so are the keys of maps. A path in normal form is
spelled by its components, so two of them name the same only when they are equal. Everything that
was resolved is in normal form.
-/

namespace Recast.Path

theorem same_iff {p q : Path} : p.same q = true ↔ p.components = q.components := by
  simp [same]

@[simp] theorem same_self (p : Path) : p.same p = true := by
  simp [same]

theorem same_symm {p q : Path} (same : p.same q = true) : q.same p = true :=
  same_iff.mpr (same_iff.mp same).symm

theorem same_trans {p q r : Path} (first : p.same q = true) (second : q.same r = true) :
    p.same r = true :=
  same_iff.mpr ((same_iff.mp first).trans (same_iff.mp second))

/-- Paths that name the same are the same to every other path. -/
theorem same_congr_right {q r : Path} (same : q.same r = true) (p : Path) : p.same q = p.same r :=
  Bool.eq_iff_iff.mpr ⟨fun first => same_trans first same, fun first =>
    same_trans first (same_symm same)⟩

theorem compare_component_eq_iff {a b : Component} : a.compare b = .eq ↔ a = b := by
  cases a <;> cases b
  case normal.normal name other =>
    rw [Component.compare, Component.normal.injEq]
    by_cases less : name < other
    · rw [if_pos less]
      exact ⟨fun lt => absurd lt (by decide), fun same =>
        absurd (same ▸ less) (String.lt_irrefl other)⟩
    · rw [if_neg less]
      by_cases same : name = other
      · rw [if_pos same, iff_true_left rfl]
        exact same
      · rw [if_neg same]
        exact ⟨fun gt => absurd gt (by decide), fun equal => absurd equal same⟩
  all_goals simp [Component.compare, Component.rank]

theorem compareComponents_eq_iff {as bs : List Component} :
    compareComponents as bs = .eq ↔ as = bs := by
  induction as generalizing bs with
  | nil => cases bs <;> simp [compareComponents]
  | cons a as ih =>
    cases bs with
    | nil => simp [compareComponents]
    | cons b bs => simp [compareComponents, Ordering.then_eq_eq, compare_component_eq_iff, ih]

theorem compare_eq_iff {p q : Path} : p.compare q = .eq ↔ p.same q = true := by
  rw [compare, compareComponents_eq_iff, same_iff]

/-- A path that is spelled by its steps: no idle segment stands in it. -/
def IsNormal (p : Path) : Prop :=
  ∀ segment ∈ p.segments, isIdle segment = false

theorem stepOf_injective {a b : String} (same : stepOf a = stepOf b) : a = b := by
  unfold stepOf at same
  split at same <;> split at same <;> simp_all

theorem IsNormal.innerComponents {p : Path} (normal : p.IsNormal) :
    innerComponents p.segments = p.segments.map stepOf := by
  rw [Path.innerComponents, List.filter_eq_self.mpr]
  intro segment member
  simp [normal segment member]

theorem IsNormal.components {p : Path} (normal : p.IsNormal) :
    p.components = if p.rooted then .root :: p.segments.map stepOf else p.segments.map stepOf := by
  unfold Path.components
  split
  · rw [normal.innerComponents]
  · split
    · next rest spelled =>
      have := normal "." (by rw [spelled]; exact List.mem_cons_self ..)
      simp [isIdle] at this
    · rw [normal.innerComponents]

private theorem root_notMem_map_stepOf (segments : List String) :
    Component.root ∉ segments.map stepOf := by
  simp only [List.mem_map, not_exists, not_and]
  intro segment _
  unfold stepOf
  split <;> simp

/-- Paths in normal form that name the same are spelled the same. -/
theorem IsNormal.eq_of_same {p q : Path} (normal : p.IsNormal) (normal' : q.IsNormal)
    (same : p.same q = true) : p = q := by
  have steps := same_iff.mp same
  rw [normal.components, normal'.components] at steps
  have inj {xs ys : List String} : xs.map stepOf = ys.map stepOf → xs = ys :=
    (List.map_inj_right fun _ _ => stepOf_injective).mp
  rcases p with ⟨rooted, segments⟩
  rcases q with ⟨rooted', segments'⟩
  cases rooted <;> cases rooted' <;> simp only [Bool.false_eq_true, ↓reduceIte] at steps
  · rw [inj steps]
  · exact absurd (steps ▸ List.mem_cons_self ..) (root_notMem_map_stepOf segments)
  · exact absurd (steps.symm ▸ List.mem_cons_self ..) (root_notMem_map_stepOf segments')
  · rw [inj (List.cons.inj steps).2]

/-- Roots and dots do not matter when steps are folded. -/
theorem foldl_components (p : Path) (done : List String) :
    p.components.foldl foldStep done = (Path.innerComponents p.segments).foldl foldStep done := by
  unfold Path.components
  split
  · rfl
  · split
    · next rest spelled =>
      rw [spelled]
      rfl
    · rfl

/-- A segment that is a name. -/
private def isName (segment : String) : Prop :=
  isIdle segment = false ∧ segment ≠ ".."

/-- Reversed segments that are left when steps are folded: names, with at most one step back before
them. -/
private def Folded (done : List String) : Prop :=
  ∃ names : List String, (∀ name ∈ names, isName name) ∧ (done = names ∨ done = names ++ [".."])

private theorem Folded.foldStep {done : List String} (folded : Folded done) {segment : String}
    (busy : isIdle segment = false) : Folded (foldStep done (stepOf segment)) := by
  obtain ⟨names, proper, shape⟩ := folded
  unfold stepOf
  by_cases back : segment = ".."
  · rw [if_pos back]
    cases names with
    | nil =>
      rcases shape with rfl | rfl
      · exact ⟨[], by simp, .inr rfl⟩
      · exact ⟨[], by simp, .inl rfl⟩
    | cons name names =>
      refine ⟨names, fun other member => proper other (List.mem_cons_of_mem _ member), ?_⟩
      rcases shape with rfl | rfl
      · exact .inl rfl
      · exact .inr rfl
  · rw [if_neg back]
    refine ⟨segment :: names, fun other member => ?_, shape.imp (congrArg _) (congrArg _)⟩
    rcases List.mem_cons.mp member with rfl | member
    · exact ⟨busy, back⟩
    · exact proper other member

private theorem folded_foldl (segments : List String) {done : List String} (folded : Folded done) :
    Folded ((Path.innerComponents segments).foldl Path.foldStep done) := by
  induction segments generalizing done with
  | nil => exact folded
  | cons segment segments ih =>
    unfold Path.innerComponents at ih ⊢
    cases idle : isIdle segment with
    | true => simpa [idle] using ih folded
    | false => simpa [idle] using ih (folded.foldStep idle)

private theorem folded_normalize (p : Path) : Folded p.normalize.segments.reverse := by
  change Folded (p.components.foldl foldStep []).reverse.reverse
  rw [List.reverse_reverse, foldl_components]
  exact folded_foldl _ ⟨[], by simp, .inl rfl⟩

theorem isNormal_normalize (p : Path) : p.normalize.IsNormal := by
  intro segment member
  obtain ⟨names, proper, shape⟩ := folded_normalize p
  have member := List.mem_reverse.mpr member
  rcases shape with shape | shape <;> rw [shape] at member
  · exact (proper segment member).1
  · rcases List.mem_append.mp member with known | back
    · exact (proper segment known).1
    · rw [List.mem_singleton.mp back]
      rfl

theorem isNormal_resolveFrom (p current : Path) : (p.resolveFrom current).IsNormal :=
  isNormal_normalize _

/-- Folding the steps that were left by folding leaves them. -/
private theorem Folded.foldl_map_stepOf {done : List String} (folded : Folded done) :
    (done.reverse.map stepOf).foldl Path.foldStep [] = done := by
  have pushed (names before : List String) (proper : ∀ name ∈ names, isName name) :
      (names.reverse.map stepOf).foldl Path.foldStep before = names ++ before := by
    induction names with
    | nil => rfl
    | cons name names ih =>
      have step : stepOf name = .normal name := if_neg (proper name (List.mem_cons_self ..)).2
      rw [List.reverse_cons, List.map_append, List.foldl_append,
        ih fun other member => proper other (List.mem_cons_of_mem _ member)]
      simp [step, Path.foldStep]
  obtain ⟨names, proper, rfl | rfl⟩ := folded
  · rw [pushed done [] proper, List.append_nil]
  · rw [List.reverse_append]
    exact pushed names [".."] proper

theorem normalize_normalize (p : Path) : p.normalize.normalize = p.normalize := by
  have left := (folded_normalize p).foldl_map_stepOf
  rw [List.reverse_reverse, ← (isNormal_normalize p).innerComponents, ← foldl_components] at left
  change Path.mk p.normalize.rooted (p.normalize.components.foldl foldStep []).reverse = _
  rw [left, List.reverse_reverse]

theorem rooted_resolveFrom (p : Path) {current : Path} (absolute : current.rooted = true) :
    (p.resolveFrom current).rooted = true := by
  change (if p.rooted then p else current.join p).rooted = true
  split
  · assumption
  · next relative =>
    unfold join
    rw [if_neg relative]
    split
    · split
      · exact absolute
      · exact absolute
    · exact absolute

/-- A path that leads somewhere from a root leads there from everywhere. -/
theorem resolveFrom_resolveFrom (p : Path) {current : Path} (absolute : current.rooted = true) :
    (p.resolveFrom current).resolveFrom current = p.resolveFrom current := by
  change normalize (if _ then _ else _) = _
  rw [if_pos (rooted_resolveFrom p absolute)]
  exact normalize_normalize _

theorem rooted_join (a : Path) {b : Path} (relative : ¬b.rooted) :
    (a.join b).rooted = a.rooted := by
  unfold join
  rw [if_neg relative]
  split
  · split <;> rfl
  · rfl

/-- The steps of a joined path are those of its parts. -/
theorem foldl_join {p : Path} (current : Path) (relative : ¬p.rooted) (done : List String) :
    (current.join p).components.foldl foldStep done =
      p.components.foldl foldStep (current.components.foldl foldStep done) := by
  have opened :
      Path.innerComponents current.openSegments = Path.innerComponents current.segments := by
    unfold openSegments
    split
    · next last =>
      obtain ⟨front, spelled⟩ := List.getLast?_eq_some_iff.mp last
      rw [spelled, List.dropLast_concat]
      simp [Path.innerComponents, isIdle]
    · rfl
  have split (segments : List String) : Path.innerComponents (current.openSegments ++ segments) =
      Path.innerComponents current.segments ++ Path.innerComponents segments := by
    rw [← opened]
    simp [Path.innerComponents]
  rw [foldl_components, foldl_components p, foldl_components current, ← List.foldl_append, ← split]
  unfold join
  rw [if_neg relative]
  split
  · next none =>
    rw [List.isEmpty_iff.mp none, List.append_nil]
    split
    · rw [opened]
    · simp [Path.innerComponents, isIdle]
  · rfl

theorem rooted_eq (p : Path) : p.rooted = p.components.contains .root := by
  have inner (segments : List String) : Component.root ∉ Path.innerComponents segments :=
    root_notMem_map_stepOf _
  unfold Path.components
  split
  · simp_all
  · split <;> simp_all

/-- All spellings of a path lead to one place. -/
theorem resolveFrom_congr {p q : Path} (same : p.same q = true) (current : Path) :
    p.resolveFrom current = q.resolveFrom current := by
  have steps := same_iff.mp same
  have rooted : p.rooted = q.rooted := by rw [rooted_eq, rooted_eq, steps]
  unfold resolveFrom
  cases absolute : p.rooted with
  | true =>
    rw [absolute] at rooted
    unfold normalize
    simp [← rooted, absolute, steps]
  | false =>
    rw [absolute] at rooted
    have joined : (current.join p).rooted = (current.join q).rooted := by
      unfold join
      rw [absolute, ← rooted]
      simp only [Bool.false_eq_true, ↓reduceIte]
      repeat' split
      all_goals rfl
    unfold normalize
    simp only [← rooted, Bool.false_eq_true, ↓reduceIte]
    rw [joined, foldl_join current (by simp [absolute]), foldl_join current (by simp [← rooted]),
      steps]

/-- All spellings of a path have one extension. -/
theorem extension?_congr {p q : Path} (same : p.same q = true) : p.extension? = q.extension? := by
  unfold extension? fileName?
  rw [same_iff.mp same]

/-- A text that is written behind a path changes it. -/
theorem append_ne (p : Path) {suffix : String} (some : suffix ≠ "") : p.append suffix ≠ p := by
  intro same
  have segments := congrArg Path.segments same
  unfold append at segments
  split at segments
  · next none =>
    rw [List.getLast?_eq_none_iff.mp none] at segments
    cases segments
  · next last spelled =>
    obtain ⟨front, here⟩ := List.getLast?_eq_some_iff.mp spelled
    rw [here, List.dropLast_concat, List.append_cancel_left_eq, List.singleton_inj] at segments
    have lengths := congrArg String.length segments
    rw [String.length_append] at lengths
    have empty : suffix.length = 0 := by omega
    exact some (String.length_eq_zero_iff.mp empty)

end Recast.Path

namespace Recast.PathMap

open Path

variable {α : Type}

/-- All spellings of a path have one value. -/
theorem get?_congr (map : PathMap α) {p q : Path} (alike : p.same q = true) :
    map.get? p = map.get? q := by
  obtain ⟨entries⟩ := map
  change lookup p entries = lookup q entries
  induction entries with
  | nil => rfl
  | cons entry entries ih =>
    obtain ⟨key, value⟩ := entry
    have heads : p.same key = q.same key :=
      Bool.eq_iff_iff.mpr ⟨same_trans (same_symm alike), same_trans alike⟩
    rw [lookup, lookup, heads, ih]

private theorem lookup_place (p q : Path) (value : α) (entries : List (Path × α)) :
    lookup p (place q value entries) = if p.same q then some value else lookup p entries := by
  induction entries with
  | nil => simp [place, lookup]
  | cons entry rest ih =>
    obtain ⟨key, old⟩ := entry
    simp only [place]
    cases order : q.compare key with
    | lt => simp [lookup]
    | eq =>
      have same := same_congr_right (compare_eq_iff.mp order) p
      cases found : p.same key <;> simp [lookup, found, same]
    | gt =>
      have apart : q.same key = false := by
        rw [Bool.eq_false_iff, ne_eq, ← compare_eq_iff, order]
        simp
      simp only [lookup, ih]
      cases found : p.same key with
      | false => simp
      | true =>
        have other : p.same q = false := by
          rw [Bool.eq_false_iff]
          exact fun same => Bool.eq_false_iff.mp apart (same_trans (same_symm same) found)
        simp [other]

/-- Setting a path changes what is found there, under every spelling of it, and nothing else. -/
theorem get?_insert (map : PathMap α) (p q : Path) (value : α) :
    (map.insert q value).get? p = if p.same q then some value else map.get? p :=
  lookup_place p q value map.entries

private theorem lookup_filter (p q : Path) (entries : List (Path × α)) :
    lookup p (entries.filter fun entry => !q.same entry.1) =
      if p.same q then none else lookup p entries := by
  induction entries with
  | nil => simp [lookup]
  | cons entry rest ih =>
    obtain ⟨key, value⟩ := entry
    cases gone : q.same key with
    | true =>
      have same := same_congr_right gone p
      simp only [List.filter_cons, gone, Bool.not_true, Bool.false_eq_true, ↓reduceIte, ih,
        lookup, ← same]
      cases p.same q <;> simp
    | false =>
      simp only [List.filter_cons, gone, Bool.not_false, ↓reduceIte, lookup, ih]
      cases found : p.same key with
      | false => simp
      | true =>
        have other : p.same q = false := by
          rw [Bool.eq_false_iff]
          exact fun same => Bool.eq_false_iff.mp gone (same_trans (same_symm same) found)
        simp [other]

/-- Forgetting a path forgets every spelling of it, and nothing else. -/
theorem get?_erase (map : PathMap α) (p q : Path) :
    (map.erase q).get? p = if p.same q then none else map.get? p :=
  lookup_filter p q map.entries

/-- What is found for a path stands behind a spelling of it. -/
theorem exists_key_of_get? {map : PathMap α} {p : Path} (found : (map.get? p).isSome) :
    ∃ key ∈ map.keys, p.same key = true := by
  obtain ⟨entries⟩ := map
  change (lookup p entries).isSome at found
  change ∃ key ∈ entries.map (·.1), p.same key = true
  induction entries with
  | nil => cases found
  | cons entry rest ih =>
    obtain ⟨key, value⟩ := entry
    cases same : p.same key with
    | true => exact ⟨key, List.mem_cons_self .., same⟩
    | false =>
      rw [lookup, same, if_neg Bool.false_ne_true] at found
      obtain ⟨other, member, here⟩ := ih found
      exact ⟨other, List.mem_cons_of_mem _ member, here⟩

end Recast.PathMap
