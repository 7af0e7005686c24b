import Mathlib.Data.List.Induction
import Recast.Build.Settling
import Recast.Proofs.Path.Sameness

/-! # The order of paths

Paths are ordered by their components, strictly and up to spelling. A set of paths holds its keys in
ascending order; so a path that is left out leaves the others where they are, and the keys below a
path are those that come before it.
-/

namespace Recast

namespace Component

private theorem compare_normal_eq_lt_iff {a b : String} :
    (normal a).compare (normal b) = .lt ↔ a < b := by
  rw [Component.compare]
  split
  · next below => exact iff_of_true rfl below
  · next notBelow => split <;> exact iff_of_false (by simp) notBelow

private theorem compare_normal_eq_gt_iff {a b : String} :
    (normal a).compare (normal b) = .gt ↔ b < a := by
  rw [Component.compare]
  split
  · next below => exact iff_of_false (by simp) (String.lt_asymm below)
  · next notBelow =>
    split
    · next same => exact iff_of_false (by simp) (same ▸ String.lt_irrefl a)
    · next apart =>
      refine iff_of_true rfl (Decidable.byContradiction fun notAbove => apart ?_)
      exact String.le_antisymm (String.not_lt.mp notAbove) (String.not_lt.mp notBelow)

private theorem compare_eq_gt_iff {a b : Component} : a.compare b = .gt ↔ b.compare a = .lt := by
  cases a <;> cases b
  case normal.normal => rw [compare_normal_eq_gt_iff, compare_normal_eq_lt_iff]
  all_goals simp [Component.compare, rank, Nat.compare_eq_lt, Nat.compare_eq_gt]

private theorem compare_trans {a b c : Component} (first : a.compare b = .lt)
    (second : b.compare c = .lt) : a.compare c = .lt := by
  cases a <;> cases b <;> cases c
  case normal.normal.normal =>
    rw [compare_normal_eq_lt_iff] at first second ⊢
    exact String.lt_trans first second
  all_goals simp_all [Component.compare, rank, Nat.compare_eq_lt]

end Component

namespace Path

private theorem compareComponents_cons_eq_lt_iff {a b : Component} {as bs : List Component} :
    compareComponents (a :: as) (b :: bs) = .lt ↔
      a.compare b = .lt ∨ a = b ∧ compareComponents as bs = .lt := by
  rw [compareComponents, Ordering.then_eq_lt, compare_component_eq_iff]

private theorem compareComponents_eq_gt_iff {as bs : List Component} :
    compareComponents as bs = .gt ↔ compareComponents bs as = .lt := by
  induction as generalizing bs with
  | nil => cases bs <;> simp [compareComponents]
  | cons a as ih =>
    cases bs with
    | nil => simp [compareComponents]
    | cons b bs =>
      rw [compareComponents_cons_eq_lt_iff, compareComponents, Ordering.then_eq_gt, ih,
        Component.compare_eq_gt_iff, compare_component_eq_iff, @eq_comm _ a b]

private theorem compareComponents_trans {as bs cs : List Component}
    (first : compareComponents as bs = .lt) (second : compareComponents bs cs = .lt) :
    compareComponents as cs = .lt := by
  induction as generalizing bs cs with
  | nil =>
    cases cs with
    | nil => cases bs <;> cases second
    | cons c cs => rfl
  | cons a as ih =>
    cases bs with
    | nil => cases first
    | cons b bs =>
      cases cs with
      | nil => cases second
      | cons c cs =>
        rw [compareComponents_cons_eq_lt_iff] at first second ⊢
        rcases first with below | ⟨rfl, first⟩
        · rcases second with below' | ⟨rfl, _⟩
          · exact .inl (Component.compare_trans below below')
          · exact .inl below
        · rcases second with below' | ⟨rfl, second⟩
          · exact .inl below'
          · exact .inr ⟨rfl, ih first second⟩

/-- `p` comes before `q`. -/
def Before (p q : Path) : Prop :=
  p.compare q = .lt

instance (p q : Path) : Decidable (p.Before q) :=
  inferInstanceAs (Decidable (_ = _))

theorem compare_eq_gt_iff {p q : Path} : p.compare q = .gt ↔ q.Before p :=
  compareComponents_eq_gt_iff

theorem Before.trans {p q r : Path} (first : p.Before q) (second : q.Before r) : p.Before r :=
  compareComponents_trans first second

theorem Before.not_same {p q : Path} (before : p.Before q) : p.same q = false := by
  rw [← Bool.not_eq_true, ← compare_eq_iff, before]
  exact Ordering.noConfusion

theorem Before.asymm {p q : Path} (before : p.Before q) : ¬ q.Before p := by
  intro behind
  have none := (before.trans behind).not_same
  rw [same_self] at none
  cases none

theorem not_before_of_same {p q : Path} (same : p.same q = true) : ¬ p.Before q := by
  intro before
  rw [before.not_same] at same
  cases same

/-- Every spelling of a path has its place in the order. -/
theorem before_congr_left {p q : Path} (same : p.same q = true) (r : Path) :
    p.Before r ↔ q.Before r := by
  rw [Before, Before, compare, compare, same_iff.mp same]

theorem before_congr_right {p q : Path} (same : p.same q = true) (r : Path) :
    r.Before p ↔ r.Before q := by
  rw [Before, Before, compare, compare, same_iff.mp same]

/-- Each path comes before those behind it. -/
abbrev Ascending (paths : List Path) : Prop :=
  paths.Pairwise Before

theorem Ascending.filter {paths : List Path} (ascending : Ascending paths) (keep : Path → Bool) :
    Ascending (paths.filter keep) :=
  List.Pairwise.sublist List.filter_sublist ascending

/-- A path of an ascending list stands between those before it in the order and those after it. -/
theorem Ascending.split {paths : List Path} (ascending : Ascending paths) {key path : Path}
    (member : key ∈ paths) (same : key.same path = true) :
    ∃ behind, paths = paths.filter (·.Before path) ++ key :: behind ∧
      paths.filter (fun other => !path.same other) = paths.filter (·.Before path) ++ behind := by
  obtain ⟨before, behind, rfl⟩ := List.append_of_mem member
  obtain ⟨_, rest, below⟩ := List.pairwise_append.mp ascending
  have above := (List.pairwise_cons.mp rest).1
  have under (other : Path) (known : other ∈ before) : other.Before path :=
    (before_congr_right same other).mp (below other known key (List.mem_cons_self ..))
  have beyond (other : Path) (known : other ∈ behind) : path.Before other :=
    (before_congr_left same other).mp (above other known)
  have kept : (before ++ key :: behind).filter (·.Before path) = before := by
    rw [List.filter_append, List.filter_cons_of_neg (by simpa using not_before_of_same same),
      List.filter_eq_self.mpr fun other known => decide_eq_true (under other known),
      List.filter_eq_nil_iff.mpr fun other known => by simpa using (beyond other known).asymm,
      List.append_nil]
  refine ⟨behind, by rw [kept], ?_⟩
  rw [kept, List.filter_append, List.filter_cons_of_neg (by simp [same_symm same]),
    List.filter_eq_self.mpr fun other known => ?_, List.filter_eq_self.mpr fun other known => ?_]
  · simp [(beyond other known).not_same]
  · have apart := (under other known).not_same
    simp only [Bool.not_eq_true', ← Bool.not_eq_true] at apart ⊢
    exact fun alike => apart (same_symm alike)

end Path

namespace PathMap

open Path

variable {α : Type} {p : Path} {value : α} {entries : List (Path × α)}

/-- A path before all others is put in front of them. -/
private theorem place_of_before (below : ∀ entry ∈ entries, p.Before entry.1) :
    place p value entries = (p, value) :: entries := by
  cases entries with
  | nil => rfl
  | cons entry rest =>
    have first : p.compare entry.1 = .lt := below entry (List.mem_cons_self ..)
    simp only [place, first]

private theorem mem_place {entry : Path × α} (member : entry ∈ place p value entries) :
    entry.1 = p ∨ ∃ known ∈ entries, entry.1 = known.1 := by
  fun_induction place p value entries with
  | case1 => exact .inl (by rw [List.mem_singleton.mp member])
  | case2 q old rest below =>
    rcases List.mem_cons.mp member with rfl | known
    · exact .inl rfl
    · exact .inr ⟨entry, known, rfl⟩
  | case3 q old rest equal =>
    rcases List.mem_cons.mp member with rfl | known
    · exact .inr ⟨(q, old), List.mem_cons_self .., rfl⟩
    · exact .inr ⟨entry, List.mem_cons_of_mem _ known, rfl⟩
  | case4 q old rest above ih =>
    rcases List.mem_cons.mp member with rfl | later
    · exact .inr ⟨(q, old), List.mem_cons_self .., rfl⟩
    · exact (ih later).imp id fun ⟨known, found, same⟩ =>
        ⟨known, List.mem_cons_of_mem _ found, same⟩

/-- Entries stay in ascending order. -/
theorem pairwise_place (ascending : entries.Pairwise fun a b => a.1.Before b.1) :
    (place p value entries).Pairwise fun a b => a.1.Before b.1 := by
  fun_induction place p value entries with
  | case1 => exact List.pairwise_singleton _ _
  | case2 q old rest below =>
    have before : p.Before q := below
    have above := (List.pairwise_cons.mp ascending).1
    refine List.pairwise_cons.mpr ⟨fun entry member => ?_, ascending⟩
    rcases List.mem_cons.mp member with rfl | known
    · exact before
    · exact before.trans (above entry known)
  | case3 q old rest equal =>
    exact List.pairwise_cons.mpr (List.pairwise_cons.mp ascending)
  | case4 q old rest above ih =>
    obtain ⟨first, rest⟩ := List.pairwise_cons.mp ascending
    refine List.pairwise_cons.mpr ⟨fun entry member => ?_, ih rest⟩
    rcases mem_place member with same | ⟨known, found, same⟩
    · exact same ▸ compare_eq_gt_iff.mp above
    · exact same ▸ first known found

theorem ascending_insert {map : PathMap α} (ascending : Ascending map.keys) (p : Path) (value : α) :
    Ascending (map.insert p value).keys :=
  List.pairwise_map.mpr (pairwise_place (List.pairwise_map.mp ascending))

theorem ascending_erase {map : PathMap α} (ascending : Ascending map.keys) (p : Path) :
    Ascending (map.erase p).keys := by
  have filtered := ascending.filter fun other => !p.same other
  rw [keys, List.filter_map] at filtered
  exact filtered

private theorem mem_keys_place (p : Path) (value : α) (key : Path) (entries : List (Path × α)) :
    (key ∈ entries.map (·.1) → key ∈ (place p value entries).map (·.1)) ∧
      (key ∈ (place p value entries).map (·.1) → key = p ∨ key ∈ entries.map (·.1)) := by
  induction entries with
  | nil => simp [place]
  | cons entry rest ih =>
    rw [place]
    cases p.compare entry.1 with
    | lt => exact ⟨List.mem_cons_of_mem p, List.mem_cons.mp⟩
    | eq => exact ⟨id, .inr⟩
    | gt =>
      simp only [List.map_cons, List.mem_cons]
      refine ⟨Or.imp_right ih.1, ?_⟩
      rintro (first | later)
      · exact .inr (.inl first)
      · exact (ih.2 later).imp_right .inr

/-- Setting a path drops no key, and adds none but the path. -/
theorem mem_keys_insert (map : PathMap α) (p : Path) (value : α) (key : Path) :
    (key ∈ map.keys → key ∈ (map.insert p value).keys) ∧
      (key ∈ (map.insert p value).keys → key = p ∨ key ∈ map.keys) :=
  mem_keys_place p value key map.entries

/-- Where a path has no other spelling, an insertion adds just this path. -/
theorem mem_keys_insert_iff {map : PathMap α} {q : Path}
    (only : ∀ key ∈ map.keys, p.same key = true → key = p) :
    q ∈ (map.insert p value).keys ↔ q ∈ map.keys ∨ q = p := by
  refine ⟨fun member => ((map.mem_keys_insert p value q).2 member).symm, ?_⟩
  rintro (known | rfl)
  · exact (map.mem_keys_insert p value q).1 known
  · have found : ((map.insert q value).get? q).isSome := by
      rw [get?_insert, if_pos (same_self q)]
      rfl
    obtain ⟨key, member, same⟩ := exists_key_of_get? found
    rcases (map.mem_keys_insert q value key).2 member with rfl | known
    · exact member
    · exact only key known same ▸ member

theorem mem_keys_erase {map : PathMap α} {q : Path} :
    q ∈ (map.erase p).keys ↔ q ∈ map.keys ∧ p.same q = false := by
  simp only [keys, erase, List.mem_map, List.mem_filter, Bool.not_eq_true']
  constructor
  · rintro ⟨entry, ⟨known, apart⟩, rfl⟩
    exact ⟨⟨entry, known, rfl⟩, apart⟩
  · rintro ⟨⟨entry, known, rfl⟩, apart⟩
    exact ⟨entry, ⟨known, apart⟩, rfl⟩

/-- A map in path order gives what any entry of the same path has. -/
theorem get?_eq_some_iff {map : PathMap α} (ascending : Ascending map.keys) :
    map.get? p = some value ↔ ∃ key, (key, value) ∈ map.entries ∧ p.same key = true := by
  obtain ⟨entries⟩ := map
  unfold get? keys at *
  dsimp only at *
  induction entries with
  | nil => simp [lookup]
  | cons entry entries ih =>
    obtain ⟨key, first⟩ := entry
    obtain ⟨above, ascending⟩ := List.pairwise_cons.mp ascending
    rw [lookup]
    split
    · next same =>
      constructor
      · rintro ⟨⟩
        exact ⟨key, List.mem_cons_self .., same⟩
      · rintro ⟨other, member, same'⟩
        rcases List.mem_cons.mp member with ⟨⟨⟩, rfl⟩ | later
        · rfl
        · have apart : key.same other = false := (above _ (List.mem_map_of_mem later)).not_same
          rw [same_trans (same_symm same) same'] at apart
          cases apart
    · next apart =>
      rw [ih ascending]
      constructor
      · rintro ⟨other, later, same⟩
        exact ⟨other, List.mem_cons_of_mem _ later, same⟩
      · rintro ⟨other, member, same⟩
        rcases List.mem_cons.mp member with ⟨⟨⟩, rfl⟩ | later
        · exact absurd same apart
        · exact ⟨other, later, same⟩

/-- Leaving out paths, under every spelling, before or after one is put into its place. -/
private theorem filter_place {keep : Path → Bool}
    (respects : ∀ a b, a.same b = true → keep a = keep b)
    (ascending : entries.Pairwise fun a b => a.1.Before b.1) :
    (place p value entries).filter (fun entry => keep entry.1) =
      if keep p then place p value (entries.filter fun entry => keep entry.1)
      else entries.filter fun entry => keep entry.1 := by
  fun_induction place p value entries with
  | case1 => cases kept : keep p <;> simp [kept, place]
  | case2 q old rest below =>
    have before : p.Before q := below
    have above := (List.pairwise_cons.mp ascending).1
    rw [List.filter_cons, place_of_before]
    intro entry member
    rcases List.mem_cons.mp (List.mem_filter.mp member).1 with rfl | known
    · exact before
    · exact before.trans (above entry known)
  | case3 q old rest equal =>
    have alike := respects p q (compare_eq_iff.mp equal)
    cases kept : keep q <;> simp [alike, kept, place, equal]
  | case4 q old rest above ih =>
    have rest := ih (List.pairwise_cons.mp ascending).2
    rw [List.filter_cons, List.filter_cons, rest]
    cases keep q <;> cases keep p <;> simp [place, above]

end PathMap

namespace Path

/-- The set of some paths. -/
def collected (paths : List Path) : PathSet :=
  paths.foldl PathSet.insertPath .empty

theorem collected_concat (paths : List Path) (path : Path) :
    collected (paths ++ [path]) = (collected paths).insertPath path := by
  rw [collected, List.foldl_append]
  rfl

private theorem pairwise_collected (paths : List Path) :
    (collected paths).entries.Pairwise fun a b => a.1.Before b.1 := by
  induction paths using List.reverseRecOn with
  | nil => exact List.Pairwise.nil
  | append_singleton paths path ih =>
    rw [collected_concat]
    exact PathMap.pairwise_place ih

theorem ascending_collected (paths : List Path) : Ascending (collected paths).keys :=
  List.pairwise_map.mpr (pairwise_collected paths)

/-- A set has every path that was put into it, under the spelling that came first. -/
theorem exists_key_of_mem {paths : List Path} {path : Path} (member : path ∈ paths) :
    ∃ key ∈ (collected paths).keys, key.same path = true := by
  have found : ((collected paths).get? path).isSome := by
    induction paths using List.reverseRecOn with
    | nil => cases member
    | append_singleton paths last ih =>
      rw [collected_concat, PathSet.insertPath, PathMap.get?_insert]
      split
      · rfl
      · next apart =>
        rcases List.mem_append.mp member with known | only
        · exact ih known
        · rw [List.mem_singleton.mp only, same_self] at apart
          exact absurd rfl apart
  obtain ⟨key, known, same⟩ := PathMap.exists_key_of_get? found
  exact ⟨key, known, same_symm same⟩

/-- A set has only paths that were put into it. -/
theorem mem_of_mem_keys_collected {paths : List Path} {key : Path}
    (member : key ∈ (collected paths).keys) : key ∈ paths := by
  obtain ⟨entry, known, rfl⟩ := List.mem_map.mp member
  clear member
  induction paths using List.reverseRecOn generalizing entry with
  | nil => cases known
  | append_singleton paths last ih =>
    rw [collected_concat] at known
    rcases PathMap.mem_place known with same | ⟨other, found, same⟩
    · exact same ▸ List.mem_append_right _ (List.mem_singleton.mpr rfl)
    · exact same ▸ List.mem_append_left _ (ih other found)

/-- The same paths, in any order, any number of times and under any spelling. -/
def SameSet (paths others : List Path) : Prop :=
  (∀ path ∈ paths, ∃ other ∈ others, path.same other = true) ∧
    ∀ other ∈ others, ∃ path ∈ paths, path.same other = true

instance (paths others : List Path) : Decidable (SameSet paths others) :=
  inferInstanceAs (Decidable (_ ∧ _))

theorem SameSet.symm {paths others : List Path} (alike : SameSet paths others) :
    SameSet others paths :=
  ⟨fun other member => (alike.2 other member).imp fun _ found => ⟨found.1, same_symm found.2⟩,
    fun path member => (alike.1 path member).imp fun _ found => ⟨found.1, same_symm found.2⟩⟩

theorem SameSet.trans {paths others more : List Path} (first : SameSet paths others)
    (second : SameSet others more) : SameSet paths more := by
  constructor
  · intro path member
    obtain ⟨other, found, same⟩ := first.1 path member
    obtain ⟨last, found', same'⟩ := second.1 other found
    exact ⟨last, found', same_trans same same'⟩
  · intro last member
    obtain ⟨other, found, same⟩ := second.2 last member
    obtain ⟨path, found', same'⟩ := first.2 other found
    exact ⟨path, found', same_trans same' same⟩

theorem sameSet_collected (paths : List Path) : SameSet paths (collected paths).keys :=
  ⟨fun _ member => (exists_key_of_mem member).imp fun _ found => ⟨found.1, same_symm found.2⟩,
    fun key member => ⟨key, mem_of_mem_keys_collected member, same_self key⟩⟩

/-- A path behind the first one is not the first one. -/
private theorem exists_same_of_before {first first' path : Path} {others : List Path}
    (same : first.same first' = true) (before : first.Before path)
    (found : ∃ other ∈ first' :: others, path.same other = true) :
    ∃ other ∈ others, path.same other = true := by
  obtain ⟨other, member, same'⟩ := found
  rcases List.mem_cons.mp member with rfl | later
  · have apart := before.not_same
    rw [same_trans same (same_symm same')] at apart
    cases apart
  · exact ⟨other, later, same'⟩

/-- Ascending lists of the same paths differ only in the spelling of each path. -/
theorem Ascending.forall₂_same {paths others : List Path} (ascending : Ascending paths)
    (ascending' : Ascending others) (alike : SameSet paths others) :
    List.Forall₂ (fun path other => path.same other = true) paths others := by
  induction paths generalizing others with
  | nil =>
    cases others with
    | nil => exact .nil
    | cons other others =>
      obtain ⟨_, member, _⟩ := alike.2 other (List.mem_cons_self ..)
      cases member
  | cons path paths ih =>
    cases others with
    | nil =>
      obtain ⟨_, member, _⟩ := alike.1 path (List.mem_cons_self ..)
      cases member
    | cons other others =>
      obtain ⟨below, ascending⟩ := List.pairwise_cons.mp ascending
      obtain ⟨below', ascending'⟩ := List.pairwise_cons.mp ascending'
      -- The least paths of both lists are the same: neither comes before the other.
      have same : path.same other = true := by
        obtain ⟨twin, member, same⟩ := alike.1 path (List.mem_cons_self ..)
        obtain ⟨twin', member', same'⟩ := alike.2 other (List.mem_cons_self ..)
        rcases List.mem_cons.mp member with rfl | later
        · exact same
        · rcases List.mem_cons.mp member' with rfl | later'
          · exact same'
          · have before := (before_congr_right same other).mpr (below' twin later)
            have behind := (before_congr_right same' path).mp (below twin' later')
            exact absurd behind before.asymm
      refine .cons same (ih ascending ascending' ⟨fun one member => ?_, fun one member => ?_⟩)
      · exact exists_same_of_before same (below one member)
          (alike.1 one (List.mem_cons_of_mem _ member))
      · obtain ⟨twin, found, same'⟩ := exists_same_of_before (same_symm same) (below' one member)
          (alike.symm.1 one (List.mem_cons_of_mem _ member))
        exact ⟨twin, found, same_symm same'⟩

/-- Paths that are never put into a set are missing there, and nothing else is. -/
theorem keys_collected_filter {keep : Path → Bool}
    (respects : ∀ a b, a.same b = true → keep a = keep b) (paths : List Path) :
    (collected (paths.filter keep)).keys = (collected paths).keys.filter keep := by
  have entries : (collected (paths.filter keep)).entries =
      (collected paths).entries.filter fun entry => keep entry.1 := by
    induction paths using List.reverseRecOn with
    | nil => rfl
    | append_singleton paths last ih =>
      have placed : (PathMap.place last () (collected paths).entries).filter _ = _ :=
        PathMap.filter_place respects (pairwise_collected paths)
      rw [collected_concat, List.filter_append]
      cases kept : keep last with
      | true =>
        rw [kept, if_pos rfl, ← ih] at placed
        rw [List.filter_cons_of_pos kept, List.filter_nil, collected_concat]
        exact placed.symm
      | false =>
        rw [kept, if_neg Bool.false_ne_true, ← ih] at placed
        rw [List.filter_cons_of_neg (by simp [kept]), List.filter_nil, List.append_nil]
        exact placed.symm
  rw [PathMap.keys, PathMap.keys, entries, List.filter_map]
  rfl

end Path

end Recast
