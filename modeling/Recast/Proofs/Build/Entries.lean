import Recast.Build.Cache
import Recast.Proofs.Path.Sameness

/-! # Entries of the cache

What each operation on the cache does to the entry of a key. Every operation is about one key, so
the lemmas that look an entry up decide between that key, under any spelling of its path, and all
others.
-/

namespace Recast.Build

namespace CacheKey

theorem same_iff {a b : CacheKey} :
    a.same b = true ↔ a.path.same b.path = true ∧ a.target = b.target := by
  simp [same]

@[simp] theorem same_self (a : CacheKey) : a.same a = true := by
  simp [same]

theorem same_symm {a b : CacheKey} (alike : a.same b = true) : b.same a = true := by
  obtain ⟨paths, targets⟩ := same_iff.mp alike
  exact same_iff.mpr ⟨Path.same_symm paths, targets.symm⟩

theorem same_trans {a b c : CacheKey} (first : a.same b = true) (second : b.same c = true) :
    a.same c = true := by
  obtain ⟨paths, targets⟩ := same_iff.mp first
  obtain ⟨paths', targets'⟩ := same_iff.mp second
  exact same_iff.mpr ⟨Path.same_trans paths paths', targets.trans targets'⟩

theorem same_congr_right {b c : CacheKey} (alike : b.same c = true) (a : CacheKey) :
    a.same b = a.same c :=
  Bool.eq_iff_iff.mpr ⟨fun first => same_trans first alike, fun first =>
    same_trans first (same_symm alike)⟩

theorem same_eq_false_of_target_ne {a b : CacheKey} (apart : a.target ≠ b.target) :
    a.same b = false := by
  rw [Bool.eq_false_iff]
  exact fun alike => apart (same_iff.mp alike).2

end CacheKey

namespace Cache

private theorem lookup_assign (key other : CacheKey) (entry : CacheEntry)
    (entries : List (CacheKey × CacheEntry)) :
    lookup key (assign other entry entries) =
      if key.same other then some entry else lookup key entries := by
  induction entries with
  | nil => simp [assign, lookup]
  | cons pair rest ih =>
    obtain ⟨first, old⟩ := pair
    simp only [assign]
    cases replaced : other.same first with
    | true =>
      have alike := CacheKey.same_congr_right replaced key
      cases found : key.same first <;> simp [lookup, found, alike]
    | false =>
      simp only [Bool.false_eq_true, ↓reduceIte, lookup, ih]
      cases found : key.same first with
      | false => simp
      | true =>
        have apart : key.same other = false := by
          rw [Bool.eq_false_iff]
          exact fun alike => Bool.eq_false_iff.mp replaced
            (CacheKey.same_trans (CacheKey.same_symm alike) found)
        simp [apart]

private theorem lookup_filter_key (key gone : CacheKey) (entries : List (CacheKey × CacheEntry)) :
    lookup key (entries.filter fun pair => !gone.same pair.1) =
      if key.same gone then none else lookup key entries := by
  induction entries with
  | nil => simp [lookup]
  | cons pair rest ih =>
    obtain ⟨first, entry⟩ := pair
    cases dropped : gone.same first with
    | true =>
      have alike := CacheKey.same_congr_right dropped key
      simp only [List.filter_cons, dropped, Bool.not_true, Bool.false_eq_true, ↓reduceIte, ih,
        lookup, ← alike]
      cases key.same gone <;> simp
    | false =>
      simp only [List.filter_cons, dropped, Bool.not_false, ↓reduceIte, lookup, ih]
      cases found : key.same first with
      | false => simp
      | true =>
        have apart : key.same gone = false := by
          rw [Bool.eq_false_iff]
          exact fun alike => Bool.eq_false_iff.mp dropped
            (CacheKey.same_trans (CacheKey.same_symm alike) found)
        simp [apart]

private theorem lookup_congr {a b : CacheKey} (alike : a.same b = true)
    (entries : List (CacheKey × CacheEntry)) :
    lookup a entries = lookup b entries := by
  induction entries with
  | nil => rfl
  | cons pair rest ih =>
    have first : a.same pair.1 = b.same pair.1 :=
      Bool.eq_iff_iff.mpr ⟨CacheKey.same_trans (CacheKey.same_symm alike),
        CacheKey.same_trans alike⟩
    simp [lookup, ih, first]

/-- The entry of a key. -/
def find? (cache : Cache) (key : CacheKey) : Option CacheEntry :=
  cache.get? key.path key.target

theorem get?_eq_find? (cache : Cache) (path : Path) (target : String) :
    cache.get? path target = cache.find? ⟨path, target⟩ := rfl

/-- All spellings of a key have one entry. -/
theorem find?_congr (cache : Cache) {a b : CacheKey} (alike : a.same b = true) :
    cache.find? a = cache.find? b :=
  lookup_congr alike cache.entries

@[simp] theorem find?_empty (key : CacheKey) : ({} : Cache).find? key = none := rfl

theorem find?_set (cache : Cache) (path : Path) (target : String) (entry : CacheEntry)
    (key : CacheKey) :
    (cache.set path target entry).find? key =
      if key.same ⟨path, target⟩ then some entry else cache.find? key :=
  lookup_assign key ⟨path, target⟩ entry cache.entries

theorem find?_remove (cache : Cache) (path : Path) (target : String) (key : CacheKey) :
    (cache.remove path target).find? key =
      if key.same ⟨path, target⟩ then none else cache.find? key :=
  lookup_filter_key key ⟨path, target⟩ cache.entries

/-- A change of an entry reaches the entry of that key only, and makes none. -/
theorem find?_modify (cache : Cache) (path : Path) (target : String) (f : CacheEntry → CacheEntry)
    (key : CacheKey) :
    (cache.modify path target f).find? key =
      if key.same ⟨path, target⟩ then (cache.find? key).map f else cache.find? key := by
  unfold modify
  cases alike : key.same ⟨path, target⟩ with
  | true =>
    have entry := cache.find?_congr alike
    cases known : cache.get? path target with
    | none =>
      rw [get?_eq_find?] at known
      simp [entry, known]
    | some old =>
      rw [get?_eq_find?] at known
      simp [find?_set, alike, entry, known]
  | false =>
    cases cache.get? path target <;> simp [find?_set, alike]

theorem find?_update (cache : Cache) (path : Path) (target source processed : String)
    (key : CacheKey) :
    (cache.update path target source processed).find? key =
      if key.same ⟨path, target⟩ then some (((cache.find? key).getD {}).update source processed)
      else cache.find? key := by
  rw [update, find?_set]
  cases alike : key.same ⟨path, target⟩ with
  | true => simp [get, get?_eq_find?, cache.find?_congr alike]
  | false => rfl

theorem hasChanged_eq_false_iff {cache : Cache} {system : Files.System} {path : Path}
    {target : String} :
    cache.hasChanged system path target = false ↔
      ∃ entry, cache.find? ⟨path, target⟩ = some entry ∧ entry.isSettled = true ∧
        system.read path = .ok entry.source := by
  unfold hasChanged
  rw [get?_eq_find?]
  cases cache.find? ⟨path, target⟩ with
  | none => simp
  | some entry =>
    cases settled : entry.isSettled with
    | false => simp [settled]
    | true => cases system.read path <;> simp [settled]

end Cache

namespace CacheEntry

/-- What an entry records after an update does not depend on whether it was recorded before. -/
theorem update_source (entry : CacheEntry) (source processed : String) :
    (entry.update source processed).source = source := by
  unfold update records
  split
  · next known => simp only [Bool.and_eq_true, beq_iff_eq] at known; exact known.1
  · rfl

theorem update_snapshot (entry : CacheEntry) (source processed : String) :
    (entry.update source processed).snapshot = some processed := by
  unfold update records
  split
  · next known => simp only [Bool.and_eq_true, beq_iff_eq] at known; exact known.2
  · rfl

@[simp] theorem update_failed (entry : CacheEntry) (source processed : String) :
    (entry.update source processed).failed = entry.failed := by
  unfold update
  split <;> rfl

@[simp] theorem update_outputs (entry : CacheEntry) (source processed : String) :
    (entry.update source processed).outputs = entry.outputs := by
  unfold update
  split <;> rfl

theorem isSettled_update (entry : CacheEntry) (source processed : String) :
    (entry.update source processed).isSettled = !entry.failed := by
  simp [isSettled, update_snapshot]

end CacheEntry

/-- A text that was recorded is known. -/
theorem Cache.snapshot_get_update (cache : Cache) (path : Path) (target source processed : String) :
    ((cache.update path target source processed).get path target).snapshot = some processed := by
  rw [get, get?_eq_find?, find?_update, CacheKey.same_self]
  exact CacheEntry.update_snapshot ..

end Recast.Build
