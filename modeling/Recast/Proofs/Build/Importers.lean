import Recast.Build.ImportGraph
import Recast.Proofs.Path.Order

/-! # What an import graph knows

An import graph is read by asset and written by importer: what an importer imported is taken out of
the set of every asset before what it imports now is put in. So an importer of a file is one that
is being recorded with it, or one that was known before and is another (`mem_importers_record`).
-/

namespace Recast

open Path

namespace PathMap

variable {α : Type} {p : Path} {value : α}

/-- An entry behind an insertion has the new value, or was there. -/
theorem value_of_mem_place {entries : List (Path × α)} {entry : Path × α}
    (member : entry ∈ place p value entries) : entry.2 = value ∨ entry ∈ entries := by
  fun_induction place p value entries with
  | case1 => exact .inl (by rw [List.mem_singleton.mp member])
  | case2 q old rest below =>
    rcases List.mem_cons.mp member with rfl | known
    · exact .inl rfl
    · exact .inr known
  | case3 q old rest equal =>
    rcases List.mem_cons.mp member with rfl | known
    · exact .inl rfl
    · exact .inr (List.mem_cons_of_mem _ known)
  | case4 q old rest above ih =>
    rcases List.mem_cons.mp member with rfl | later
    · exact .inr (List.mem_cons_self ..)
    · exact (ih later).imp_right (List.mem_cons_of_mem _)

end PathMap

namespace Build.ImportGraph

variable {graph : ImportGraph} {importer other asset target : Path}

/-- The assets of a graph are in order, and the importers of each. -/
structure Ordered (graph : ImportGraph) : Prop where
  assets : Ascending (PathMap.keys graph)
  sets : ∀ entry ∈ graph.entries, Ascending entry.2.keys

theorem ordered_empty : Ordered .empty :=
  ⟨.nil, fun _ member => nomatch member⟩

theorem Ordered.ascending_importers (ordered : Ordered graph) (asset : Path) :
    Ascending (importers graph asset) := by
  unfold importers
  cases found : graph.get? asset with
  | none => exact .nil
  | some set =>
    obtain ⟨key, member, _⟩ := (PathMap.get?_eq_some_iff ordered.assets).mp found
    exact ordered.sets _ member

/-- The importers of a file are those of any entry of this file. -/
theorem Ordered.mem_importers_iff (ordered : Ordered graph) :
    other ∈ importers graph asset ↔
      ∃ key set, (key, set) ∈ graph.entries ∧ asset.same key = true ∧ other ∈ PathMap.keys set := by
  unfold importers
  constructor
  · intro known
    cases found : graph.get? asset with
    | none =>
      rw [found] at known
      cases known
    | some set =>
      rw [found] at known
      obtain ⟨key, member, same⟩ := (PathMap.get?_eq_some_iff ordered.assets).mp found
      exact ⟨key, set, member, same, known⟩
  · rintro ⟨key, set, member, same, known⟩
    rw [(PathMap.get?_eq_some_iff ordered.assets).mpr ⟨key, member, same⟩]
    exact known

theorem mem_entries_forget {key : Path} {set : PathSet} :
    (key, set) ∈ (forget graph importer).entries ↔
      ∃ before, (key, before) ∈ graph.entries ∧ set = before.erase importer ∧
        set.entries ≠ [] := by
  simp only [forget, PathMap.filter, PathMap.mapValues, List.mem_filter, List.mem_map,
    Bool.not_eq_true', List.isEmpty_eq_false_iff]
  constructor
  · rintro ⟨⟨⟨key, before⟩, member, ⟨⟩⟩, inhabited⟩
    exact ⟨before, member, rfl, inhabited⟩
  · rintro ⟨before, member, rfl, inhabited⟩
    exact ⟨⟨(key, before), member, rfl⟩, inhabited⟩

theorem ordered_forget (ordered : Ordered graph) (importer : Path) :
    Ordered (graph.forget importer) := by
  constructor
  · exact List.pairwise_map.mpr (List.Pairwise.filter _ (List.pairwise_map.mpr
      (List.pairwise_map.mp ordered.assets)))
  · rintro ⟨key, set⟩ member
    obtain ⟨before, known, rfl, _⟩ := mem_entries_forget.mp member
    exact PathMap.ascending_erase (ordered.sets _ known) importer

/-- An importer that is forgotten imports nothing, and all others import what they did. -/
theorem mem_importers_forget (ordered : Ordered graph) :
    other ∈ importers (graph.forget importer) asset ↔
      other ∈ importers graph asset ∧ importer.same other = false := by
  rw [ordered.mem_importers_iff, (ordered_forget ordered importer).mem_importers_iff]
  constructor
  · rintro ⟨key, set, member, same, known⟩
    obtain ⟨before, earlier, rfl, _⟩ := mem_entries_forget.mp member
    obtain ⟨known, apart⟩ := PathMap.mem_keys_erase.mp known
    exact ⟨⟨key, before, earlier, same, known⟩, apart⟩
  · rintro ⟨⟨key, before, member, same, known⟩, apart⟩
    have kept := PathMap.mem_keys_erase.mpr ⟨known, apart⟩
    refine ⟨key, before.erase importer, mem_entries_forget.mpr ⟨before, member, rfl, ?_⟩, same,
      kept⟩
    intro none
    rw [PathMap.keys, none] at kept
    cases kept

theorem ordered_connect (ordered : Ordered graph) (importer asset : Path) :
    Ordered (connect importer graph asset) := by
  refine ⟨PathMap.ascending_insert ordered.assets _ _, fun entry member => ?_⟩
  rcases PathMap.value_of_mem_place member with new | known
  · rw [new]
    refine PathMap.ascending_insert ?_ _ _
    cases found : graph.get? asset with
    | none => exact .nil
    | some set =>
      obtain ⟨key, known, _⟩ := (PathMap.get?_eq_some_iff ordered.assets).mp found
      exact ordered.sets _ known
  · exact ordered.sets entry known

theorem importers_congr (same : asset.same target = true) :
    importers graph asset = importers graph target := by
  rw [importers, importers, PathMap.get?_congr graph same]

/-- An import that is added is known then, under every spelling of the file, and nothing else is. -/
theorem mem_importers_connect
    (only : ∀ other ∈ importers graph asset, importer.same other = true → other = importer) :
    other ∈ importers (connect importer graph asset) target ↔
      other ∈ importers graph target ∨ other = importer ∧ asset.same target = true := by
  have known : importers graph asset = PathMap.keys ((graph.get? asset).getD .empty) := by
    unfold importers
    cases graph.get? asset with
    | none => rfl
    | some set => rfl
  rw [known] at only
  cases same : asset.same target with
  | true =>
    rw [← importers_congr same, ← importers_congr same, known, importers, connect,
      PathMap.get?_insert, if_pos (same_self asset), and_iff_left rfl]
    exact PathMap.mem_keys_insert_iff only
  | false =>
    have apart : ¬ target.same asset = true := fun same' => by
      rw [same_symm same'] at same
      cases same
    rw [importers, connect, PathMap.get?_insert, if_neg apart]
    simp [importers]

/-- Everything that an importer imports now is known then, and what others import is as before. -/
theorem record_spec (ordered : Ordered graph) (importer : Path) (assets : List Path) :
    Ordered (graph.record importer assets) ∧ ∀ other asset,
      other ∈ importers (graph.record importer assets) asset ↔
        other ∈ importers graph asset ∧ importer.same other = false ∨
          other = importer ∧ ∃ imported ∈ assets, imported.same asset = true := by
  have folded (graph : ImportGraph) (ordered : Ordered graph)
      (only : ∀ asset, ∀ other ∈ importers graph asset, importer.same other = true →
        other = importer) :
      Ordered (assets.foldl (connect importer) graph) ∧ ∀ other asset,
        other ∈ importers (assets.foldl (connect importer) graph) asset ↔
          other ∈ importers graph asset ∨
            other = importer ∧ ∃ imported ∈ assets, imported.same asset = true := by
    induction assets generalizing graph with
    | nil => exact ⟨ordered, by simp⟩
    | cons first assets ih =>
      have step (other asset : Path) :
          other ∈ importers (connect importer graph first) asset ↔
            other ∈ importers graph asset ∨ other = importer ∧ first.same asset = true :=
        mem_importers_connect (only first)
      obtain ⟨ordered', rest⟩ := ih (connect importer graph first)
        (ordered_connect ordered importer first) fun asset other known same =>
          ((step other asset).mp known).elim (only asset other · same) (·.1)
      refine ⟨ordered', fun other asset => ?_⟩
      rw [List.foldl_cons, rest, step]
      simp only [List.mem_cons, exists_eq_or_imp]
      rw [or_assoc, ← and_or_left]
  obtain ⟨ordered', known⟩ := folded (graph.forget importer) (ordered_forget ordered importer)
    fun asset other member same => by
      rw [((mem_importers_forget ordered).mp member).2] at same
      cases same
  refine ⟨ordered', fun other asset => ?_⟩
  rw [record, known, mem_importers_forget ordered]

end Build.ImportGraph

end Recast
