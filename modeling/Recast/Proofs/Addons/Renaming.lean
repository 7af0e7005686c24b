import Recast.Addons.Rename
import Recast.Proofs.Script.Renaming

/-! # Renames are read again, and undone

A table of renames whose new names are names gives a text that is read as the renamed tokens
(`Script.map_key_parse_renameAll`). When no two names become one, and no new name stood in the tree for
something else, turning the table around gives the old names back.
-/

namespace Recast.Addons.Rename

open Recast.Script Recast.Emit

/-- The new name that a table lists for a name. -/
def listed? (table : List (String × String)) (name : String) : Option String :=
  table.lookup name

variable {table : List (String × String)} {name new : String}

theorem mem_of_listed? (found : listed? table name = some new) : (name, new) ∈ table := by
  unfold listed? at found
  induction table with
  | nil => cases found
  | cons pair table ih =>
    obtain ⟨first, second⟩ := pair
    rw [List.lookup_cons] at found
    cases same : name == first with
    | true =>
      rw [same] at found
      obtain rfl := beq_iff_eq.mp same
      obtain rfl := Option.some.inj found
      exact List.mem_cons_self ..
    | false =>
      rw [same] at found
      exact List.mem_cons_of_mem _ (ih found)

/-- Where all names of a table are different, it gives each the name behind it. -/
theorem listed?_of_mem (distinct : (table.map (·.1)).Nodup) (member : (name, new) ∈ table) :
    listed? table name = some new := by
  unfold listed?
  induction table with
  | nil => cases member
  | cons pair table ih =>
    obtain ⟨first, second⟩ := pair
    rw [List.map_cons, List.nodup_cons] at distinct
    rw [List.lookup_cons]
    rcases List.mem_cons.mp member with same | behind
    · obtain ⟨rfl, rfl⟩ := Prod.mk.inj same
      rw [beq_self_eq_true]
    · have other : (name == first) = false := by
        rw [beq_eq_false_iff_ne]
        rintro rfl
        exact distinct.1 (List.mem_map.mpr ⟨_, behind, rfl⟩)
      rw [other]
      exact ih distinct.2 behind

/-- The table turned around undoes a table on a name, unless the name is the new name of another one
and stays. -/
theorem newName_swap (keys : (table.map (·.1)).Nodup) (values : (table.map (·.2)).Nodup)
    (fresh : ∀ pair ∈ table, pair.2 ∉ table.map (·.1) → pair.2 ≠ name) :
    newName (listed? (table.map Prod.swap)) (newName (listed? table) name) = name := by
  have keys' : ((table.map Prod.swap).map (·.1)).Nodup := by
    rw [List.map_map]
    exact values
  unfold newName
  cases found : listed? table name with
  | some new =>
    have back : listed? (table.map Prod.swap) new = some name :=
      listed?_of_mem keys' (List.mem_map.mpr ⟨_, mem_of_listed? found, rfl⟩)
    rw [Option.getD_some, back, Option.getD_some]
  | none =>
    rw [Option.getD_none]
    cases taken : listed? (table.map Prod.swap) name with
    | none => rfl
    | some old =>
      -- then the name is a new name, and no name of the table
      obtain ⟨⟨first, second⟩, member, swapped⟩ := List.mem_map.mp (mem_of_listed? taken)
      obtain rfl : second = name := congrArg Prod.fst swapped
      refine absurd rfl (fresh _ member fun listed => ?_)
      obtain ⟨⟨_, later⟩, member', rfl⟩ := List.mem_map.mp listed
      rw [listed?_of_mem keys member'] at found
      cases found

theorem renameAll_swap (keys : (table.map (·.1)).Nodup) (values : (table.map (·.2)).Nodup)
    {tree : Tree} (fresh : ∀ pair ∈ table, pair.2 ∉ table.map (·.1) →
      ∀ t ∈ tree.tokens, ¬t.isIdentifier pair.2) :
    (tree.renameAll (listed? table)).renameAll (listed? (table.map Prod.swap)) = tree := by
  have each : ∀ t ∈ tree.tokens,
      (t.rename (listed? table)).rename (listed? (table.map Prod.swap)) = t := by
    intro t member
    unfold Token.rename
    by_cases identifier : t.kind = .identifier
    · have back : newName (listed? (table.map Prod.swap)) (newName (listed? table) t.text) = t.text :=
        newName_swap keys values fun pair listed free same =>
          fresh pair listed free t member (by simp [Token.isIdentifier, identifier, same])
      rw [if_pos identifier, if_pos identifier]
      dsimp only
      rw [back]
    · rw [if_neg identifier, if_neg identifier]
  have tokens : ((tree.tokens.map (Token.rename (listed? table))).map
      (Token.rename (listed? (table.map Prod.swap)))) = tree.tokens := by
    rw [List.map_map]
    exact (List.map_congr_left each).trans (List.map_id _)
  change tree.withTokens ((tree.tokens.map _).map _) = tree
  exact congrArg tree.withTokens tokens

theorem rename_eq_renameAll (tree : Tree) (name new : String) :
    tree.rename name new = tree.renameAll (listed? [(name, new)]) := by
  unfold Tree.rename Tree.renameAll
  congr 1
  refine List.map_congr_left fun t _ => ?_
  by_cases identifier : t.kind = .identifier
  · by_cases same : t.text = name
    · simp [Token.isIdentifier, listed?, identifier, same]
    · have other : (t.text == name) = false := beq_eq_false_iff_ne.mpr same
      have kept : listed? [(name, new)] t.text = none := by
        simp [listed?, List.lookup_cons, other]
      rw [if_pos identifier, kept, Token.isIdentifier, other, Bool.and_false]
      rfl
  · simp [Token.isIdentifier, identifier]

/-- Renaming commutes with reading. One rename is a table with one line, and the addon's transformer applies
its table. If the new names of a table are names, and no token that it changes lies directly behind a
number, the printed tree is read as the same kinds of tokens, with the new names for the listed
identifiers and all other texts as they were. A table that gives different names, none of which stands
in the tree without being listed itself, is undone by the table turned around. -/
theorem renaming_is_read_again (file : Path) (text : String) (table : List (String × String)) :
    (∀ name new, (Tree.parse file text).rename name new =
      (Tree.parse file text).renameAll (listed? [(name, new)])) ∧
    (∀ journal, transformer table (Tree.parse file text) journal =
      .ok ((Tree.parse file text).renameAll (listed? table)) journal) ∧
    ((∀ pair ∈ table, IsName pair.2) → (Tree.parse file text).Apart (listed? table) →
      (Tree.parse file ((Tree.parse file text).renameAll (listed? table)).print).tokens.map
          (fun t => (t.kind, t.text)) =
        (Tree.parse file text).tokens.map fun t =>
          (t.kind, if t.kind = .identifier then (listed? table t.text).getD t.text else t.text)) ∧
    ((table.map (·.1)).Nodup → (table.map (·.2)).Nodup →
      (∀ pair ∈ table, pair.2 ∉ table.map (·.1) →
        ∀ t ∈ (Tree.parse file text).tokens, ¬t.isIdentifier pair.2) →
      ((Tree.parse file text).renameAll (listed? table)).renameAll
        (listed? (table.map Prod.swap)) = Tree.parse file text) := by
  refine ⟨rename_eq_renameAll _, fun _ => rfl, fun names apart => ?_,
    fun keys values fresh => renameAll_swap keys values fresh⟩
  have read := map_key_parse_renameAll file
    (fun name new found => names (name, new) (mem_of_listed? found)) apart
  refine read.trans ?_
  rw [Tree.tokens_renameAll, List.map_map]
  refine List.map_congr_left fun t _ => ?_
  change (t.rename (listed? table)).key = _
  unfold Token.rename Token.key newName
  split <;> rfl

/-- Two names are swapped; the string and the comment keep theirs. -/
theorem renaming_is_read_again_swapped :
    ((Tree.parse (Path.ofString "/p/a.ts") "let a = b; const s = 'a'; // a").renameAll
        (listed? [("a", "b"), ("b", "a")])).print = "let b = a; const s = 'a'; // a" ∧
      (Tree.parse (Path.ofString "/p/a.ts") "let b = a; const s = 'a'; // a").tokens.map
          (fun t => (t.kind, t.text)) =
        [(.identifier, "let"), (.whitespace, " "), (.identifier, "b"), (.whitespace, " "),
          (.punctuation, "="), (.whitespace, " "), (.identifier, "a"), (.punctuation, ";"),
          (.whitespace, " "), (.identifier, "const"), (.whitespace, " "), (.identifier, "s"),
          (.whitespace, " "), (.punctuation, "="), (.whitespace, " "), (.string, "'a'"),
          (.punctuation, ";"), (.whitespace, " "), (.comment, "// a")] ∧
      (((Tree.parse (Path.ofString "/p/a.ts") "let a = b; const s = 'a'; // a").renameAll
        (listed? [("a", "b"), ("b", "a")])).renameAll (listed? [("b", "a"), ("a", "b")])).tokens =
          (Tree.parse (Path.ofString "/p/a.ts") "let a = b; const s = 'a'; // a").tokens := by
  obtain ⟨-, -, read, undone⟩ := renaming_is_read_again (Path.ofString "/p/a.ts")
    "let a = b; const s = 'a'; // a" [("a", "b"), ("b", "a")]
  have printed : ((Tree.parse (Path.ofString "/p/a.ts") "let a = b; const s = 'a'; // a").renameAll
      (listed? [("a", "b"), ("b", "a")])).print = "let b = a; const s = 'a'; // a" := by
    decide +kernel
  have apart : (Tree.parse (Path.ofString "/p/a.ts") "let a = b; const s = 'a'; // a").Apart
      (listed? [("a", "b"), ("b", "a")]) := by
    decide +kernel
  have again := read (by decide +kernel) apart
  rw [printed] at again
  refine ⟨printed, again.trans (by decide +kernel), congrArg Tree.tokens (undone ?_ ?_ ?_)⟩
  · decide +kernel
  · decide +kernel
  · decide +kernel

end Recast.Addons.Rename
