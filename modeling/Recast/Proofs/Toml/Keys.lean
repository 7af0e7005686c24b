import Mathlib.Data.List.Nodup
import Recast.Toml.Decoding

/-! # Tables have each key once

A document in the making is changed only by `descend`, which walks down a path of keys and changes the
table at its end. Where the change leaves each key once, the whole document does; and so do the tables that
a document holds (`keyed_of_parse?`).
-/

namespace Recast.Toml

/-- Each key stands once. -/
def Distinct {α : Type} (entries : List (String × α)) : Prop :=
  (entries.map (·.1)).Nodup

/-- A value that holds no other ones. -/
def Value.isScalar : Value → Bool
  | .array _ => false
  | .tables _ => false
  | .table _ => false
  | _ => true

/-- A value in whose tables each key stands once. -/
inductive Value.Keyed : Value → Prop
  | scalar {v : Value} (single : v.isScalar = true) : Keyed v
  | array {items : List Value} (inner : ∀ item ∈ items, Keyed item) : Keyed (.array items)
  | tables {elements : List Table} (distinct : ∀ element ∈ elements, Distinct element)
    (inner : ∀ element ∈ elements, ∀ entry ∈ element, Keyed entry.2) : Keyed (.tables elements)
  | table {entries : Table} (distinct : Distinct entries)
    (inner : ∀ entry ∈ entries, Keyed entry.2) : Keyed (.table entries)

/-- A part of an unfinished document in whose tables each key stands once. -/
inductive Node.Keyed : Node → Prop
  | value {v : Value} (keyed : v.Keyed) : Keyed (.value v)
  | table {kind : TableKind} {entries : Entries} (distinct : Distinct entries)
    (inner : ∀ entry ∈ entries, Keyed entry.2) : Keyed (.table kind entries)
  | tables {elements : List Entries} (distinct : ∀ element ∈ elements, Distinct element)
    (inner : ∀ element ∈ elements, ∀ entry ∈ element, Keyed entry.2) : Keyed (.tables elements)

/-- An unfinished table in which each key stands once, at every depth. -/
structure KeyedEntries (entries : Entries) : Prop where
  distinct : Distinct entries
  inner : ∀ entry ∈ entries, entry.2.Keyed

section Finished

theorem entriesToTable_eq_map (entries : Entries) :
    entriesToTable entries = entries.map fun entry => (entry.1, entry.2.toValue) := by
  induction entries with
  | nil => rfl
  | cons entry rest ih => rw [entriesToTable, ih, List.map_cons]

theorem elementsToTables_eq_map (elements : List Entries) :
    elementsToTables elements = elements.map entriesToTable := by
  induction elements with
  | nil => rfl
  | cons element rest ih => rw [elementsToTables, ih, List.map_cons]

theorem Distinct.entriesToTable {entries : Entries} (distinct : Distinct entries) :
    Distinct (entriesToTable entries) := by
  rw [entriesToTable_eq_map, Distinct, List.map_map]
  exact distinct

theorem Node.Keyed.toValue {node : Node} (keyed : node.Keyed) : node.toValue.Keyed := by
  induction keyed with
  | value keyed => exact keyed
  | table distinct _ ih =>
    refine .table distinct.entriesToTable fun entry member => ?_
    rw [entriesToTable_eq_map] at member
    obtain ⟨source, here, rfl⟩ := List.mem_map.mp member
    exact ih source here
  | tables distinct _ ih =>
    rw [Node.toValue, elementsToTables_eq_map]
    refine .tables (List.forall_mem_map.mpr fun element here =>
      (distinct element here).entriesToTable) (List.forall_mem_map.mpr fun element here => ?_)
    rw [entriesToTable_eq_map]
    exact List.forall_mem_map.mpr (ih element here)

end Finished

section Changes

variable {entries entries' : Entries} {key : String} {node : Node}

theorem KeyedEntries.nil : KeyedEntries [] :=
  ⟨List.nodup_nil, nofun⟩

theorem KeyedEntries.of_lookup (keyed : KeyedEntries entries)
    (found : entries.lookup key = some node) : node.Keyed := by
  obtain ⟨front, rest, spelled, _⟩ := List.lookup_eq_some_iff.mp found
  exact keyed.inner (key, node) (spelled ▸ List.mem_append_right _ (List.mem_cons_self ..))

theorem KeyedEntries.concat (keyed : KeyedEntries entries) (fresh : entries.lookup key = none)
    (keyed' : node.Keyed) : KeyedEntries (entries ++ [(key, node)]) := by
  have new : key ∉ entries.map (·.1) := by
    intro member
    obtain ⟨entry, here, rfl⟩ := List.mem_map.mp member
    simpa using List.lookup_eq_none_iff.mp fresh entry here
  constructor
  · rw [Distinct, List.map_append, List.map_singleton, ← List.concat_eq_append]
    exact keyed.distinct.concat new
  · exact List.forall_mem_append.mpr ⟨keyed.inner, List.forall_mem_singleton.mpr keyed'⟩

theorem KeyedEntries.replaceNode (keyed : KeyedEntries entries) (keyed' : node.Keyed) :
    KeyedEntries (replaceNode key node entries) := by
  have keys : (Toml.replaceNode key node entries).map (·.1) = entries.map (·.1) := by
    rw [Toml.replaceNode, List.map_map]
    refine List.map_congr_left fun entry _ => ?_
    dsimp only [Function.comp]
    split
    · next same => exact same.symm
    · rfl
  constructor
  · rw [Distinct, keys]
    exact keyed.distinct
  · refine List.forall_mem_map.mpr fun entry here => ?_
    split
    · exact keyed'
    · exact keyed.inner entry here

theorem KeyedEntries.filter (keyed : KeyedEntries entries) (kept : String × Node → Bool) :
    KeyedEntries (entries.filter kept) :=
  ⟨keyed.distinct.sublist (List.filter_sublist.map _), fun entry member =>
    keyed.inner entry (List.mem_filter.mp member).1⟩

/-- Tables in a row, each of which has each key once. -/
theorem keyed_tables_iff {elements : List Entries} :
    (Node.tables elements).Keyed ↔ ∀ element ∈ elements, KeyedEntries element := by
  constructor
  · rintro (_ | _ | ⟨distinct, inner⟩) element member
    exact ⟨distinct element member, inner element member⟩
  · exact fun each => .tables (fun element member => (each element member).distinct)
      fun element member => (each element member).inner

theorem keyed_table_iff {kind : TableKind} :
    (Node.table kind entries).Keyed ↔ KeyedEntries entries := by
  constructor
  · rintro (_ | ⟨distinct, inner⟩ | _)
    exact ⟨distinct, inner⟩
  · exact fun keyed => .table keyed.distinct keyed.inner

/-- A change at the end of a path that leaves each key once does so in the whole table. -/
theorem keyed_descend {α : Type} {dotted : Bool}
    {change : TableKind → Entries → Option (α × Entries)} {P : α → Prop}
    (changed : ∀ kind entries found entries', change kind entries = some (found, entries') →
      KeyedEntries entries → P found ∧ KeyedEntries entries')
    {path : List String} {kind : TableKind} {found : α} (keyed : KeyedEntries entries)
    (ran : descend dotted change path kind entries = some (found, entries')) :
    P found ∧ KeyedEntries entries' := by
  induction path generalizing kind entries entries' with
  | nil => exact changed kind entries found entries' ran keyed
  | cons key path ih =>
    rw [descend] at ran
    cases here : entries.lookup key with
    | none =>
      simp only [here, Option.bind_eq_bind, Option.bind_eq_some_iff] at ran
      obtain ⟨⟨found', inner⟩, below, same⟩ := ran
      cases same
      obtain ⟨known, keyed'⟩ := ih .nil below
      exact ⟨known, keyed.concat here (keyed_table_iff.mpr keyed')⟩
    | some node =>
      have keyed' := keyed.of_lookup here
      cases node with
      | value v => simp [here] at ran
      | table kind' inner =>
        simp only [here] at ran
        split at ran
        · cases ran
        · simp only [Option.bind_eq_bind, Option.bind_eq_some_iff] at ran
          obtain ⟨⟨found', inner'⟩, below, same⟩ := ran
          cases same
          obtain ⟨known, changed'⟩ := ih (keyed_table_iff.mp keyed') below
          exact ⟨known, keyed.replaceNode (keyed_table_iff.mpr changed')⟩
      | tables elements =>
        simp only [here, Option.bind_eq_bind, Option.bind_eq_some_iff] at ran
        obtain ⟨last, final, ⟨found', inner'⟩, below, same⟩ := ran
        cases same
        have each := keyed_tables_iff.mp keyed'
        obtain ⟨known, changed'⟩ := ih (each last (List.mem_of_getLast? final)) below
        refine ⟨known, keyed.replaceNode (keyed_tables_iff.mpr ?_)⟩
        exact List.forall_mem_append.mpr ⟨fun element member =>
          each element ((List.dropLast_prefix _).subset member), List.forall_mem_singleton.mpr changed'⟩

/-- So does one whose answer does not matter. -/
theorem KeyedEntries.descend {α : Type} {dotted : Bool}
    {change : TableKind → Entries → Option (α × Entries)}
    (changed : ∀ kind entries found entries', change kind entries = some (found, entries') →
      KeyedEntries entries → KeyedEntries entries')
    {path : List String} {kind : TableKind} {found : α} (keyed : KeyedEntries entries)
    (ran : descend dotted change path kind entries = some (found, entries')) :
    KeyedEntries entries' := by
  have both := keyed_descend (P := fun _ => True) (fun kind entries found entries' made here =>
    ⟨trivial, changed kind entries found entries' made here⟩) keyed ran
  exact both.2

/-- A pair that is set leaves each key once. -/
theorem KeyedEntries.addPair {path : List String} {v : Value} (keyed : KeyedEntries entries)
    (keyed' : v.Keyed) (ran : addPair entries path key v = some entries') :
    KeyedEntries entries' := by
  obtain ⟨_, descended, rfl⟩ := Option.map_eq_some_iff.mp ran
  refine keyed.descend ?_ descended
  intro kind entries _ entries' set keyed
  split at set
  · cases set
  · next free =>
    cases set
    rw [Bool.or_eq_true, not_or, Option.not_isSome_iff_eq_none] at free
    have fresh : entries.lookup key = none := free.2
    exact keyed.concat fresh (.value keyed')

end Changes

section Values

/-- A reader of values in whose tables each key stands once. -/
def ReadsKeyed (item? : Reader Value) : Prop :=
  ∀ cs v rest, item? cs = some (v, rest) → v.Keyed

variable {cs rest : List Char} {v : Value}

/-- The pairs in braces make up a table with each key once. -/
theorem keyed_inlineTable? {pairs : List (List String × Value)} (each : ∀ pair ∈ pairs, pair.2.Keyed)
    (made : inlineTable? pairs = some v) : v.Keyed := by
  simp only [inlineTable?, Option.bind_eq_bind, Option.bind_eq_some_iff, Option.some.injEq] at made
  obtain ⟨entries, folded, rfl⟩ := made
  suffices keyed : KeyedEntries entries by
    have whole : (Node.table .explicit entries).Keyed := keyed_table_iff.mpr keyed
    exact whole.toValue
  have start : KeyedEntries [] := .nil
  generalize ([] : Entries) = before at folded start
  induction pairs generalizing before with
  | nil =>
    cases folded
    exact start
  | cons pair pairs ih =>
    obtain ⟨parts, value⟩ := pair
    simp only [List.foldlM_cons, Option.bind_eq_bind, Option.bind_eq_some_iff] at folded
    obtain ⟨after, ⟨⟨path, key⟩, _, added⟩, folded⟩ := folded
    exact ih (fun other member => each other (List.mem_cons_of_mem _ member)) after folded
      (start.addPair (each _ (List.mem_cons_self ..)) added)

theorem keyed_integer? {n : Int} (read : integer? n = some v) : v.Keyed := by
  unfold integer? at read
  split at read
  · cases read
    exact .scalar rfl
  · cases read

theorem keyed_signedNumber? {negative : Bool} (read : signedNumber? negative cs = some (v, rest)) :
    v.Keyed := by
  unfold signedNumber? at read
  dsimp only at read
  split at read
  · cases read
    exact .scalar rfl
  · cases read
    exact .scalar rfl
  · simp only [Option.bind_eq_bind, Option.bind_eq_some_iff] at read
    obtain ⟨_, _, _, _, _, _, read⟩ := read
    split at read
    · simp only [Option.bind_eq_some_iff, Option.some.injEq, Prod.mk.injEq] at read
      obtain ⟨value, whole, rfl, _⟩ := read
      exact keyed_integer? whole
    · split at read
      · cases read
      · cases read
        exact .scalar rfl

theorem keyed_number? (read : number? cs = some (v, rest)) : v.Keyed := by
  have based {base : Nat} {test : Char → Bool} {cs : List Char}
      (read : based? base test cs = some (v, rest)) : v.Keyed := by
    simp only [based?, Option.bind_eq_bind, Option.bind_eq_some_iff, Option.some.injEq,
      Prod.mk.injEq] at read
    obtain ⟨_, _, value, whole, rfl, _⟩ := read
    exact keyed_integer? whole
  unfold number? at read
  split at read
  · exact based read
  · exact based read
  · exact based read
  · exact keyed_signedNumber? read

theorem keyed_numeric? (read : numeric? cs = some (v, rest)) : v.Keyed := by
  unfold numeric? at read
  split at read
  · simp only [dated?, Option.bind_eq_bind, Option.bind_eq_some_iff] at read
    obtain ⟨_, _, read⟩ := read
    split at read
    · split at read
      · simp only [Option.bind_eq_some_iff] at read
        obtain ⟨_, _, _, _, same⟩ := read
        cases same
        exact .scalar rfl
      · cases read
        exact .scalar rfl
    · cases read
      exact .scalar rfl
  · split at read
    · obtain ⟨_, _, same⟩ := Option.map_eq_some_iff.mp read
      cases same
      exact .scalar rfl
    · exact keyed_number? read

variable {item? : Reader Value}

theorem keyed_items? (keyed : ReadsKeyed item?) {fuel : Nat} {items : List Value}
    (read : items? item? fuel cs = some (items, rest)) : ∀ item ∈ items, item.Keyed := by
  induction fuel generalizing cs items with
  | zero => cases read
  | succ fuel ih =>
    simp only [items?, Option.bind_eq_bind, Option.bind_eq_some_iff] at read
    obtain ⟨_, _, read⟩ := read
    split at read
    · cases read
      exact nofun
    · simp only [Option.bind_eq_some_iff] at read
      obtain ⟨⟨item, _⟩, first, _, _, read⟩ := read
      have head := keyed _ _ _ first
      split at read
      · simp only [Option.bind_eq_some_iff] at read
        obtain ⟨⟨others, _⟩, more, same⟩ := read
        cases same
        exact List.forall_mem_cons.mpr ⟨head, ih more⟩
      · cases read
        exact List.forall_mem_singleton.mpr head
      · cases read

theorem keyed_pair? (keyed : ReadsKeyed item?) {pair : List String × Value}
    (read : pair? item? cs = some (pair, rest)) : pair.2.Keyed := by
  simp only [pair?, Option.bind_eq_bind, Option.bind_eq_some_iff] at read
  obtain ⟨_, _, read⟩ := read
  split at read
  · simp only [Option.bind_eq_some_iff] at read
    obtain ⟨⟨v, _⟩, value, same⟩ := read
    cases same
    exact keyed _ _ _ value
  · cases read

theorem keyed_pairs? (keyed : ReadsKeyed item?) {fuel : Nat}
    {pairs : List (List String × Value)} (read : pairs? item? fuel cs = some (pairs, rest)) :
    ∀ pair ∈ pairs, pair.2.Keyed := by
  induction fuel generalizing cs pairs with
  | zero => cases read
  | succ fuel ih =>
    simp only [pairs?, Option.bind_eq_bind, Option.bind_eq_some_iff] at read
    obtain ⟨⟨pair, _⟩, first, read⟩ := read
    have head := keyed_pair? keyed first
    split at read
    · simp only [Option.bind_eq_some_iff] at read
      obtain ⟨⟨others, _⟩, more, same⟩ := read
      cases same
      exact List.forall_mem_cons.mpr ⟨head, ih more⟩
    · cases read
      exact List.forall_mem_singleton.mpr head
    · cases read

theorem keyed_value? (depth : Nat) : ReadsKeyed (value? depth) := by
  induction depth using Nat.strongRecOn with
  | ind depth ih =>
    intro cs v rest read
    unfold value? at read
    split at read
    · next inner cs =>
      obtain ⟨⟨items, _⟩, inside, same⟩ := Option.map_eq_some_iff.mp read
      cases same
      exact .array (keyed_items? (ih inner (Nat.lt_succ_self inner)) inside)
    · next inner cs =>
      split at read
      · cases read
        exact .table List.nodup_nil nofun
      · simp only [Option.bind_eq_bind, Option.bind_eq_some_iff] at read
        obtain ⟨⟨pairs, _⟩, inside, table, made, same⟩ := read
        cases same
        exact keyed_inlineTable? (keyed_pairs? (ih inner (Nat.lt_succ_self inner)) inside) made
    · obtain ⟨_, _, same⟩ := Option.map_eq_some_iff.mp read
      cases same
      exact .scalar rfl
    · obtain ⟨_, _, same⟩ := Option.map_eq_some_iff.mp read
      cases same
      exact .scalar rfl
    · cases read
      exact .scalar rfl
    · cases read
      exact .scalar rfl
    · exact keyed_numeric? read

end Values

section Documents

variable {draft draft' : Draft} {statement : Statement} {root : Entries}

/-- A statement whose value has each key once. -/
def Statement.Keyed : Statement → Prop
  | .pair _ v => v.Keyed
  | _ => True

/-- A document in the making in which each key stands once. -/
structure Draft.Keyed (draft : Draft) : Prop where
  root : KeyedEntries draft.root
  entries : KeyedEntries draft.entries

theorem keyed_statement? {cs rest : List Char} (read : statement? cs = some (statement, rest)) :
    statement.Keyed := by
  unfold statement? at read
  split at read
  · simp only [Option.bind_eq_bind, Option.bind_eq_some_iff] at read
    obtain ⟨_, _, read⟩ := read
    split at read
    · simp only [Option.bind_eq_some_iff] at read
      obtain ⟨_, _, same⟩ := read
      cases same
      trivial
    · cases read
  · simp only [Option.bind_eq_bind, Option.bind_eq_some_iff] at read
    obtain ⟨_, _, read⟩ := read
    split at read
    · simp only [Option.bind_eq_some_iff] at read
      obtain ⟨_, _, same⟩ := read
      cases same
      trivial
    · cases read
  · simp only [Option.bind_eq_bind, Option.bind_eq_some_iff] at read
    obtain ⟨⟨⟨key, v⟩, _⟩, pair, _, _, same⟩ := read
    cases same
    exact keyed_pair? (keyed_value? depthLimit) pair

theorem keyed_statements? {fuel : Nat} {cs : List Char} {statements : List Statement}
    (read : statements? fuel cs = some statements) : ∀ statement ∈ statements, statement.Keyed := by
  induction fuel generalizing cs statements with
  | zero => cases read
  | succ fuel ih =>
    unfold statements? at read
    split at read
    · cases read
      exact nofun
    · simp only [Option.bind_eq_bind, Option.bind_eq_some_iff] at read
      obtain ⟨_, _, read⟩ := read
      exact ih read
    · exact ih read
    · simp only [Option.bind_eq_bind, Option.bind_eq_some_iff] at read
      obtain ⟨_, _, read⟩ := read
      exact ih read
    · simp only [Option.bind_eq_bind, Option.bind_eq_some_iff] at read
      obtain ⟨⟨statement, _⟩, first, others, more, same⟩ := read
      cases same
      exact List.forall_mem_cons.mpr ⟨keyed_statement? first, ih more⟩

theorem Draft.Keyed.finish (keyed : draft.Keyed) (done : draft.finish = some root) :
    KeyedEntries root := by
  unfold Draft.finish at done
  split at done
  · cases done
    exact keyed.entries
  · simp only [Option.bind_eq_bind, Option.bind_eq_some_iff, Option.map_eq_some_iff] at done
    obtain ⟨⟨path, key⟩, _, ⟨_, _⟩, descended, rfl⟩ := done
    refine keyed.root.descend ?_ descended
    intro kind entries _ entries' put here
    dsimp only at put
    split at put
    · next fresh =>
      cases put
      refine here.concat fresh ?_
      split
      · exact keyed_tables_iff.mpr (List.forall_mem_singleton.mpr keyed.entries)
      · exact keyed_table_iff.mpr keyed.entries
    · next elements found =>
      split at put
      · cases put
        refine here.replaceNode (keyed_tables_iff.mpr ?_)
        exact List.forall_mem_append.mpr ⟨keyed_tables_iff.mp (here.of_lookup found),
          List.forall_mem_singleton.mpr keyed.entries⟩
      · cases put
    · cases put

theorem keyed_beginTable {parts : List String} (keyed : KeyedEntries root)
    (begun : beginTable root parts = some draft) : draft.Keyed := by
  simp only [beginTable, Option.bind_eq_bind, Option.bind_eq_some_iff] at begun
  obtain ⟨⟨path, key⟩, _, ⟨inner, root'⟩, descended, same⟩ := begun
  cases same
  obtain ⟨keyed', above⟩ : KeyedEntries inner ∧ KeyedEntries root' := by
    refine keyed_descend (P := KeyedEntries) ?_ keyed descended
    intro kind entries inner entries' take here
    dsimp only at take
    split at take
    · cases take
      exact ⟨.nil, here⟩
    · next found =>
      cases take
      exact ⟨keyed_table_iff.mp (here.of_lookup found), here.filter _⟩
    · cases take
  exact ⟨above, keyed'⟩

theorem keyed_beginArrayTable {parts : List String} (keyed : KeyedEntries root)
    (begun : beginArrayTable root parts = some draft) : draft.Keyed := by
  simp only [beginArrayTable, Option.bind_eq_bind, Option.bind_eq_some_iff] at begun
  obtain ⟨⟨path, key⟩, _, ⟨_, root'⟩, descended, same⟩ := begun
  cases same
  refine ⟨keyed.descend ?_ descended, .nil⟩
  intro kind entries _ entries' look here
  dsimp only at look
  split at look
  · next fresh =>
    cases look
    exact here.concat fresh (.tables nofun nofun)
  · cases look
    exact here
  · cases look

/-- A statement that is taken in leaves each key once. -/
theorem Draft.Keyed.step (keyed : draft.Keyed) (keyed' : statement.Keyed)
    (taken : draft.step statement = some draft') : draft'.Keyed := by
  unfold Draft.step at taken
  split at taken
  · simp only [Option.bind_eq_bind, Option.bind_eq_some_iff] at taken
    obtain ⟨⟨path, key⟩, _, entries, added, same⟩ := taken
    cases same
    exact ⟨keyed.root, keyed.entries.addPair keyed' added⟩
  · simp only [Option.bind_eq_bind, Option.bind_eq_some_iff] at taken
    obtain ⟨root, done, begun⟩ := taken
    exact keyed_beginTable (keyed.finish done) begun
  · simp only [Option.bind_eq_bind, Option.bind_eq_some_iff] at taken
    obtain ⟨root, done, begun⟩ := taken
    exact keyed_beginArrayTable (keyed.finish done) begun

theorem Draft.Keyed.foldlM {statements : List Statement} (keyed : draft.Keyed)
    (each : ∀ statement ∈ statements, statement.Keyed)
    (taken : statements.foldlM Draft.step draft = some draft') : draft'.Keyed := by
  induction statements generalizing draft with
  | nil =>
    cases taken
    exact keyed
  | cons statement statements ih =>
    simp only [List.foldlM_cons, Option.bind_eq_bind, Option.bind_eq_some_iff] at taken
    obtain ⟨next, first, taken⟩ := taken
    exact ih (keyed.step (each _ (List.mem_cons_self ..)) first)
      (fun other member => each other (List.mem_cons_of_mem _ member)) taken

/-- In the tables of a document each key stands once. -/
theorem keyed_of_parse? {text : String} {document : Table} (parsed : parse? text = some document) :
    (Value.table document).Keyed := by
  simp only [parse?, build?, Option.bind_eq_bind, Option.bind_eq_some_iff, Option.some.injEq]
    at parsed
  obtain ⟨statements, read, draft, taken, root, done, rfl⟩ := parsed
  have start : Draft.Keyed ⟨[], none, []⟩ := ⟨.nil, .nil⟩
  have whole := start.foldlM (keyed_statements? read) taken
  have table : (Node.table .explicit root).Keyed := keyed_table_iff.mpr (whole.finish done)
  exact table.toValue

end Documents

section Views

variable {v : Value}

/-- What is read as a sequence holds such values. -/
theorem Value.Keyed.of_items? {items : List Value} (keyed : v.Keyed)
    (listed : v.items? = some items) : ∀ item ∈ items, item.Keyed := by
  cases keyed with
  | scalar single => cases v <;> cases listed <;> cases single
  | array inner =>
    cases listed
    exact inner
  | tables distinct inner =>
    cases listed
    exact List.forall_mem_map.mpr fun element here =>
      .table (distinct element here) (inner element here)
  | table => cases listed

/-- What is read as a map has each key once. -/
theorem Value.Keyed.of_entries? {entries : Table} (keyed : v.Keyed)
    (mapped : v.entries? = some entries) :
    Distinct entries ∧ ∀ entry ∈ entries, entry.2.Keyed := by
  cases keyed with
  | scalar single =>
    cases v <;> cases mapped <;> cases single
    exact ⟨List.nodup_singleton _, List.forall_mem_singleton.mpr (.scalar rfl)⟩
  | array => cases mapped
  | tables => cases mapped
  | table distinct inner =>
    cases mapped
    exact ⟨distinct, inner⟩

end Views

end Recast.Toml
