import Recast.Config.Loading
import Recast.Proofs.Text.Occurrences
import Recast.Proofs.Toml.Keys

/-! # Warnings about unknown keys

Each key that nobody expects is noted once, in the order of the document, and the warning about it gives
the first line on which its characters stand. For a key without quotes this is the line of the key itself
only where no earlier line holds these characters (`unknown_keys_are_warned`).
-/

namespace Recast

open Toml

/-- A key of a document: the keys of the tables around it, and its own. -/
structure KeyPlace where
  around : List String
  key : String
deriving DecidableEq, Repr

namespace KeyPlace

/-- The same key, seen from the table around. -/
def within (table : String) (place : KeyPlace) : KeyPlace :=
  ⟨table :: place.around, place.key⟩

/-- The first of the keys that lead to a key. -/
def first (place : KeyPlace) : String :=
  place.around.headD place.key

end KeyPlace

/-- The unknown keys of an entry; `inner` gives those in the value of a known key. -/
def unknownAt (known : String → Bool) (inner : String → Value → List KeyPlace)
    (entry : String × Value) : List KeyPlace :=
  if known entry.1 then (inner entry.1 entry.2).map (.within entry.1) else [⟨[], entry.1⟩]

/-- The unknown keys among the entries of a table. -/
def unknownIn (known : String → Bool) (inner : String → Value → List KeyPlace) (entries : Table) :
    List KeyPlace :=
  entries.flatMap (unknownAt known inner)

/-- The entries of a value that is read as a record. -/
def recordEntries (fields : List String) (v : Value) : Table :=
  match v.items? with
  | some items => fields.zip items
  | none => v.entries?.getD []

def Options.unknownKeys (v : Value) : List KeyPlace :=
  unknownIn fields.contains (fun _ _ => []) (recordEntries fields v)

def TargetSettings.unknownKeys (v : Value) : List KeyPlace :=
  unknownIn fields.contains
    (fun key inner => if key = "compiler_options" then Options.unknownKeys inner else [])
    (recordEntries fields v)

namespace Project

def fields : List String :=
  ["files", "include", "addons", "addon_dir", "compiler_options", "targets"]

/-- The unknown keys in the settings of all targets. -/
def unknownTargetKeys (v : Value) : List KeyPlace :=
  unknownIn (fun _ => true) (fun _ => TargetSettings.unknownKeys) (v.entries?.getD [])

/-- The keys of a document that nobody expects. -/
def unknownKeys (document : Table) : List KeyPlace :=
  unknownIn fields.contains
    (fun key inner =>
      if key = "compiler_options" then Options.unknownKeys inner
      else if key = "targets" then unknownTargetKeys inner
      else [])
    document

end Project

section Noting

variable {α β : Type} {places places' : List KeyPlace}

/-- A reading that notes the given keys when it succeeds. -/
def Notes (reading : Decoding α) (places : List KeyPlace) : Prop :=
  ∀ noted a noted', reading.run noted = .ok (a, noted') → noted' = noted ++ places.map (·.key)

theorem Notes.pure (a : α) : Notes (pure a : Decoding α) [] := by
  rintro noted _ _ ⟨⟩
  simp

theorem Notes.throw (offence : Offence) (places : List KeyPlace) :
    Notes (throw offence : Decoding α) places := by
  rintro noted _ _ ⟨⟩

theorem Notes.unexpected (key : String) : Notes (unexpected key) [⟨[], key⟩] := by
  rintro noted _ _ ⟨⟩
  rfl

theorem Notes.bind {reading : Decoding α} {next : α → Decoding β} (first : Notes reading places)
    (later : ∀ a, Notes (next a) places') : Notes (reading >>= next) (places ++ places') := by
  intro noted b noted'' ran
  rw [StateT.run_bind] at ran
  cases middle : reading.run noted with
  | error offence => simp [middle, Bind.bind, Except.bind] at ran
  | ok result =>
    obtain ⟨a, noted'⟩ := result
    rw [middle] at ran
    rw [later a noted' b noted'' ran, first noted a noted' middle, List.map_append, List.append_assoc]

theorem Notes.mapM {f : α → Decoding β} {notes : α → List KeyPlace}
    (each : ∀ a, Notes (f a) (notes a)) (xs : List α) : Notes (xs.mapM f) (xs.flatMap notes) := by
  induction xs with
  | nil => exact .pure []
  | cons x xs ih =>
    rw [List.mapM_cons, List.flatMap_cons, ← List.append_nil (xs.flatMap notes)]
    exact (each x).bind fun _ => ih.bind fun _ => .pure _

theorem Notes.foldlM {f : β → α → Decoding β} {notes : α → List KeyPlace}
    (each : ∀ b a, Notes (f b a) (notes a)) (xs : List α) (b : β) :
    Notes (xs.foldlM f b) (xs.flatMap notes) := by
  induction xs generalizing b with
  | nil => exact .pure b
  | cons x xs ih => exact (each b x).bind ih

/-- The keys in the value of a known key are noted without the key itself. -/
theorem Notes.within {reading : Decoding α} (notes : Notes reading places) (table : String) :
    Notes reading (places.map (KeyPlace.within table)) := by
  have keys : (places.map (KeyPlace.within table)).map (·.key) = places.map (·.key) := by
    rw [List.map_map]
    rfl
  intro noted a noted' ran
  rw [keys]
  exact notes noted a noted' ran

/-- What is read as a whole notes nothing. -/
theorem notes_asBool (v : Value) : Notes (asBool v) [] := by
  unfold asBool
  split
  · exact .pure _
  · exact .throw _ _

theorem notes_asText (v : Value) : Notes (asText v) [] := by
  unfold asText
  split
  · exact .pure _
  · exact .throw _ _

theorem notes_asPath (v : Value) : Notes (asPath v) [] := by
  unfold asPath
  split
  · exact .pure _
  · exact .throw _ _

theorem notes_asList {item : Value → Decoding α} (each : ∀ v, Notes (item v) []) (v : Value) :
    Notes (asList item v) [] := by
  unfold asList
  split
  · next items _ =>
    have whole := Notes.mapM each items
    rwa [List.flatMap_eq_nil_iff.mpr fun _ _ => rfl] at whole
  · exact .throw _ _

theorem notes_asTable (v : Value) : Notes (asTable v) [] := by
  unfold asTable
  split
  · split
    · exact .pure _
    · exact .throw _ _
  · exact .throw _ _

theorem notes_require (allowed : Prop) [Decidable allowed] (offence : Offence) :
    Notes (if allowed then Pure.pure () else MonadExcept.throw offence : Decoding Unit) [] := by
  split
  · exact .pure _
  · exact .throw _ _

theorem notes_asNothing (v : Value) : Notes (asNothing v) [] := by
  unfold asNothing
  split
  · exact notes_require _ _
  · exact notes_require _ _
  · exact notes_require _ _
  · exact .throw _ _

theorem notes_asVariant (names : List String) (v : Value) : Notes (asVariant names v) [] := by
  unfold asVariant
  dsimp only
  split
  · exact (notes_require _ _).bind fun _ => .pure _
  · exact .throw _ _
  · exact (notes_require _ _).bind fun _ => (notes_asNothing _).bind fun _ => .pure _
  · exact .throw _ _
  · exact .throw _ _

end Noting

section Reading

variable {α β : Type} {known : String → Bool} {inner : String → Value → List KeyPlace}

/-- The entry of a known key notes what its value does. -/
theorem Notes.expected {reading : Decoding α} {key : String} {v : Value} {done : α → β}
    (listed : known key = true) (notes : Notes reading (inner key v)) :
    Notes (do return done (← reading)) (unknownAt known inner (key, v)) := by
  rw [unknownAt, if_pos listed, ← List.append_nil (List.map _ _)]
  exact (notes.within key).bind fun _ => .pure _

theorem Notes.surprising {key : String} {v : Value} (a : α) (unlisted : known key = false) :
    Notes (do Toml.unexpected key; return a) (unknownAt known inner (key, v)) := by
  rw [unknownAt, if_neg (by simp [unlisted]), ← List.append_nil [_]]
  exact (Notes.unexpected key).bind fun _ => .pure _

/-- A value that is read as a record notes what its entries note. -/
theorem notes_record {name : String} {fields : List String} {step : α → String × Value → Decoding α}
    (each : ∀ a entry, Notes (step a entry) (unknownAt known inner entry)) (start : α) (v : Value) :
    Notes (do (← asRecord name fields v).foldlM step start)
      (unknownIn known inner (recordEntries fields v)) := by
  unfold asRecord recordEntries
  split
  · next items same =>
    rw [same, pure_bind]
    exact .foldlM each _ _
  · next entries none same =>
    rw [none, same, pure_bind]
    exact .foldlM each _ _
  · rintro noted _ _ ⟨⟩

theorem Options.notes_decodeEntry (options : Options) (entry : String × Value) :
    Notes (decodeEntry options entry) (unknownAt fields.contains (fun _ _ => []) entry) := by
  obtain ⟨key, v⟩ := entry
  unfold decodeEntry
  dsimp only
  split
  · exact .expected rfl (notes_asPath v)
  · exact .expected rfl (notes_asPath v)
  · exact .expected rfl (notes_asBool v)
  · exact .expected rfl (notes_asBool v)
  · exact .expected rfl (notes_asBool v)
  · exact .expected rfl (notes_asVariant _ v)
  · exact .expected rfl (notes_asBool v)
  · exact .expected rfl (notes_asBool v)
  · exact .surprising _ (by simp_all [fields])

theorem Options.notes_decode (v : Value) : Notes (decode v) (unknownKeys v) :=
  notes_record notes_decodeEntry {} v

theorem TargetSettings.notes_decodeEntry (target : TargetSettings) (entry : String × Value) :
    Notes (decodeEntry target entry) (unknownAt fields.contains
      (fun key inner => if key = "compiler_options" then Options.unknownKeys inner else []) entry) := by
  obtain ⟨key, v⟩ := entry
  unfold decodeEntry
  dsimp only
  split
  · exact .expected rfl (notes_asList notes_asText v)
  · exact .expected rfl (notes_asBool v)
  · exact .expected rfl (notes_asBool v)
  · exact .expected rfl (Options.notes_decode v)
  · exact .expected rfl (notes_asTable v)
  · exact .surprising _ (by simp_all [fields])

theorem TargetSettings.notes_decode (v : Value) : Notes (decode v) (unknownKeys v) :=
  notes_record notes_decodeEntry {} v

/-- The settings of all targets note what is unknown in each. -/
theorem Project.notes_targets (v : Value) :
    Notes (asMap TargetSettings.decode v) (unknownTargetKeys v) := by
  unfold asMap unknownTargetKeys
  split
  · next entries same =>
    have each (entry : String × Value) :
        Notes (do return (entry.1, ← TargetSettings.decode entry.2))
          (unknownAt (fun _ => true) (fun _ => TargetSettings.unknownKeys) entry) :=
      .expected rfl (TargetSettings.notes_decode entry.2)
    rw [same]
    exact .mapM each entries
  · exact .throw _ _

theorem Project.notes_decodeEntry (project : Project) (entry : String × Value) :
    Notes (decodeEntry project entry) (unknownAt fields.contains
      (fun key inner =>
        if key = "compiler_options" then Options.unknownKeys inner
        else if key = "targets" then unknownTargetKeys inner
        else []) entry) := by
  obtain ⟨key, v⟩ := entry
  unfold decodeEntry
  dsimp only
  split
  · exact .expected rfl (notes_asList notes_asPath v)
  · exact .expected rfl (notes_asList notes_asPath v)
  · exact .expected rfl (notes_asList notes_asText v)
  · exact .expected rfl (notes_asPath v)
  · exact .expected rfl (Options.notes_decode v)
  · exact .expected rfl (notes_targets v)
  · exact .surprising _ (by simp_all [fields])

/-- The unknown keys of a document are noted in its order. -/
theorem Project.noted_of_decode {document : Table} {project : Project} {unknown : List String}
    (read : decode document = .ok (project, unknown)) :
    unknown = (unknownKeys document).map (·.key) := by
  have notes := Notes.foldlM notes_decodeEntry document {}
  exact notes [] project unknown read

end Reading

section Once

variable {known : String → Bool} {inner : String → Value → List KeyPlace} {entries : Table}

theorem KeyPlace.within_injective (table : String) : Function.Injective (within table) := by
  rintro ⟨around, key⟩ ⟨around', key'⟩ same
  simp only [within, mk.injEq, List.cons.injEq, true_and] at same
  rw [mk.injEq]
  exact same

/-- What is unknown at an entry lies behind its key. -/
theorem first_of_mem_unknownAt {entry : String × Value} {place : KeyPlace}
    (member : place ∈ unknownAt known inner entry) : place.first = entry.1 := by
  unfold unknownAt at member
  split at member
  · obtain ⟨_, _, rfl⟩ := List.mem_map.mp member
    rfl
  · rw [List.mem_singleton.mp member]
    rfl

/-- Keys of which each stands once are unknown once. -/
theorem nodup_unknownIn (distinct : Distinct entries)
    (each : ∀ entry ∈ entries, (inner entry.1 entry.2).Nodup) :
    (unknownIn known inner entries).Nodup := by
  refine List.nodup_flatMap.mpr ⟨fun entry member => ?_, ?_⟩
  · unfold unknownAt
    split
    · exact (each entry member).map (KeyPlace.within_injective entry.1)
    · exact List.nodup_singleton _
  · refine (List.pairwise_map.mp distinct).imp fun apart => ?_
    intro place here there
    exact apart ((first_of_mem_unknownAt here).symm.trans (first_of_mem_unknownAt there))

theorem keyed_recordEntries {fields : List String} (listed : fields.Nodup) {v : Value}
    (keyed : v.Keyed) : Distinct (recordEntries fields v) ∧
      ∀ entry ∈ recordEntries fields v, entry.2.Keyed := by
  unfold recordEntries
  cases same : v.items? with
  | some items =>
    refine ⟨?_, fun entry member => keyed.of_items? same _ (List.of_mem_zip member).2⟩
    change ((fields.zip items).map (·.1)).Nodup
    rw [List.zip_eq_zip_take_min, List.map_fst_zip (by simp)]
    exact listed.sublist (List.take_sublist _ _)
  | none =>
    cases mapped : v.entries? with
    | none => exact ⟨List.nodup_nil, fun _ member => absurd member List.not_mem_nil⟩
    | some entries => exact keyed.of_entries? mapped

theorem Options.nodup_unknownKeys {v : Value} (keyed : v.Keyed) : (unknownKeys v).Nodup :=
  nodup_unknownIn (keyed_recordEntries (by decide) keyed).1 fun _ _ => List.nodup_nil

theorem TargetSettings.nodup_unknownKeys {v : Value} (keyed : v.Keyed) : (unknownKeys v).Nodup := by
  have listed : fields.Nodup := by decide
  obtain ⟨distinct, values⟩ := keyed_recordEntries listed keyed
  refine nodup_unknownIn distinct fun entry member => ?_
  split
  · exact Options.nodup_unknownKeys (values entry member)
  · exact List.nodup_nil

theorem Project.nodup_unknownTargetKeys {v : Value} (keyed : v.Keyed) :
    (unknownTargetKeys v).Nodup := by
  unfold unknownTargetKeys
  cases mapped : v.entries? with
  | none => exact List.nodup_nil
  | some entries =>
    obtain ⟨distinct, values⟩ := keyed.of_entries? mapped
    exact nodup_unknownIn distinct fun entry member =>
      TargetSettings.nodup_unknownKeys (values entry member)

/-- No key of a document is unknown twice. -/
theorem Project.nodup_unknownKeys {document : Table} (keyed : (Value.table document).Keyed) :
    (unknownKeys document).Nodup := by
  obtain ⟨distinct, values⟩ := keyed.of_entries? rfl
  refine nodup_unknownIn distinct fun entry member => ?_
  split
  · exact Options.nodup_unknownKeys (values entry member)
  · split
    · exact nodup_unknownTargetKeys (values entry member)
    · exact List.nodup_nil

end Once

section Warnings

variable {key content : String} {file : Path}

/-- A key that can be written without quotes. -/
structure IsBareKey (key : String) : Prop where
  some : key ≠ ""
  bare : ∀ c ∈ key.toList, isBare c = true

theorem IsBareKey.not_mem (bare : IsBareKey key) {c : Char} (other : isBare c = false) :
    c ∉ key.toList := fun member => by
  rw [bare.bare c member] at other
  cases other

theorem IsBareKey.isInline (bare : IsBareKey key) : KeyWarning.IsInline key :=
  ⟨bare.some, bare.not_mem (by decide), bare.not_mem (by decide)⟩

/-- The warning about a key without dots names the whole key. -/
theorem KeyWarning.key_ofKey (undotted : '.' ∉ key.toList) : (ofKey content file key).key = key := by
  change (Text.split '.' key).getLastD "" = key
  rw [Text.split, Text.splitChars_of_not_mem undotted]
  exact String.ofList_toList

theorem KeyWarning.line_ofKey (undotted : '.' ∉ key.toList) :
    (ofKey content file key).line = lineOf content key := by
  change lineOf content (ofKey content file key).key = _
  rw [key_ofKey undotted]

/-- Of each unknown key of a document there is one warning, in the order of the document. The warning about
a key that can be written without quotes gives the first line on which the characters of the key stand: the
line of the key itself exactly if they stand on no earlier line. -/
theorem Project.unknown_keys_are_warned {project : Project} {warnings : List KeyWarning}
    (parsed : parse content file = .ok (project, warnings)) :
    ∃ document, Toml.parse? content = some document ∧ (unknownKeys document).Nodup ∧
      warnings = (unknownKeys document).map (fun place => KeyWarning.ofKey content file place.key) ∧
      ∀ place ∈ unknownKeys document, IsBareKey place.key →
        (KeyWarning.ofKey content file place.key).key = place.key ∧
        (∀ line, (KeyWarning.ofKey content file place.key).line = some line ↔
          KeyWarning.StandsFirst content place.key line) ∧
        ∀ line, KeyWarning.StandsOn content place.key line →
          ∃ first ≤ line, (KeyWarning.ofKey content file place.key).line = some first := by
  unfold parse at parsed
  split at parsed
  · cases parsed
  · next document read =>
    split at parsed
    · cases parsed
    · next unknown decoded =>
      cases parsed
      refine ⟨document, read, nodup_unknownKeys (keyed_of_parse? read), ?_, ?_⟩
      · rw [noted_of_decode decoded, List.map_map]
        rfl
      · intro place _ bare
        have undotted : '.' ∉ place.key.toList := bare.not_mem (by decide)
        rw [KeyWarning.key_ofKey undotted, KeyWarning.line_ofKey undotted]
        exact ⟨rfl, fun line => KeyWarning.lineOf_eq_some_iff bare.isInline,
          fun line stands => KeyWarning.exists_lineOf bare.isInline stands⟩

/-- The characters of a key in a comment above it draw the warning to the line of the comment. -/
theorem Project.unknown_keys_are_warned_at_a_comment :
    let content := "files = [] # adons\nadons = []\n"
    ∃ warning, parse content (.ofString "tspipe.toml") = .ok ({}, [warning]) ∧
      warning.key = "adons" ∧ KeyWarning.StandsOn content "adons" 2 ∧ warning.line ≠ some 2 := by
  intro content
  have read : Toml.parse? content = some [("files", .array []), ("adons", .array [])] := by
    subst content
    with_unfolding_all rfl
  have parsed : parse content (.ofString "tspipe.toml") =
      .ok ({}, [KeyWarning.ofKey content (.ofString "tspipe.toml") "adons"]) := by
    rw [parse, read]
    rfl
  have above : KeyWarning.StandsOn content "adons" 1 :=
    ⟨"files = [] # ".toList, "\nadons = []\n".toList, by decide, by decide⟩
  have here : KeyWarning.StandsOn content "adons" 2 :=
    ⟨"files = [] # adons\n".toList, " = []\n".toList, by decide, by decide⟩
  obtain ⟨document, same, _, _, located⟩ := unknown_keys_are_warned parsed
  obtain rfl := Option.some.inj (read.symm.trans same)
  obtain ⟨key, first, _⟩ :=
    located ⟨[], "adons"⟩ (by decide) ⟨by decide, List.all_eq_true.mp (by decide)⟩
  refine ⟨_, parsed, key, here, fun second => ?_⟩
  have late := ((first 2).mp second).2 1 above
  omega

end Warnings

end Recast
