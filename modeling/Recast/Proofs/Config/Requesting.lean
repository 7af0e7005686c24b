import Mathlib.Data.List.Basic
import Recast.Proofs.Config.Naming

/-! # Targets that are asked for

Targets are asked for by entries, each of which may hold several names. What counts are the names:
how they are grouped into entries, and which blanks stand around them, makes no difference to the
targets that are built (`normalize_normal_form`). Whether all targets are configured is asked of the
entries as they are written, which comes to the same only where the entries are names
(`validation_agrees_iff`).
-/

namespace Recast

section Distinct

variable {α : Type} [BEq α] [LawfulBEq α]

/-- In the list without repetition is what was in the list. -/
theorem mem_distinct_iff {xs : List α} {x : α} : x ∈ distinct (· == ·) xs ↔ x ∈ xs := by
  refine ⟨mem_of_mem_distinct, fun member => ?_⟩
  obtain ⟨other, known, same⟩ := List.any_eq_true.mp (any_distinct (fun _ => BEq.rfl) member)
  exact eq_of_beq same ▸ known

/-- What comes first in the list without repetition appears first in the list. -/
theorem pairwise_idxOf_distinct (xs : List α) :
    (distinct (· == ·) xs).Pairwise fun a b => xs.idxOf a < xs.idxOf b := by
  induction xs using List.reverseRecOn with
  | nil => exact .nil
  | append_singleton xs x ih =>
    have known {a : α} (member : a ∈ distinct (· == ·) xs) : a ∈ xs := mem_distinct_iff.mp member
    -- what is known keeps its place when the list goes on
    have before : (distinct (· == ·) xs).Pairwise fun a b =>
        (xs ++ [x]).idxOf a < (xs ++ [x]).idxOf b :=
      ih.imp_of_mem fun first second less => by
        rwa [List.idxOf_append_of_mem (known first), List.idxOf_append_of_mem (known second)]
    rw [distinct_concat, pushNew]
    split
    · exact before
    · next fresh =>
      have new : x ∉ xs := fun member => fresh (any_distinct (fun _ => BEq.rfl) member)
      refine List.pairwise_append.mpr ⟨before, List.pairwise_singleton _ _, ?_⟩
      rintro a member b single
      rw [List.mem_singleton.mp single, List.idxOf_append_of_mem (known member),
        List.idxOf_append_of_notMem new]
      exact Nat.lt_add_right _ (List.idxOf_lt_length_of_mem (known member))

end Distinct

namespace Text

/-- Blanks around characters are trimmed with theirs. -/
theorem trimChars_padded {before behind : List Char} (blank : ∀ c ∈ before, isBlank c = true)
    (blank' : ∀ c ∈ behind, isBlank c = true) (cs : List Char) :
    trimChars (before ++ cs ++ behind) = trimChars cs := by
  have front : (before ++ cs ++ behind).dropWhile isBlank = (cs ++ behind).dropWhile isBlank := by
    rw [List.append_assoc, List.dropWhile_append_of_pos blank]
  have back (kept : List Char) : (kept ++ behind).reverse.dropWhile isBlank =
      kept.reverse.dropWhile isBlank := by
    rw [List.reverse_append, List.dropWhile_append_of_pos]
    exact fun c member => blank' c (List.mem_reverse.mp member)
  rw [trimChars, front, List.dropWhile_append]
  split
  · next all =>
    rw [trimChars, List.isEmpty_iff.mp all, List.dropWhile_eq_nil_iff.mpr blank']
  · rw [back, trimChars]

/-- A text with blanks at its ends. -/
def Padded (piece padded : String) : Prop :=
  ∃ before behind : String, (∀ c ∈ before.toList, isBlank c = true) ∧
    (∀ c ∈ behind.toList, isBlank c = true) ∧ padded = before ++ piece ++ behind

theorem Padded.trim_eq {piece padded : String} (padding : Padded piece padded) :
    trim padded = trim piece := by
  obtain ⟨before, behind, blank, blank', rfl⟩ := padding
  rw [trim, String.toList_append, String.toList_append, trimChars_padded blank blank', trim]

end Text

namespace Target

/-- A comma divides the names before it from those behind it. -/
theorem splitNames_comma (front behind : String) :
    splitNames (front ++ "," ++ behind) = splitNames front ++ splitNames behind := by
  have comma : (front ++ "," ++ behind).toList = front.toList ++ ',' :: behind.toList := by
    simp
  unfold splitNames Text.split
  rw [comma, Text.splitChars_append_cons, List.map_append, List.map_append, List.filter_append]

/-- The names that stand in entries. -/
def namesIn (requested : List String) : List String :=
  requested.flatMap splitNames

section Names

variable {requested : List String}

/-- Entries that are joined hold the same names. -/
theorem splitNames_intercalate (entries : List String) :
    splitNames (",".intercalate entries) = namesIn entries := by
  induction entries with
  | nil => rfl
  | cons entry entries ih =>
    cases entries with
    | nil => simp [namesIn]
    | cons other entries =>
      rw [String.intercalate_cons_cons, splitNames_comma, ih]
      rfl

/-- An entry that is cut at its commas holds the same names. -/
theorem namesIn_split (entry : String) : namesIn (Text.split ',' entry) = splitNames entry := by
  have pieces : ∀ piece ∈ Text.split ',' entry,
      splitNames piece = [Text.trim piece].filter (· ≠ "") := by
    intro piece member
    obtain ⟨chars, cut, rfl⟩ := List.mem_map.mp member
    refine splitNames_of_commaFree ?_
    rw [String.toList_ofList]
    exact Text.not_mem_of_mem_splitChars cut
  rw [namesIn, List.flatMap_congr pieces, ← List.filter_flatMap, ← List.map_eq_flatMap]
  rfl

/-- The text with blanks around the pieces between its commas. -/
def PaddedNames (entry padded : String) : Prop :=
  List.Forall₂ Text.Padded (Text.split ',' entry) (Text.split ',' padded)

theorem PaddedNames.splitNames_eq {entry padded : String} (padding : PaddedNames entry padded) :
    splitNames padded = splitNames entry := by
  have trimmed {pieces others : List String} (alike : List.Forall₂ Text.Padded pieces others) :
      others.map Text.trim = pieces.map Text.trim := by
    induction alike with
    | nil => rfl
    | cons first _ ih => rw [List.map_cons, List.map_cons, first.trim_eq, ih]
  rw [splitNames, trimmed padding, splitNames]

/-- Entries with blanks around their names hold the same names. -/
theorem namesIn_of_padded {padded : List String}
    (padding : List.Forall₂ PaddedNames requested padded) : namesIn padded = namesIn requested := by
  induction padding with
  | nil => rfl
  | cons first _ ih =>
    rw [namesIn, List.flatMap_cons, first.splitNames_eq, ← namesIn, ih]
    rfl

/-- Names hold themselves. -/
theorem namesIn_of_isName {names : List String} (all : ∀ name ∈ names, IsName name) :
    namesIn names = names := by
  rw [namesIn, List.flatMap_congr fun name member => (all name member).splitNames_eq,
    List.flatMap_singleton']

end Names

section Normal

variable {requested others : List String}

theorem normalize_eq (requested : List String) : normalize requested =
    if namesIn requested = [] then [wildcard] else distinct (· == ·) (namesIn requested) := by
  have none : (distinct (· == ·) (namesIn requested)).isEmpty = true ↔ namesIn requested = [] := by
    rw [List.isEmpty_iff]
    constructor
    · intro empty
      refine List.eq_nil_iff_forall_not_mem.mpr fun name member => ?_
      have known := mem_distinct_iff.mpr member
      rw [empty] at known
      cases known
    · rintro empty
      rw [empty]
      rfl
  unfold normalize
  simp only [← none]
  rfl

/-- Only the names that stand in the entries matter. -/
theorem normalize_congr (same : namesIn requested = namesIn others) :
    normalize requested = normalize others := by
  rw [normalize_eq, normalize_eq, same]

theorem mem_normalize_iff {name : String} : name ∈ normalize requested ↔
    name ∈ namesIn requested ∨ namesIn requested = [] ∧ name = wildcard := by
  rw [normalize_eq]
  split
  · next none => simp [none]
  · next some => simp [some, mem_distinct_iff]

theorem normalize_ne_nil (requested : List String) : normalize requested ≠ [] := by
  rw [normalize_eq]
  split
  · exact List.cons_ne_nil _ _
  · next some =>
    obtain ⟨name, member⟩ := List.exists_mem_of_ne_nil _ some
    exact List.ne_nil_of_mem (mem_distinct_iff.mpr member)

theorem isName_wildcard : IsName wildcard :=
  ⟨by decide, by decide, by decide⟩

theorem isName_of_mem_normalize {name : String} (member : name ∈ normalize requested) :
    IsName name := by
  rcases mem_normalize_iff.mp member with named | ⟨_, rfl⟩
  · obtain ⟨entry, _, cut⟩ := List.mem_flatMap.mp named
    exact isName_of_mem cut
  · exact isName_wildcard

theorem namesIn_normalize (requested : List String) :
    namesIn (normalize requested) = normalize requested :=
  namesIn_of_isName fun _ => isName_of_mem_normalize

theorem pairwise_idxOf_normalize (requested : List String) : (normalize requested).Pairwise
    fun a b => (namesIn requested).idxOf a < (namesIn requested).idxOf b := by
  rw [normalize_eq]
  split
  · exact List.pairwise_singleton _ _
  · exact pairwise_idxOf_distinct _

theorem nodup_normalize (requested : List String) : (normalize requested).Nodup :=
  (pairwise_idxOf_normalize requested).imp fun less same => absurd (same ▸ less) (Nat.lt_irrefl _)

theorem normalize_normalize (requested : List String) :
    normalize (normalize requested) = normalize requested := by
  have apart : (normalize requested).Pairwise fun a b => (b == a) = false :=
    (nodup_normalize requested).imp fun other => beq_false_of_ne other.symm
  rw [normalize_eq (normalize requested), namesIn_normalize, if_neg (normalize_ne_nil requested),
    distinct_of_pairwise apart]

/-- Only the wildcard is built when no name or only its name stands in the entries. -/
theorem normalize_eq_wildcard_iff : normalize requested = [wildcard] ↔
    (∀ entry ∈ requested, splitNames entry = []) ∨
      ∀ name, name ∈ namesIn requested ↔ name = wildcard := by
  rw [← List.flatMap_eq_nil_iff, ← namesIn]
  constructor
  · intro single
    by_cases none : namesIn requested = []
    · exact .inl none
    · refine .inr fun name => ?_
      rw [← List.mem_singleton, ← single, mem_normalize_iff]
      simp [none]
  · rintro (none | only)
    · rw [normalize_eq, if_pos none]
    · have all : ∀ name ∈ normalize requested, name = wildcard := fun name member =>
        (mem_normalize_iff.mp member).elim (only name).mp And.right
      obtain ⟨first, rest, spelled⟩ := List.exists_cons_of_ne_nil (normalize_ne_nil requested)
      have nodup := nodup_normalize requested
      rw [spelled] at all nodup ⊢
      obtain rfl := all first (List.mem_cons_self ..)
      refine congrArg (wildcard :: ·) (List.eq_nil_iff_forall_not_mem.mpr fun name later => ?_)
      obtain rfl := all name (List.mem_cons_of_mem _ later)
      exact (List.nodup_cons.mp nodup).1 later

/-- The targets that are built. There is at least one and none twice; each is a name, and they are
the names that stand in the entries, in the order in which they appear first, or the wildcard where
no name stands; it is the only one exactly when nothing else is named. They are their own normal
form, they stay the same when neighbouring entries are joined by commas, when an entry is cut at its
commas and when blanks are put around names, and they are what is read off their list. -/
theorem normalize_normal_form (requested : List String) :
    normalize requested ≠ [] ∧ (normalize requested).Nodup ∧
    (∀ name ∈ normalize requested, IsName name) ∧
    (∀ name, name ∈ normalize requested ↔
      name ∈ namesIn requested ∨ namesIn requested = [] ∧ name = wildcard) ∧
    ((normalize requested).Pairwise
      fun a b => (namesIn requested).idxOf a < (namesIn requested).idxOf b) ∧
    (normalize requested = [wildcard] ↔ (∀ entry ∈ requested, splitNames entry = []) ∨
      ∀ name, name ∈ namesIn requested ↔ name = wildcard) ∧
    normalize (normalize requested) = normalize requested ∧
    (∀ front entries behind, requested = front ++ entries ++ behind →
      normalize (front ++ ",".intercalate entries :: behind) = normalize requested) ∧
    (∀ front entry behind, requested = front ++ entry :: behind →
      normalize (front ++ Text.split ',' entry ++ behind) = normalize requested) ∧
    (∀ padded, List.Forall₂ PaddedNames requested padded →
      normalize padded = normalize requested) ∧
    splitNames (",".intercalate (normalize requested)) = normalize requested := by
  refine ⟨normalize_ne_nil requested, nodup_normalize requested, fun _ => isName_of_mem_normalize,
    fun _ => mem_normalize_iff, pairwise_idxOf_normalize requested, normalize_eq_wildcard_iff,
    normalize_normalize requested, ?joined, ?cut, ?padded, ?read⟩
  case joined =>
    rintro front entries behind rfl
    refine normalize_congr ?_
    unfold namesIn
    rw [List.flatMap_append, List.flatMap_cons, splitNames_intercalate, List.flatMap_append,
      List.flatMap_append, List.append_assoc]
    rfl
  case cut =>
    rintro front entry behind rfl
    refine normalize_congr ?_
    unfold namesIn
    rw [List.flatMap_append, List.flatMap_append, ← namesIn.eq_def (Text.split ',' entry),
      namesIn_split, List.flatMap_append, List.flatMap_cons, List.append_assoc]
  case padded => exact fun padded padding => normalize_congr (namesIn_of_padded padding)
  case read => rw [splitNames_intercalate, namesIn_normalize]

/-- Three names in three groupings, one of them with a blank. -/
theorem normalize_normal_form_regrouped :
    normalize ["web", "node,cli", "web"] = ["web", "node", "cli"] ∧
    normalize [",".intercalate ["web", "node,cli"], "web"] = ["web", "node", "cli"] ∧
    normalize ("web" :: Text.split ',' "node,cli" ++ ["web"]) = ["web", "node", "cli"] ∧
    normalize ["web", "node,\u2003cli", "web"] = ["web", "node", "cli"] := by
  obtain ⟨_, _, _, _, _, _, _, joined, cut, padded, _⟩ :=
    normalize_normal_form ["web", "node,cli", "web"]
  have built : normalize ["web", "node,cli", "web"] = ["web", "node", "cli"] := by decide
  have same (piece : String) : Text.Padded piece piece := ⟨"", "", by simp, by simp, by simp⟩
  have blank : ∀ c ∈ "\u2003".toList, Text.isBlank c = true := by
    intro c member
    obtain rfl : c = '\u2003' := by simpa using member
    decide
  have space : Text.Padded "cli" "\u2003cli" := ⟨"\u2003", "", blank, by simp, by decide⟩
  refine ⟨built, (joined [] ["web", "node,cli"] ["web"] rfl).trans built,
    (cut ["web"] "node,cli" ["web"] rfl).trans built,
    (padded ["web", "node,\u2003cli", "web"] ?_).trans built⟩
  exact .cons (.cons (same "web") .nil) <| .cons (.cons (same "node") (.cons space .nil)) <|
    .cons (.cons (same "web") .nil) .nil

end Normal

end Target

namespace Project

open Target

/-- A target that can be built: the wildcard, or one that is configured. -/
def Knows (project : Project) (target : String) : Prop :=
  target = wildcard ∨ (project.target? target).isSome = true

/-- Targets that are asked for are found valid exactly when all targets that are built are known. -/
def ValidationAgrees (project : Project) (targets : List String) : Prop :=
  hasInvalidTargets targets (some project) = false ↔
    ∀ name ∈ normalize targets, project.Knows name

variable {project : Project} {targets : List String}

theorem hasInvalidTargets_eq_false_iff : hasInvalidTargets targets (some project) = false ↔
    ∀ entry ∈ targets, project.Knows entry := by
  simp only [hasInvalidTargets, isWildcard, List.any_eq_false, List.mem_filter, Knows,
    Option.bind_some, Bool.not_eq_true', beq_eq_false_iff_ne]
  refine forall_congr' fun entry => ⟨fun valid member => ?_, fun valid ⟨member, named⟩ => ?_⟩
  · by_cases wild : entry = wildcard
    · exact .inl wild
    · exact .inr (by simpa [Option.isSome_iff_ne_none] using valid ⟨member, wild⟩)
  · simpa [Option.isSome_iff_ne_none] using (valid member).resolve_left named

theorem knows_normalize_iff : (∀ name ∈ normalize targets, project.Knows name) ↔
    ∀ entry ∈ targets, ∀ name ∈ splitNames entry, project.Knows name := by
  constructor
  · intro known entry member name named
    exact known name (mem_normalize_iff.mpr (.inl (List.mem_flatMap.mpr ⟨entry, member, named⟩)))
  · intro known name built
    rcases mem_normalize_iff.mp built with named | ⟨_, wild⟩
    · obtain ⟨entry, member, cut⟩ := List.mem_flatMap.mp named
      exact known entry member name cut
    · exact .inl wild

/-- The entries of the environment are names. -/
theorem isName_of_environment {lookup : String → Option String} {entry : String}
    (member : entry ∈ (Environment.ofLookup lookup).targets.getD []) : IsName entry := by
  unfold Environment.ofLookup at member
  dsimp only at member
  cases asked : lookup "TSPIPE_TARGETS" with
  | none =>
    rw [asked] at member
    cases member
  | some list =>
    rw [asked, Option.map_some, Option.filter_some] at member
    split at member
    · exact isName_of_mem member
    · cases member

/-- The name of a target that is not known stands alone in an entry. -/
def AsksUnknown (project : Project) (targets : List String) : Prop :=
  ∃ entry ∈ targets, IsName entry ∧ ¬project.Knows entry

/-- An entry that is no name is not known as it is written. -/
def WrittenUnknown (project : Project) (targets : List String) : Prop :=
  ∃ entry ∈ targets, ¬IsName entry ∧ ¬project.Knows entry

/-- An entry that is no name holds the name of a target that is not known. -/
def HoldsUnknown (project : Project) (targets : List String) : Prop :=
  ∃ entry ∈ targets, ¬IsName entry ∧ ∃ name ∈ splitNames entry, ¬project.Knows name

theorem knows_entries_iff : (∀ entry ∈ targets, project.Knows entry) ↔
    ¬project.AsksUnknown targets ∧ ¬project.WrittenUnknown targets := by
  constructor
  · exact fun known => ⟨fun ⟨entry, member, _, unknown⟩ => unknown (known entry member),
      fun ⟨entry, member, _, unknown⟩ => unknown (known entry member)⟩
  · rintro ⟨asked, written⟩ entry member
    by_contra unknown
    by_cases isName : IsName entry
    · exact asked ⟨entry, member, isName, unknown⟩
    · exact written ⟨entry, member, isName, unknown⟩

theorem knows_names_iff : (∀ entry ∈ targets, ∀ name ∈ splitNames entry, project.Knows name) ↔
    ¬project.AsksUnknown targets ∧ ¬project.HoldsUnknown targets := by
  constructor
  · intro known
    refine ⟨fun ⟨entry, member, isName, unknown⟩ => unknown (known entry member entry ?_),
      fun ⟨entry, member, _, name, held, unknown⟩ => unknown (known entry member name held)⟩
    rw [isName.splitNames_eq]
    exact List.mem_singleton.mpr rfl
  · rintro ⟨asked, held⟩ entry member name cut
    by_contra unknown
    by_cases isName : IsName entry
    · rw [isName.splitNames_eq, List.mem_singleton] at cut
      exact asked ⟨entry, member, isName, cut ▸ unknown⟩
    · exact held ⟨entry, member, isName, name, cut, unknown⟩

/-- Where the verdict on the entries is that on the targets that are built: where the name of an
unknown target stands alone in an entry, or where of the entries that are no names one is unknown as
it is written exactly when one holds the name of an unknown target. So the two agree on all lists of
names, and on all lists of the environment. -/
theorem validation_agrees_iff (project : Project) (targets : List String) :
    (project.ValidationAgrees targets ↔ project.AsksUnknown targets ∨
      (project.WrittenUnknown targets ↔ project.HoldsUnknown targets)) ∧
    ∀ lookup, project.ValidationAgrees ((Environment.ofLookup lookup).targets.getD []) := by
  have agrees (targets : List String) : project.ValidationAgrees targets ↔
      project.AsksUnknown targets ∨
        (project.WrittenUnknown targets ↔ project.HoldsUnknown targets) := by
    rw [ValidationAgrees, hasInvalidTargets_eq_false_iff, knows_normalize_iff, knows_entries_iff,
      knows_names_iff]
    tauto
  refine ⟨agrees targets, fun lookup => (agrees _).mpr (.inr (iff_of_false ?_ ?_))⟩
  · exact fun ⟨entry, member, other, _⟩ => other (isName_of_environment member)
  · exact fun ⟨entry, member, other, _⟩ => other (isName_of_environment member)

-- Two targets that are configured are refused together, and two that are not are let through.
example :
    let project : Project := { targets := some [("a,b", {}), ("node", {}), ("web", {})] }
    hasInvalidTargets ["web,node"] (some project) = true ∧
      normalize ["web,node"] = ["web", "node"] ∧
      hasInvalidTargets ["a,b"] (some project) = false ∧ normalize ["a,b"] = ["a", "b"] := by
  decide

end Project

end Recast
