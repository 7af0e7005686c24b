import Mathlib.Data.List.Forall2
import Recast.Config.Loading
import Recast.Proofs.Path.Sameness
import Recast.Proofs.Text.Lines

/-! # Names of targets and of root files

A target is asked for by a list of names with commas. Each name of such a list is trimmed and holds
no comma, so it can be written as a list of its own. Root files are resolved, so they are spelled in
normal form.
-/

namespace Recast.Text

private theorem dropWhile_of_head? {p : Char → Bool} {cs : List Char}
    (keeps : ∀ c, cs.head? = some c → p c = false) :
    cs.dropWhile p = cs := by
  cases cs with
  | nil => rfl
  | cons c cs => rw [List.dropWhile_cons, keeps c rfl, if_neg Bool.false_ne_true]

private theorem head?_dropWhile {p : Char → Bool} {cs : List Char} {c : Char}
    (front : (cs.dropWhile p).head? = some c) : p c = false := by
  have := List.head?_dropWhile_not p cs
  rw [front] at this
  simpa using this

theorem mem_of_mem_trimChars {cs : List Char} {c : Char} (member : c ∈ trimChars cs) : c ∈ cs := by
  have inner := (List.dropWhile_sublist isBlank).subset (List.mem_reverse.mp member)
  exact (List.dropWhile_sublist isBlank).subset (List.mem_reverse.mp inner)

/-- A trimmed text has nothing to trim. -/
theorem trimChars_trimChars (cs : List Char) : trimChars (trimChars cs) = trimChars cs := by
  have front : (trimChars cs).dropWhile isBlank = trimChars cs := by
    obtain ⟨rest, whole⟩ : trimChars cs <+: cs.dropWhile isBlank := by
      have ending : _ <:+ (cs.dropWhile isBlank).reverse := List.dropWhile_suffix isBlank
      simpa [trimChars] using List.reverse_prefix.mpr ending
    refine dropWhile_of_head? fun c first => ?_
    have begins : (cs.dropWhile isBlank).head? = some c := by
      rw [← whole, List.head?_append, first]
      rfl
    exact head?_dropWhile begins
  have back : (trimChars cs).reverse.dropWhile isBlank = (trimChars cs).reverse := by
    unfold trimChars
    rw [List.reverse_reverse]
    exact dropWhile_of_head? fun c => head?_dropWhile
  rw [trimChars, front, back, List.reverse_reverse]

end Recast.Text

namespace Recast.Target

/-- A text that names one target: some characters, no comma among them, and no blanks at the ends. -/
structure IsName (name : String) : Prop where
  nonempty : name ≠ ""
  commaFree : ',' ∉ name.toList
  trimmed : Text.trim name = name

/-- A text without comma is a list of what trimming leaves of it. -/
theorem splitNames_of_commaFree {entry : String} (commaFree : ',' ∉ entry.toList) :
    splitNames entry = [Text.trim entry].filter (· ≠ "") := by
  rw [splitNames, Text.split, Text.splitChars_of_not_mem commaFree, List.map_singleton,
    String.ofList_toList, List.map_singleton]

theorem IsName.splitNames_eq {name : String} (isName : IsName name) : splitNames name = [name] := by
  rw [splitNames_of_commaFree isName.commaFree, isName.trimmed, List.filter_cons_of_pos,
    List.filter_nil]
  simpa using isName.nonempty

/-- What a list holds are names. -/
theorem isName_of_mem {list name : String} (member : name ∈ splitNames list) : IsName name := by
  obtain ⟨trimmed, present⟩ := List.mem_filter.mp member
  obtain ⟨piece, cut, rfl⟩ := List.mem_map.mp trimmed
  obtain ⟨chars, cut', rfl⟩ := List.mem_map.mp cut
  have spelled : (Text.trim (String.ofList chars)).toList = Text.trimChars chars := by
    rw [Text.trim, String.toList_ofList, String.toList_ofList]
  refine ⟨by simpa using present, ?_, ?_⟩
  · rw [spelled]
    exact fun comma => Text.not_mem_of_mem_splitChars cut' (Text.mem_of_mem_trimChars comma)
  · rw [Text.trim, spelled, Text.trimChars_trimChars, Text.trim, String.toList_ofList]

/-- A name of a list is a list of one name. -/
theorem splitNames_of_mem {list name : String} (member : name ∈ splitNames list) :
    splitNames name = [name] :=
  (isName_of_mem member).splitNames_eq

/-- A target that is built among others can be asked for alone. -/
theorem normalize_singleton {requested : List String} {target : String}
    (member : target ∈ normalize requested) :
    normalize [target] = [target] := by
  unfold normalize at member
  dsimp only at member
  split at member
  · rw [List.mem_singleton.mp member]
    decide
  · obtain ⟨list, _, named⟩ := List.mem_flatMap.mp (mem_of_mem_distinct member)
    unfold normalize
    dsimp only
    rw [List.flatMap_singleton, splitNames_of_mem named]
    rfl

end Recast.Target

namespace Recast.Project

variable {project : Project} {system : Files.System} {root : Path}

/-- What is found in each of some directories. -/
abbrev Found (system : Files.System) (root : Path) (directories : List Path)
    (listings : List (List Path)) : Prop :=
  List.Forall₂ (fun directory listing =>
    system.list (system.resolve (root.join directory)) scriptExtensions = .ok listing)
    directories listings

/-- Root files are those that are listed, and behind them those that are found in directories, each
resolved and once. -/
theorem exists_of_rootFiles {roots : List Path}
    (computed : project.rootFiles system root = .ok roots) :
    ∃ listings, Found system root project.includes listings ∧
      roots = distinct Path.same
        ((project.files.map (root.join ·) ++ listings.flatten).map system.resolve) := by
  have folded (directories known found : List Path)
      (ran : (directories.foldlM
        (fun roots directory => do
          let found ← scriptsBelow system (system.resolve (root.join directory))
          return found.foldl (pushNew Path.same) roots) known : Except Failure (List Path)) =
            .ok found) :
      ∃ listings, Found system root directories listings ∧
        found = (listings.flatten.map system.resolve).foldl (pushNew Path.same) known := by
    induction directories generalizing known with
    | nil =>
      cases ran
      exact ⟨[], .nil, rfl⟩
    | cons directory directories ih =>
      rw [List.foldlM_cons] at ran
      unfold scriptsBelow at ran
      cases listed : system.list (system.resolve (root.join directory)) scriptExtensions with
      | error error =>
        rw [listed] at ran
        cases ran
      | ok files =>
        rw [listed] at ran
        obtain ⟨listings, found, rfl⟩ := ih _ ran
        refine ⟨files :: listings, .cons listed found, ?_⟩
        rw [List.flatten_cons, List.map_append, List.foldl_append]
  obtain ⟨listings, found, rfl⟩ := folded project.includes _ _ computed
  refine ⟨listings, found, ?_⟩
  rw [List.map_append, distinct, List.foldl_append, listedRoots, distinct, List.map_map]
  rfl

/-- Root files are resolved, those that are listed and those that are found in directories. -/
theorem resolved_of_mem_rootFiles {roots : List Path}
    (found : project.rootFiles system root = .ok roots) :
    ∀ file ∈ roots, ∃ path, system.resolve path = file := by
  obtain ⟨listings, _, rfl⟩ := exists_of_rootFiles found
  intro file member
  obtain ⟨path, _, resolved⟩ := List.mem_map.mp (mem_of_mem_distinct member)
  exact ⟨path, resolved⟩

theorem isNormal_of_mem_rootFiles {roots : List Path}
    (found : project.rootFiles system root = .ok roots) {file : Path} (member : file ∈ roots) :
    file.IsNormal := by
  obtain ⟨path, rfl⟩ := resolved_of_mem_rootFiles found file member
  exact Path.isNormal_resolveFrom _ _

/-- No two root files name the same. -/
theorem apart_rootFiles {roots : List Path} (found : project.rootFiles system root = .ok roots) :
    roots.Pairwise fun a b => b.same a = false := by
  obtain ⟨listings, _, rfl⟩ := exists_of_rootFiles found
  exact pairwise_distinct _ _

/-- No root file is listed twice. -/
theorem nodup_rootFiles {roots : List Path} (found : project.rootFiles system root = .ok roots) :
    roots.Nodup :=
  (apart_rootFiles found).imp fun apart same => by simp [same] at apart

end Recast.Project
