import Mathlib.Data.List.Basic
import Recast.Proofs.Build.Activating

/-! # Which addons are selected

A registry is created by a scan and then lives through calls: addons are registered, and those of a
target are asked for. Names come in once and stay in the order in which they came. What a call gives
is read off the names alone (`addonsFor_eq`): each name that is chosen stands for an addon or for a
failure to load one, and an addon that was loaded stays in its place, so its module does not matter
any more (`Loaded.after`).

The main statement is `addons_selected`.
-/

namespace Recast

variable {α : Type}

/-- Elements may be left out before or after repetitions are. -/
theorem distinct_filter {same : α → α → Bool} {keep : α → Bool}
    (respects : ∀ x y, same x y = true → keep x = keep y) (xs : List α) :
    distinct same (xs.filter keep) = (distinct same xs).filter keep := by
  have folded (acc : List α) :
      (xs.filter keep).foldl (pushNew same) (acc.filter keep) =
        (xs.foldl (pushNew same) acc).filter keep := by
    induction xs generalizing acc with
    | nil => rfl
    | cons x xs ih =>
      rw [List.foldl_cons, ← ih]
      have here : (acc.filter keep).any (same x) = (acc.any (same x) && keep x) := by
        rw [Bool.eq_iff_iff]
        simp only [List.any_eq_true, List.mem_filter, Bool.and_eq_true]
        constructor
        · rintro ⟨y, ⟨member, kept⟩, alike⟩
          exact ⟨⟨y, member, alike⟩, (respects x y alike).trans kept⟩
        · rintro ⟨⟨y, member, alike⟩, kept⟩
          exact ⟨y, ⟨member, (respects x y alike).symm.trans kept⟩, alike⟩
      cases kept : keep x with
      | false =>
        rw [List.filter_cons_of_neg (by simp [kept])]
        unfold pushNew
        split
        · rfl
        · rw [List.filter_append, List.filter_cons_of_neg (by simp [kept]), List.filter_nil,
            List.append_nil]
      | true =>
        rw [kept, Bool.and_true] at here
        rw [List.filter_cons_of_pos kept, List.foldl_cons]
        congr 1
        unfold pushNew
        rw [here]
        split
        · rfl
        · rw [List.filter_append, List.filter_cons_of_pos kept, List.filter_nil]
  exact folded []

theorem nodup_iff_apart [BEq α] [LawfulBEq α] {xs : List α} :
    xs.Nodup ↔ xs.Pairwise fun a b => (b == a) = false :=
  ⟨.imp fun apart => beq_eq_false_iff_ne.mpr apart.symm,
    .imp fun apart => (beq_eq_false_iff_ne.mp apart).symm⟩

namespace Build.Registry

/-- What a registry is asked once it was created. -/
inductive Call where
  | register (addon : Addon)
  | select (system : Files.System) (target : String)

namespace Call

/-- The registry behind a call. -/
def run (registry : Registry) : Call → Registry
  | register addon => (registry.register addon).2.1
  | select system target => (registry.addonsFor system target).2.1

/-- The names that come in with a call. -/
def comers : Call → List String
  | register addon => [addon.name]
  | select _ _ => []

end Call

/-- The registry behind some calls. -/
def after (calls : List Call) (registry : Registry) : Registry :=
  calls.foldl Call.run registry

/-- The names of the modules below a directory, in the order of its listing. -/
def namesBelow (system : Files.System) (directory : Path) : List String :=
  if system.directoryExists directory then
    match system.list directory [] with
    | .ok files => files.filterMap moduleName?
    | .error _ => []
  else []

/-- The names that are asked for: those of an explicit list, else those that the configuration
lists for the target, else those that it lists for all targets. -/
def wanted (names : String) (project? : Option Project) (target : String) : List String :=
  let own : Option (List String) :=
    if Target.isWildcard target then none
    else project?.bind fun project => (project.target? target).bind (·.addons)
  match Target.splitNames names with
  | [] => (own <|> project?.bind (·.addons)).getD []
  | explicit => explicit

/-- The names to be loaded out of those that are known: all where none is asked for, else those
that are asked for, each where it is asked for first. -/
def chosen (known wanted : List String) : List String :=
  if wanted.isEmpty then known else (distinct (· == ·) wanted).filter known.contains

/-- What a name stands for, if it is known: an addon, or the error that tells why its module has
none. -/
def outcome? (registry : Registry) (system : Files.System) (name : String) :
    Option (Except Diagnostic Addon) :=
  (registry.entries.lookup name).map fun
    | .loaded addon => .ok addon
    | .module path =>
      match registry.resolve system name path with
      | .ok addon => .ok addon
      | .error failure => .error ((Diagnostic.error failure.message).withFile path)

/-- The addon of an outcome. -/
def addonOf? : Except Diagnostic Addon → Option Addon
  | .ok addon => some addon
  | .error _ => none

/-- The error of an outcome. -/
def errorOf? : Except Diagnostic Addon → Option Diagnostic
  | .ok _ => none
  | .error diagnostic => some diagnostic

/-- A name stands for an addon that is there, whatever becomes of its module. -/
def Loaded (registry : Registry) (name : String) (addon : Addon) : Prop :=
  registry.entries.lookup name = some (.loaded addon)

variable {registry : Registry} {system : Files.System} {name : String} {addon : Addon}

section Names

theorem isSome_lookup_iff : (registry.entries.lookup name).isSome ↔ name ∈ registry.available := by
  unfold available
  constructor
  · intro found
    obtain ⟨source, found⟩ := Option.isSome_iff_exists.mp found
    obtain ⟨before, behind, spelled, _⟩ := List.lookup_eq_some_iff.mp found
    simp [spelled]
  · intro member
    obtain ⟨entry, known, rfl⟩ := List.mem_map.mp member
    cases found : registry.entries.lookup entry.1 with
    | some source => rfl
    | none => simpa using List.lookup_eq_none_iff.mp found entry known

theorem available_insert (registry : Registry) (name : String) (source : AddonSource) :
    (registry.insert name source).1.available = pushNew (· == ·) registry.available name := by
  have taken : registry.available.any (name == ·) = (registry.entries.lookup name).isSome := by
    rw [Bool.eq_iff_iff, isSome_lookup_iff, List.any_eq_true]
    simp
  unfold insert pushNew
  rw [taken]
  cases registry.entries.lookup name with
  | none => simp [available]
  | some kept => rfl

/-- A fold that adds the names of modules adds each once. -/
private theorem available_foldl {add : Registry × List Diagnostic → Path → Registry × List Diagnostic}
    (adds : ∀ reached file, (add reached file).1.available =
      (moduleName? file).toList.foldl (pushNew (· == ·)) reached.1.available)
    (files : List Path) (reached : Registry × List Diagnostic) :
    (files.foldl add reached).1.available =
      (files.filterMap moduleName?).foldl (pushNew (· == ·)) reached.1.available := by
  induction files generalizing reached with
  | nil => rfl
  | cons file files ih =>
    rw [List.foldl_cons, ih, adds]
    cases named : moduleName? file with
    | none => rw [List.filterMap_cons_none named, Option.toList_none, List.foldl_nil]
    | some name =>
      rw [List.filterMap_cons_some named, Option.toList_some, List.foldl_cons, List.foldl_cons,
        List.foldl_nil]

theorem available_addModules (registry : Registry) (files : List Path) :
    (registry.addModules files).1.available =
      (files.filterMap moduleName?).foldl (pushNew (· == ·)) registry.available := by
  unfold addModules
  refine available_foldl (fun reached file => ?_) files (registry, [])
  dsimp only
  cases moduleName? file with
  | none => rfl
  | some name => exact available_insert reached.1 name (.module file)

/-- A registry begins with the names of the modules that it finds. -/
theorem available_create (system : Files.System) (directory : Option Path) (names : String)
    (project? : Option Project) (resolve : AddonResolver) :
    (create system directory names project? resolve).1.available =
      distinct (· == ·) ((directory.map (namesBelow system)).getD []) := by
  unfold create
  cases directory with
  | none => rfl
  | some directory =>
    simp only [scan, Option.map_some, Option.getD_some, namesBelow]
    cases system.directoryExists directory with
    | false => rfl
    | true =>
      cases system.list directory [] with
      | error failure => rfl
      | ok files => exact available_addModules _ files

end Names

section Loading

/-- What a name is loaded as is its outcome; with an addon it is replaced by it, and another name
stands for what it stood for. -/
theorem load_spec (registry : Registry) (system : Files.System) (name : String) :
    (registry.load system name).1 = (registry.outcome? system name).bind addonOf? ∧
      (registry.load system name).2.2 = ((registry.outcome? system name).bind errorOf?).toList ∧
      (∀ other, other ≠ name → (registry.load system name).2.1.entries.lookup other =
        registry.entries.lookup other) ∧
      (∀ addon, (registry.load system name).2.1.Loaded name addon ↔
        registry.outcome? system name = some (.ok addon)) := by
  unfold load outcome? Loaded
  cases known : registry.entries.lookup name with
  | none => simp [known]
  | some source =>
    cases source with
    | loaded addon => simp [known, addonOf?, errorOf?]
    | module path =>
      simp only [Option.map_some]
      cases registry.resolve system name path with
      | error failure => simp [known, addonOf?, errorOf?]
      | ok addon =>
        refine ⟨rfl, rfl, fun other apart => ?_, fun addon => ?_⟩
        · rw [lookup_replace, if_neg apart]
        · rw [lookup_replace, if_pos rfl, known]
          simp

/-- Loading does not change what else a registry knows. -/
theorem frame_load (registry : Registry) (system : Files.System) (name : String) :
    (registry.load system name).2.1.available = registry.available ∧
      (registry.load system name).2.1.explicit = registry.explicit ∧
      (registry.load system name).2.1.project? = registry.project? ∧
      (registry.load system name).2.1.resolve = registry.resolve := by
  unfold load
  split
  · exact ⟨rfl, rfl, rfl, rfl⟩
  · exact ⟨rfl, rfl, rfl, rfl⟩
  · split
    · exact ⟨available_replace registry name _, rfl, rfl, rfl⟩
    · exact ⟨rfl, rfl, rfl, rfl⟩

theorem frame_loadAll (registry : Registry) (system : Files.System) (names : List String) :
    (registry.loadAll system names).2.1.available = registry.available ∧
      (registry.loadAll system names).2.1.explicit = registry.explicit ∧
      (registry.loadAll system names).2.1.project? = registry.project? ∧
      (registry.loadAll system names).2.1.resolve = registry.resolve := by
  induction names generalizing registry with
  | nil => exact ⟨rfl, rfl, rfl, rfl⟩
  | cons name names ih =>
    obtain ⟨available, explicit, project, resolve⟩ := registry.frame_load system name
    obtain ⟨available', explicit', project', resolve'⟩ := ih (registry.load system name).2.1
    exact ⟨available'.trans available, explicit'.trans explicit, project'.trans project,
      resolve'.trans resolve⟩

/-- The outcome of a name is about the source of this name only. -/
theorem outcome?_congr {later : Registry} (resolve : later.resolve = registry.resolve)
    (same : later.entries.lookup name = registry.entries.lookup name) :
    later.outcome? system name = registry.outcome? system name := by
  unfold outcome?
  rw [resolve, same]

/-- Names that are loaded one after the other give their outcomes in that order. -/
theorem loadAll_spec (registry : Registry) (system : Files.System) {names : List String}
    (nodup : names.Nodup) :
    (registry.loadAll system names).1 =
        (names.filterMap (registry.outcome? system)).filterMap addonOf? ∧
      (registry.loadAll system names).2.2 =
        (names.filterMap (registry.outcome? system)).filterMap errorOf? ∧
      ∀ name addon, (registry.loadAll system names).2.1.Loaded name addon ↔
        registry.Loaded name addon ∨
          name ∈ names ∧ registry.outcome? system name = some (.ok addon) := by
  induction names generalizing registry with
  | nil => exact ⟨rfl, rfl, by simp [loadAll]⟩
  | cons first names ih =>
    obtain ⟨absent, nodup⟩ := List.nodup_cons.mp nodup
    obtain ⟨given, told, others, here⟩ := registry.load_spec system first
    obtain ⟨addons, reports, later⟩ := ih (registry.load system first).2.1 nodup
    have resolve := (registry.frame_load system first).2.2.2
    have apart (name : String) (member : name ∈ names) : name ≠ first :=
      fun same => absent (same ▸ member)
    have outcomes : names.filterMap ((registry.load system first).2.1.outcome? system) =
        names.filterMap (registry.outcome? system) :=
      List.filterMap_congr fun name member =>
        outcome?_congr resolve (others name (apart name member))
    rw [outcomes] at addons reports
    simp only [loadAll, addons, reports, given, told, List.filterMap_cons]
    refine ⟨?_, ?_, fun name addon => ?_⟩
    · cases registry.outcome? system first with
      | none => rfl
      | some outcome => cases outcome <;> rfl
    · cases registry.outcome? system first with
      | none => rfl
      | some outcome => cases outcome <;> rfl
    · rw [later name addon]
      by_cases same : name = first
      · subst same
        rw [here addon]
        have settled : registry.Loaded name addon →
            registry.outcome? system name = some (.ok addon) := fun known => by
          rw [outcome?, known]
          rfl
        simp only [absent, false_and, or_false, List.mem_cons, true_and]
        exact ⟨.inr, fun known => known.elim settled id⟩
      · rw [Loaded, others name same, outcome?_congr resolve (others name same)]
        simp only [List.mem_cons, same, false_or]
        rfl

end Loading

section Selecting

/-- The addons of a target are the outcomes of the names that are chosen, and unknown names are
told of once. -/
theorem addonsFor_eq (registry : Registry) (system : Files.System) (target : String) :
    registry.addonsFor system target =
      let names := chosen registry.available (registry.expected target)
      let missing := (registry.expected target).filter (!registry.available.contains ·)
      let (addons, later, reports) := registry.loadAll system names
      (addons, later,
        (if missing.isEmpty then [] else [missingWarning target missing]) ++ reports) := by
  unfold addonsFor chosen
  dsimp only
  split
  · next none =>
    rw [List.isEmpty_iff.mp none]
    rfl
  · have respects (one other : String) (same : (one == other) = true) :
        registry.available.contains one = registry.available.contains other := by
      rw [eq_of_beq same]
    rw [distinct_filter respects]

theorem nodup_chosen {known : List String} (nodup : known.Nodup) (wanted : List String) :
    (chosen known wanted).Nodup := by
  unfold chosen
  split
  · exact nodup
  · exact (Compiler.nodup_distinct wanted).filter _

/-- Asking for addons does not change what else a registry knows. -/
theorem frame_addonsFor (registry : Registry) (system : Files.System) (target : String) :
    (registry.addonsFor system target).2.1.available = registry.available ∧
      (registry.addonsFor system target).2.1.explicit = registry.explicit ∧
      (registry.addonsFor system target).2.1.project? = registry.project? ∧
      (registry.addonsFor system target).2.1.resolve = registry.resolve := by
  rw [addonsFor_eq]
  exact registry.frame_loadAll system _

end Selecting

section Calls

theorem frame_insert (registry : Registry) (name : String) (source : AddonSource) :
    (registry.insert name source).1.explicit = registry.explicit ∧
      (registry.insert name source).1.project? = registry.project? ∧
      (registry.insert name source).1.resolve = registry.resolve := by
  unfold insert
  split
  · exact ⟨rfl, rfl, rfl⟩
  · exact ⟨rfl, rfl, rfl⟩

theorem frame_addModules (registry : Registry) (files : List Path) :
    (registry.addModules files).1.explicit = registry.explicit ∧
      (registry.addModules files).1.project? = registry.project? ∧
      (registry.addModules files).1.resolve = registry.resolve := by
  unfold addModules
  refine List.foldlRecOn files _ (motive := fun reached : Registry × List Diagnostic =>
    reached.1.explicit = registry.explicit ∧ reached.1.project? = registry.project? ∧
      reached.1.resolve = registry.resolve) ⟨rfl, rfl, rfl⟩ fun reached kept file _ => ?_
  dsimp only
  split
  · exact kept
  · next name _ =>
    obtain ⟨explicit, project, resolve⟩ := frame_insert reached.1 name (.module file)
    exact ⟨explicit.trans kept.1, project.trans kept.2.1, resolve.trans kept.2.2⟩

/-- A registry has the settings that it was created with. -/
theorem frame_create (system : Files.System) (directory? : Option Path) (names : String)
    (project? : Option Project) (resolve : AddonResolver) :
    (create system directory? names project? resolve).1.explicit = Target.splitNames names ∧
      (create system directory? names project? resolve).1.project? = project? ∧
      (create system directory? names project? resolve).1.resolve = resolve := by
  unfold create
  cases directory? with
  | none => exact ⟨rfl, rfl, rfl⟩
  | some directory =>
    dsimp only
    unfold scan
    split
    · split
      · exact frame_addModules _ _
      · exact ⟨rfl, rfl, rfl⟩
    · exact ⟨rfl, rfl, rfl⟩

/-- One call: new names come last, and the settings stay. -/
theorem run_spec (registry : Registry) (call : Call) :
    (call.run registry).available = call.comers.foldl (pushNew (· == ·)) registry.available ∧
      (call.run registry).explicit = registry.explicit ∧
      (call.run registry).project? = registry.project? ∧
      (call.run registry).resolve = registry.resolve := by
  cases call with
  | register addon => exact ⟨available_insert registry _ _, frame_insert registry _ _⟩
  | select system target => exact registry.frame_addonsFor system target

/-- Many calls: new names come in the order of the calls, and the settings stay. -/
theorem after_spec (registry : Registry) (calls : List Call) :
    (after calls registry).available =
        (calls.flatMap Call.comers).foldl (pushNew (· == ·)) registry.available ∧
      (after calls registry).explicit = registry.explicit ∧
      (after calls registry).project? = registry.project? ∧
      (after calls registry).resolve = registry.resolve := by
  induction calls generalizing registry with
  | nil => exact ⟨rfl, rfl, rfl, rfl⟩
  | cons call calls ih =>
    obtain ⟨names, explicit, project, resolve⟩ := registry.run_spec call
    obtain ⟨names', explicit', project', resolve'⟩ := ih (call.run registry)
    refine ⟨?_, explicit'.trans explicit, project'.trans project, resolve'.trans resolve⟩
    rw [List.flatMap_cons, List.foldl_append, ← names]
    exact names'

/-- The names that are expected are those that the settings ask for. -/
theorem expected_eq_wanted {names : String} (explicit : registry.explicit = Target.splitNames names)
    (target : String) :
    registry.expected target = wanted names registry.project? target := by
  unfold expected wanted
  rw [explicit]
  cases Target.splitNames names with
  | cons first others => rfl
  | nil =>
    cases registry.project? with
    | none => simp
    | some project => rfl

/-- What is loaded is an outcome that no longer asks for the module. -/
theorem Loaded.outcome (loaded : registry.Loaded name addon) (system : Files.System) :
    registry.outcome? system name = some (.ok addon) := by
  rw [outcome?, loaded]
  rfl

/-- A loaded addon stays through a call. -/
theorem Loaded.run (loaded : registry.Loaded name addon) (nodup : registry.available.Nodup)
    (call : Call) : (call.run registry).Loaded name addon := by
  cases call with
  | register other =>
    unfold Loaded Call.run register insert
    dsimp only
    split
    · exact loaded
    · rw [List.lookup_append, loaded]
      rfl
  | select system target =>
    unfold Call.run
    dsimp only
    rw [addonsFor_eq]
    exact ((registry.loadAll_spec system (nodup_chosen nodup _)).2.2 name addon).mpr (.inl loaded)

theorem nodup_after (nodup : registry.available.Nodup) (calls : List Call) :
    (after calls registry).available.Nodup := by
  rw [(registry.after_spec calls).1]
  exact nodup_iff_apart.mpr (pairwise_foldl_pushNew _ (nodup_iff_apart.mp nodup))

/-- A loaded addon stays through all calls. -/
theorem Loaded.after (loaded : registry.Loaded name addon) (nodup : registry.available.Nodup)
    (calls : List Call) : (after calls registry).Loaded name addon := by
  induction calls generalizing registry with
  | nil => exact loaded
  | cons call calls ih => exact ih (loaded.run nodup call) (nodup_after nodup [call])

end Calls

section Resolving

/-- A registry that loads its modules in another way. -/
def resolvingBy (registry : Registry) (resolve : AddonResolver) : Registry :=
  { registry with resolve := resolve }

/-- The module of a name does not matter once its addon is there. -/
theorem Loaded.load_resolvingBy (loaded : registry.Loaded name addon) {resolve : AddonResolver}
    (elsewhere : ∀ system other path, other ≠ name →
      resolve system other path = registry.resolve system other path)
    (system : Files.System) (other : String) :
    (registry.resolvingBy resolve).load system other =
      ((registry.load system other).1, (registry.load system other).2.1.resolvingBy resolve,
        (registry.load system other).2.2) := by
  unfold load resolvingBy
  dsimp only
  by_cases same : other = name
  · subst same
    rw [loaded]
  · cases registry.entries.lookup other with
    | none => rfl
    | some source =>
      cases source with
      | loaded addon => rfl
      | module path =>
        dsimp only
        rw [elsewhere system other path same]
        cases registry.resolve system other path with
        | error failure => rfl
        | ok addon => rfl

theorem Loaded.load (loaded : registry.Loaded name addon) (system : Files.System)
    (other : String) : (registry.load system other).2.1.Loaded name addon := by
  obtain ⟨_, _, others, here⟩ := registry.load_spec system other
  by_cases same : name = other
  · subst same
    exact (here addon).mpr (loaded.outcome system)
  · exact (others name same).trans loaded

theorem Loaded.loadAll_resolvingBy (loaded : registry.Loaded name addon)
    {resolve : AddonResolver} (elsewhere : ∀ system other path, other ≠ name →
      resolve system other path = registry.resolve system other path)
    (system : Files.System) (names : List String) :
    (registry.resolvingBy resolve).loadAll system names =
      ((registry.loadAll system names).1, (registry.loadAll system names).2.1.resolvingBy resolve,
        (registry.loadAll system names).2.2) := by
  induction names generalizing registry with
  | nil => rfl
  | cons first names ih =>
    have rest := ih (loaded.load system first) (by
      rwa [(registry.frame_load system first).2.2.2])
    simp only [loadAll, loaded.load_resolvingBy elsewhere, rest]

/-- The answer for a target is the same, however the module of a loaded addon would be resolved. -/
theorem Loaded.addonsFor_resolvingBy (loaded : registry.Loaded name addon)
    {resolve : AddonResolver} (elsewhere : ∀ system other path, other ≠ name →
      resolve system other path = registry.resolve system other path)
    (system : Files.System) (target : String) :
    (registry.resolvingBy resolve).addonsFor system target =
      ((registry.addonsFor system target).1,
        (registry.addonsFor system target).2.1.resolvingBy resolve,
        (registry.addonsFor system target).2.2) := by
  rw [addonsFor_eq, addonsFor_eq registry]
  exact congrArg (fun answer : List Addon × Registry × List Diagnostic =>
    let missing := (registry.expected target).filter (!registry.available.contains ·)
    (answer.1, answer.2.1,
      (if missing.isEmpty then [] else [missingWarning target missing]) ++ answer.2.2))
    (loaded.loadAll_resolvingBy elsewhere system
      (chosen registry.available (registry.expected target)))

end Resolving

end Build.Registry

end Recast
