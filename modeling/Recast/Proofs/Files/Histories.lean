import Mathlib.Data.List.Basic
import Recast.Proofs.Files.Listings
import Recast.Proofs.Files.Watchers

/-! # What a memory tells of its history

After any actions from outside, a memory answers by the actions alone. A file holds the text of the
last write to its path, unless the path was removed since; a listing gives the files below a
directory in path order; and a change tells the watchers of its path that were opened and not closed
since. Paths are always compared by where they lead (`memory_tells_history`).
-/

namespace Recast.Files.MemoryTree

/-- What is done to a memory from outside. A watcher is closed by its number, and a path that is
notified tells the watchers. -/
inductive Action where
  | write (path : Path) (text : String)
  | remove (path : Path)
  | watch (path : Path)
  | close (watcher : Nat)
  | notify (path : Path)
deriving DecidableEq, Repr, Inhabited

namespace Action

/-- The memory after an action. Where watching is not supported no watcher is opened. -/
def run (tree : MemoryTree) : Action → MemoryTree
  | write path text => tree.write path text
  | remove path => tree.remove path
  | watch path =>
    match tree.watch path with
    | .ok (_, _, later) => later
    | .error _ => tree
  | close watcher => tree.close watcher
  | notify _ => tree

/-- What an action leaves at a path, if it is a write or a removal of this path. -/
def leaves? (current p : Path) : Action → Option (Option String)
  | write path text =>
    if (p.resolveFrom current).same (path.resolveFrom current) then some (some text) else none
  | remove path =>
    if (p.resolveFrom current).same (path.resolveFrom current) then some none else none
  | watch _ | close _ | notify _ => none

/-- Whether an action asks for a watcher. -/
def isWatch : Action → Bool
  | watch _ => true
  | _ => false

end Action

/-- The memory after some actions. -/
def after (tree : MemoryTree) (actions : List Action) : MemoryTree :=
  actions.foldl Action.run tree

/-- The text that the last write or removal of a path leaves there. -/
def lastText? (current : Path) (actions : List Action) (p : Path) : Option String :=
  (actions.reverse.findSome? (·.leaves? current p)).join

/-- A file that exists after some actions, under the path to which all its spellings lead. -/
def Stands (current : Path) (actions : List Action) (file : Path) : Prop :=
  file.resolveFrom current = file ∧ (lastText? current actions file).isSome = true

/-- A path begins with the steps of a directory, and goes on behind them. -/
def StrictlyUnder (directory file : Path) : Prop :=
  directory.components <+: file.components ∧ file.components ≠ directory.components

/-- A name has one of the extensions, in any case of ASCII letters. None given allow all names. -/
def HasOneOf (extensions : List String) (file : Path) : Prop :=
  extensions = [] ∨ ∃ extension, file.extension? = some extension ∧
    ∃ wanted ∈ extensions, Path.lowerAscii wanted = Path.lowerAscii extension

/-- How many watchers were asked for. Before a watcher is opened this is its number. -/
def watchCount (actions : List Action) : Nat :=
  actions.countP Action.isWatch

/-- The watcher with a number was opened for a path, and not closed since. -/
def StaysOpen (current : Path) (actions : List Action) (number : Nat) (watched : Path) : Prop :=
  ∃ before path behind, actions = before ++ .watch path :: behind ∧ watchCount before = number ∧
    path.resolveFrom current = watched ∧ .close number ∉ behind

section Steps

variable (tree : MemoryTree) (action : Action) (actions : List Action)

theorem run_watch (path : Path) : Action.run tree (.watch path) =
    if tree.supportsWatch then
      { tree with watchers := tree.watchers ++ [⟨tree.resolve path, true⟩] }
    else tree := by
  unfold Action.run watch
  cases tree.supportsWatch <;> rfl

theorem settings_run : (action.run tree).current = tree.current ∧
    (action.run tree).supportsWatch = tree.supportsWatch := by
  cases action with
  | watch path =>
    rw [run_watch]
    split <;> exact ⟨rfl, rfl⟩
  | write | remove | close | notify => exact ⟨rfl, rfl⟩

theorem after_concat : tree.after (actions ++ [action]) = action.run (tree.after actions) := by
  rw [after, List.foldl_append]
  rfl

theorem settings_after : (tree.after actions).current = tree.current ∧
    (tree.after actions).supportsWatch = tree.supportsWatch := by
  induction actions using List.reverseRecOn with
  | nil => exact ⟨rfl, rfl⟩
  | append_singleton actions action ih =>
    rw [after_concat, (settings_run _ action).1, (settings_run _ action).2]
    exact ih

end Steps

section Texts

variable (tree : MemoryTree) (action : Action) (actions : List Action) (p : Path)

/-- An action leaves what it leaves at a path, or what was there. -/
theorem file?_run :
    (action.run tree).file? p = (action.leaves? tree.current p).getD (tree.file? p) := by
  cases action with
  | write path text =>
    change (tree.files.insert (tree.resolve path) text).get? (tree.resolve p) =
      (if (tree.resolve p).same (tree.resolve path) then some (some text) else none).getD _
    rw [PathMap.get?_insert]
    split <;> rfl
  | remove path =>
    change (tree.files.erase (tree.resolve path)).get? (tree.resolve p) =
      (if (tree.resolve p).same (tree.resolve path) then some none else none).getD _
    rw [PathMap.get?_erase]
    split <;> rfl
  | watch path =>
    rw [run_watch]
    split <;> rfl
  | close watcher => rfl
  | notify path => rfl

theorem lastText?_concat (current : Path) : lastText? current (actions ++ [action]) p =
    (action.leaves? current p).getD (lastText? current actions p) := by
  unfold lastText?
  rw [List.reverse_append, List.reverse_singleton, List.singleton_append, List.findSome?_cons]
  cases action.leaves? current p <;> rfl

/-- What a memory that was empty has at a path in the end. -/
theorem file?_after (empty : ∀ p, tree.file? p = none) :
    (tree.after actions).file? p = lastText? tree.current actions p := by
  induction actions using List.reverseRecOn with
  | nil => exact empty p
  | append_singleton actions action ih =>
    rw [after_concat, file?_run, lastText?_concat, ih, (settings_after tree actions).1]

end Texts

section Keys

variable {tree : MemoryTree} {file directory : Path}

/-- The files of a memory are in path order, each under the path to which its spellings lead. -/
structure Kept (tree : MemoryTree) : Prop where
  ascending : Path.Ascending tree.files.keys
  resolved : ∀ key ∈ tree.files.keys, tree.resolve key = key

theorem kept_new (current : Path) (supportsWatch : Bool) : (new current supportsWatch).Kept :=
  ⟨.nil, fun _ member => absurd member List.not_mem_nil⟩

theorem Kept.run (kept : tree.Kept) (absolute : tree.current.rooted = true) (action : Action) :
    (action.run tree).Kept := by
  cases action with
  | write path text =>
    refine ⟨PathMap.ascending_insert kept.ascending _ _, fun key member => ?_⟩
    rcases (tree.files.mem_keys_insert (tree.resolve path) text key).2 member with rfl | known
    · exact path.resolveFrom_resolveFrom absolute
    · exact kept.resolved key known
  | remove path =>
    exact ⟨PathMap.ascending_erase kept.ascending _,
      fun key member => kept.resolved key (PathMap.mem_keys_erase.mp member).1⟩
  | watch path =>
    rw [run_watch]
    split
    · exact ⟨kept.ascending, kept.resolved⟩
    · exact kept
  | close watcher => exact ⟨kept.ascending, kept.resolved⟩
  | notify path => exact kept

theorem Kept.after (kept : tree.Kept) (absolute : tree.current.rooted = true)
    (actions : List Action) : (tree.after actions).Kept := by
  induction actions using List.reverseRecOn with
  | nil => exact kept
  | append_singleton actions action ih =>
    rw [after_concat]
    exact ih.run (by rwa [(settings_after tree actions).1]) action

/-- The keys are the paths of the files that exist. -/
theorem Kept.mem_keys_iff (kept : tree.Kept) :
    file ∈ tree.files.keys ↔ tree.resolve file = file ∧ (tree.file? file).isSome = true := by
  constructor
  · intro member
    have resolved := kept.resolved file member
    obtain ⟨⟨key, text⟩, entry, rfl⟩ := List.mem_map.mp member
    have found : tree.files.get? key = some text :=
      (PathMap.get?_eq_some_iff kept.ascending).mpr ⟨key, entry, Path.same_self key⟩
    refine ⟨resolved, ?_⟩
    rw [file?, resolved, found]
    rfl
  · rintro ⟨resolved, found⟩
    rw [file?, resolved] at found
    obtain ⟨key, member, same⟩ := PathMap.exists_key_of_get? found
    have normal : file.IsNormal := resolved ▸ Path.isNormal_resolveFrom file tree.current
    have normal' : key.IsNormal :=
      kept.resolved key member ▸ Path.isNormal_resolveFrom key tree.current
    exact normal.eq_of_same normal' same ▸ member

end Keys

section Listing

variable {tree : MemoryTree} {file : Path}

theorem strictlyUnder_iff (directory file : Path) :
    (!file.same directory && file.startsWith directory) = true ↔ StrictlyUnder directory file := by
  rw [Bool.and_eq_true, Bool.not_eq_true', Path.startsWith, List.isPrefixOf_iff_prefix,
    ← Bool.not_eq_true, Path.same_iff, and_comm]
  rfl

theorem hasOneOf_iff (extensions : List String) (file : Path) :
    file.hasExtension extensions = true ↔ HasOneOf extensions file := by
  unfold Path.hasExtension HasOneOf
  cases file.extension? with
  | none => simp
  | some extension => simp

theorem directoryExists_iff (directory : Path) : tree.directoryExists directory = true ↔
    ∃ file ∈ tree.files.keys, StrictlyUnder (tree.resolve directory) file := by
  unfold directoryExists
  simp only [List.any_eq_true, strictlyUnder_iff]

/-- What a listing of a directory gives. -/
theorem list_eq (absolute : tree.current.rooted = true) (directory : Path)
    (extensions : List String) : tree.list directory extensions =
      if tree.directoryExists directory then
        .ok (tree.files.keys.filter fun file =>
          file.startsWith (tree.resolve directory) && file.hasExtension extensions)
      else .error (.notFound (tree.resolve directory)) := by
  have again : tree.directoryExists (tree.resolve directory) = tree.directoryExists directory := by
    unfold directoryExists resolve
    rw [directory.resolveFrom_resolveFrom absolute]
  unfold list
  dsimp only
  rw [again]

theorem list_eq_notFound_iff (absolute : tree.current.rooted = true) (directory : Path)
    (extensions : List String) :
    tree.list directory extensions = .error (.notFound (tree.resolve directory)) ↔
      ¬tree.directoryExists directory = true := by
  rw [list_eq absolute]
  cases tree.directoryExists directory <;> simp

/-- A listing has the files below the directory that have one of the extensions, in path order. -/
theorem Kept.list_spec (kept : tree.Kept) (absolute : tree.current.rooted = true)
    {directory : Path} (holds : tree.directoryExists directory = true)
    (extensions : List String) :
    ∃ files, tree.list directory extensions = .ok files ∧ Path.Ascending files ∧ files.Nodup ∧
      ∀ file, file ∈ files ↔ file ∈ tree.files.keys ∧
        (tree.resolve directory).components <+: file.components ∧ HasOneOf extensions file := by
  rw [list_eq absolute, if_pos holds]
  refine ⟨_, rfl, kept.ascending.filter _, ?nodup, fun file => ?members⟩
  case nodup =>
    refine (kept.ascending.filter _).imp fun before same => ?_
    exact before.asymm (same ▸ before)
  case members =>
    rw [List.mem_filter, Bool.and_eq_true, hasOneOf_iff, Path.startsWith,
      List.isPrefixOf_iff_prefix]

end Listing

section Watching

variable {tree : MemoryTree} {current : Path} {actions : List Action} {action : Action}
  {number : Nat} {watched : Path}

theorem watchCount_concat (actions : List Action) (action : Action) :
    watchCount (actions ++ [action]) = watchCount actions + if action.isWatch then 1 else 0 := by
  rw [watchCount, List.countP_append, List.countP_singleton, watchCount]

/-- A watcher stays open unless it is closed, and one is opened for each path that is watched. -/
theorem staysOpen_concat_iff : StaysOpen current (actions ++ [action]) number watched ↔
    StaysOpen current actions number watched ∧ action ≠ .close number ∨
      ∃ path, action = .watch path ∧ watchCount actions = number ∧
        path.resolveFrom current = watched := by
  constructor
  · rintro ⟨before, path, behind, spelled, counted, resolved, kept⟩
    rcases List.eq_nil_or_concat' behind with rfl | ⟨behind, last, rfl⟩
    · obtain ⟨rfl, single⟩ := List.append_inj' spelled rfl
      exact .inr ⟨path, List.singleton_inj.mp single, counted, resolved⟩
    · rw [← List.cons_append, ← List.append_assoc] at spelled
      obtain ⟨rfl, single⟩ := List.append_inj' spelled rfl
      obtain rfl := List.singleton_inj.mp single
      rw [List.mem_append, List.mem_singleton, not_or] at kept
      exact .inl ⟨⟨before, path, behind, rfl, counted, resolved, kept.1⟩, Ne.symm kept.2⟩
  · rintro (⟨⟨before, path, behind, rfl, counted, resolved, kept⟩, other⟩ |
      ⟨path, rfl, counted, resolved⟩)
    · refine ⟨before, path, behind ++ [action], by simp, counted, resolved, ?_⟩
      rw [List.mem_append, List.mem_singleton, not_or]
      exact ⟨kept, Ne.symm other⟩
    · exact ⟨actions, path, [], rfl, counted, resolved, List.not_mem_nil⟩

/-- A watcher that was opened was counted. -/
theorem StaysOpen.lt_watchCount (opened : StaysOpen current actions number watched) :
    number < watchCount actions := by
  obtain ⟨before, path, behind, rfl, rfl, _, _⟩ := opened
  rw [watchCount, watchCount, List.countP_append, List.countP_cons]
  simp [Action.isWatch]

variable (tree action)

theorem length_watchers_run : (action.run tree).watchers.length =
    tree.watchers.length + if tree.supportsWatch && action.isWatch then 1 else 0 := by
  cases action with
  | watch path =>
    rw [run_watch]
    cases tree.supportsWatch <;> simp [Action.isWatch]
  | close watcher =>
    change (tree.watchers.modify watcher _).length = _
    simp [Action.isWatch]
  | write | remove | notify => simp [Action.run, write, remove, Action.isWatch]

theorem openWatchers_run : (action.run tree).openWatchers =
    match action with
    | .watch path =>
      if tree.supportsWatch then
        tree.openWatchers ++ [(tree.watchers.length, tree.resolve path)]
      else tree.openWatchers
    | .close watcher => tree.openWatchers.filter (·.1 != watcher)
    | _ => tree.openWatchers := by
  cases action with
  | watch path =>
    rw [run_watch]
    split
    · next supported => exact openWatchers_watch (if_pos supported)
    · rfl
  | close watcher => exact openWatchers_close tree watcher
  | write | remove | notify => rfl

variable {tree} (actions)

/-- The number that the next watcher gets. -/
theorem length_watchers_after (fresh : tree.watchers = []) :
    (tree.after actions).watchers.length =
      if tree.supportsWatch then watchCount actions else 0 := by
  induction actions using List.reverseRecOn with
  | nil => simp [after, fresh, watchCount]
  | append_singleton actions action ih =>
    rw [after_concat, length_watchers_run, ih, watchCount_concat, (settings_after tree actions).2]
    cases tree.supportsWatch <;> simp

/-- The watchers that are open in the end, in the order in which they were opened. -/
theorem openWatchers_after (fresh : tree.watchers = []) :
    (tree.after actions).openWatchers.Pairwise (·.1 < ·.1) ∧
      ∀ number watched, (number, watched) ∈ (tree.after actions).openWatchers ↔
        tree.supportsWatch = true ∧ StaysOpen tree.current actions number watched := by
  induction actions using List.reverseRecOn with
  | nil =>
    have none : (tree.after []).openWatchers = [] := by
      change openFrom 0 tree.watchers = []
      rw [fresh]
      rfl
    rw [none]
    refine ⟨.nil, fun number watched => iff_of_false List.not_mem_nil ?_⟩
    rintro ⟨_, before, path, behind, spelled, _⟩
    simp at spelled
  | append_singleton actions action ih =>
    obtain ⟨sorted, members⟩ := ih
    obtain ⟨current, supported⟩ := settings_after tree actions
    have counted := length_watchers_after actions fresh
    rw [after_concat, openWatchers_run]
    simp only [staysOpen_concat_iff]
    cases action with
    | watch path =>
      dsimp only
      rw [supported]
      cases watches : tree.supportsWatch with
      | false =>
        refine ⟨sorted, fun number watched => ?_⟩
        rw [if_neg Bool.false_ne_true, members, watches]
        simp
      | true =>
        rw [watches, if_pos rfl] at counted
        rw [if_pos rfl, counted]
        refine ⟨List.pairwise_append.mpr ⟨sorted, List.pairwise_singleton _ _, ?_⟩,
          fun number watched => ?_⟩
        · -- the new number is the count, and each that was opened before is below it
          rintro entry member later single
          rw [List.mem_singleton.mp single]
          exact ((members entry.1 entry.2).mp member).2.lt_watchCount
        · rw [List.mem_append, members, watches, List.mem_singleton]
          simp [resolve, current, eq_comm]
    | close watcher =>
      refine ⟨sorted.filter _, fun number watched => ?_⟩
      have other : number ≠ watcher ↔ Action.close watcher ≠ .close number := by simp [eq_comm]
      rw [List.mem_filter, members, bne_iff_ne, other, and_assoc]
      simp
    | write | remove | notify => exact ⟨sorted, fun number watched => by simp [members]⟩

/-- The watchers that a change tells in the end, in the order in which they were opened. -/
theorem notified_after (fresh : tree.watchers = []) (p : Path) :
    ((tree.after actions).notified p).Pairwise (· < ·) ∧
      ∀ number, number ∈ (tree.after actions).notified p ↔
        tree.supportsWatch = true ∧ ∃ watched, StaysOpen tree.current actions number watched ∧
          watched.same (tree.resolve p) = true := by
  obtain ⟨sorted, members⟩ := openWatchers_after actions fresh
  have resolved : (tree.after actions).resolve p = tree.resolve p :=
    congrArg p.resolveFrom (settings_after tree actions).1
  rw [notified_eq, resolved]
  refine ⟨List.pairwise_map.mpr (sorted.filter _), fun number => ?_⟩
  simp only [List.mem_map, List.mem_filter, Prod.exists, exists_and_right, exists_eq_right]
  simp only [members, and_assoc, exists_and_left]

end Watching

section History

variable {current : Path}

/-- A memory is a map from resolved paths to texts, with watchers. After any actions, a path under
every spelling has the text of the last write to where it leads, unless a removal came behind it. A
directory is not found exactly when no file that exists lies strictly under it; otherwise its
listing has, in path order and each once, the files that exist, begin with its steps and have one of
the extensions. A change tells, in the order in which they were opened and each once, the watchers
of the same place that were opened and not closed since. -/
theorem memory_tells_history (absolute : current.rooted = true) (supportsWatch : Bool)
    (actions : List Action) :
    let start := new current supportsWatch
    let tree := start.after actions
    (∀ p, tree.file? p = lastText? start.current actions p ∧
      tree.fileExists p = (lastText? start.current actions p).isSome ∧
      tree.read p =
        (lastText? start.current actions p).elim (.error (.notFound (start.resolve p))) .ok) ∧
    (∀ directory extensions,
      (tree.list directory extensions = .error (.notFound (start.resolve directory)) ↔
        ¬∃ file, Stands start.current actions file ∧
          StrictlyUnder (start.resolve directory) file) ∧
      ((∃ file, Stands start.current actions file ∧
          StrictlyUnder (start.resolve directory) file) →
        ∃ files, tree.list directory extensions = .ok files ∧ Path.Ascending files ∧ files.Nodup ∧
          ∀ file, file ∈ files ↔ Stands start.current actions file ∧
            (start.resolve directory).components <+: file.components ∧
            HasOneOf extensions file)) ∧
    ∀ p, (tree.notified p).Pairwise (· < ·) ∧
      ∀ number, number ∈ tree.notified p ↔ supportsWatch = true ∧ ∃ watched,
        StaysOpen start.current actions number watched ∧
          watched.same (start.resolve p) = true := by
  intro start tree
  have rooted : start.current.rooted = true := absolute
  have here : tree.current = start.current := (settings_after start actions).1
  have resolve (p : Path) : tree.resolve p = start.resolve p := congrArg p.resolveFrom here
  have text (p : Path) : tree.file? p = lastText? start.current actions p :=
    file?_after start actions p fun _ => rfl
  have kept : tree.Kept := (kept_new current supportsWatch).after rooted actions
  have keys (file : Path) : file ∈ tree.files.keys ↔ Stands start.current actions file := by
    rw [kept.mem_keys_iff, text, resolve]
    rfl
  refine ⟨fun p => ⟨text p, ?existence, ?reading⟩, fun directory extensions => ?listing,
    notified_after actions rfl⟩
  case existence => rw [fileExists, text]
  case reading =>
    unfold read
    rw [text, resolve]
    cases lastText? start.current actions p <;> rfl
  case listing =>
    have below : tree.directoryExists directory = true ↔
        ∃ file, Stands start.current actions file ∧
          StrictlyUnder (start.resolve directory) file := by
      simp only [directoryExists_iff, keys, resolve]
    have rooted' : tree.current.rooted = true := here ▸ rooted
    rw [← below, ← resolve]
    simp only [← keys]
    exact ⟨list_eq_notFound_iff rooted' directory extensions,
      fun holds => kept.list_spec rooted' holds extensions⟩

/-- One file under three spellings, a listing of a directory above another file, and the watcher
that was opened second and stayed open. -/
theorem memory_tells_history_of_spellings :
    let actions := [.write ⟨false, ["a.ts"]⟩ "1", .write ⟨true, ["p", ".", "a.ts"]⟩ "2",
      .write ⟨false, ["src", "b.TS"]⟩ "", .watch ⟨false, ["a.ts"]⟩, .watch ⟨false, [".", "a.ts"]⟩,
      .close 0]
    let tree := (new ⟨true, ["p"]⟩ true).after actions
    tree.file? ⟨false, ["src", "..", "a.ts"]⟩ = some "2" ∧
      (∃ files, tree.list ⟨false, ["src"]⟩ ["ts"] = .ok files ∧
        ⟨true, ["p", "src", "b.TS"]⟩ ∈ files) ∧
      1 ∈ tree.notified ⟨true, ["p", "a.ts"]⟩ := by
  intro actions tree
  have absolute : (⟨true, ["p"]⟩ : Path).rooted = true := rfl
  obtain ⟨texts, listings, told⟩ := memory_tells_history absolute true actions
  have stands : Stands ⟨true, ["p"]⟩ actions ⟨true, ["p", "src", "b.TS"]⟩ := by
    subst actions
    exact ⟨by decide, by decide +kernel⟩
  have extended : HasOneOf ["ts"] ⟨true, ["p", "src", "b.TS"]⟩ :=
    .inr ⟨"TS", by decide +kernel, "ts", by decide, by decide⟩
  have stays : StaysOpen ⟨true, ["p"]⟩ actions 1 ⟨true, ["p", "a.ts"]⟩ :=
    ⟨[_, _, _, _], _, [_], rfl, rfl, rfl, by decide⟩
  obtain ⟨files, listed, _, _, members⟩ :=
    (listings ⟨false, ["src"]⟩ ["ts"]).2 ⟨_, stands, by decide, by decide⟩
  refine ⟨(texts _).1.trans ?_, ⟨files, listed, (members _).mpr ⟨stands, by decide, extended⟩⟩,
    ((told _).2 1).mpr ⟨rfl, _, stays, by decide⟩⟩
  subst tree actions
  decide +kernel

end History

end Recast.Files.MemoryTree
