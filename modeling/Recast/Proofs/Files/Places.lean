import Recast.Files.System
import Recast.Proofs.Path.Sameness

/-! # What writing a file changes

A file is written at one place: what is stored elsewhere stays, whether the write succeeds or not
(`System.stored?_write_of_apart`), and behind a write that succeeds the file holds its text
(`System.stored?_write`). Two paths may name one place of a disk although they differ: its root has
no directory above it.
-/

namespace Recast.Files

namespace DiskNode

private theorem lookup_cons (name other : String) (node : DiskNode)
    (entries : List (String × DiskNode)) :
    ((name, node) :: entries).lookup other =
      if other = name then some node else entries.lookup other := by
  by_cases here : other = name
  · simp [here]
  · simp [List.lookup_cons, beq_false_of_ne here, here]

theorem lookup_setEntry (name other : String) (node : DiskNode)
    (entries : List (String × DiskNode)) :
    (setEntry name node entries).lookup other =
      if other = name then some node else entries.lookup other := by
  induction entries with
  | nil => exact lookup_cons ..
  | cons entry rest ih =>
    obtain ⟨first, old⟩ := entry
    unfold setEntry
    by_cases replaced : first = name
    · subst replaced
      rw [if_pos rfl, lookup_cons, lookup_cons]
      split <;> rfl
    · rw [if_neg replaced, lookup_cons, lookup_cons, ih]
      by_cases here : other = name
      · subst here
        simp [Ne.symm replaced]
      · simp [here]

theorem file?_cons_directory (entries : List (String × DiskNode)) (name : String)
    (names : List String) :
    (directory entries).file? (name :: names) =
      if nameLimit < name.utf8ByteSize then none
      else (entries.lookup name).bind (·.file? names) := by
  unfold file?
  rw [find, entry?]
  by_cases long : nameLimit < name.utf8ByteSize
  · simp [long]
  · simp only [long, ↓reduceIte]
    cases entries.lookup name <;> rfl

private theorem file?_empty (names : List String) : (directory []).file? names = none := by
  cases names with
  | nil => rfl
  | cons name names =>
    rw [file?_cons_directory]
    split <;> rfl

/-- Directories that are made hold no files. -/
theorem file?_makeDirectories (node : DiskNode) (names others : List String) :
    (node.makeDirectories names).1.file? others = node.file? others := by
  induction names generalizing node others with
  | nil => cases node <;> rfl
  | cons name names ih =>
    cases node with
    | file bytes => rfl
    | directory entries =>
      rw [makeDirectories, entry?]
      by_cases long : nameLimit < name.utf8ByteSize
      · rw [if_pos long]
      rw [if_neg long]
      cases others with
      | nil => rfl
      | cons other others =>
        rw [file?_cons_directory, file?_cons_directory, lookup_setEntry]
        by_cases here : other = name
        · subst here
          rw [if_pos rfl]
          cases entries.lookup other <;> simp [ih, file?_empty]
        · rw [if_neg here]

/-- A file is put into a directory through an entry that is there, or as a new one. -/
theorem putFile_cons {entries : List (String × DiskNode)} {later : DiskNode}
    {bytes : ByteArray} {name : String} {names : List String}
    (put : (directory entries).putFile bytes (name :: names) = .ok later) :
    ¬nameLimit < name.utf8ByteSize ∧
      ((∃ inner inner', entries.lookup name = some inner ∧ inner.putFile bytes names = .ok inner' ∧
          later = directory (setEntry name inner' entries)) ∨
        entries.lookup name = none ∧ names = [] ∧
          later = directory (setEntry name (file bytes) entries)) := by
  rw [putFile, entry?] at put
  by_cases long : nameLimit < name.utf8ByteSize
  · rw [if_pos long] at put
    cases put
  refine ⟨long, ?_⟩
  rw [if_neg long] at put
  cases found : entries.lookup name with
  | some inner =>
    rw [found] at put
    cases placed : inner.putFile bytes names with
    | error error =>
      simp only [bind, Except.bind, placed] at put
      cases put
    | ok inner' =>
      simp only [bind, Except.bind, placed] at put
      cases put
      exact .inl ⟨inner, inner', rfl, placed, rfl⟩
  | none =>
    rw [found] at put
    cases names with
    | nil =>
      cases put
      exact .inr ⟨rfl, rfl, rfl⟩
    | cons => cases put

/-- A file that is put somewhere is found there, and all other files stay. -/
theorem file?_of_putFile {node later : DiskNode} {bytes : ByteArray} {names : List String}
    (put : node.putFile bytes names = .ok later) (others : List String) :
    later.file? others = if others = names then some bytes else node.file? others := by
  induction names generalizing node later others with
  | nil =>
    cases node with
    | directory entries => cases put
    | file old =>
      cases put
      cases others <;> rfl
  | cons name names ih =>
    cases node with
    | file old => cases put
    | directory entries =>
      obtain ⟨short, ⟨inner, inner', found, placed, rfl⟩ | ⟨found, rfl, rfl⟩⟩ := putFile_cons put
      all_goals
        cases others with
        | nil => rfl
        | cons other others =>
          rw [file?_cons_directory, file?_cons_directory, lookup_setEntry]
          by_cases here : other = name
          · subst here
            simp only [short, ↓reduceIte, found, List.cons.injEq, true_and, Option.bind_some,
              Option.bind_none]
            first
              | exact ih placed others
              | cases others <;> rfl
          · simp [here]

private theorem lookup_filter_ne (name other : String) (entries : List (String × DiskNode)) :
    (entries.filter (·.1 ≠ name)).lookup other =
      if other = name then none else entries.lookup other := by
  induction entries with
  | nil => simp
  | cons entry rest ih =>
    obtain ⟨first, node⟩ := entry
    rw [List.filter_cons, lookup_cons]
    by_cases gone : first = name
    · subst gone
      rw [if_neg (by simp), ih]
      by_cases here : other = first
      · rw [if_pos here, if_pos here]
      · rw [if_neg here, if_neg here, if_neg here]
    · rw [if_pos (by simpa using gone), lookup_cons, ih]
      by_cases here : other = first
      · subst here
        rw [if_pos rfl, if_neg gone, if_pos rfl]
      · rw [if_neg here, if_neg here]

/-- An entry that is a file is dropped from its directory, or a file is dropped further inside. -/
private theorem dropFile_cons {entries : List (String × DiskNode)} {later : DiskNode}
    {name : String} {names : List String}
    (dropped : (directory entries).dropFile (name :: names) = .ok later) :
    (names = [] ∧ (∃ bytes, entries.lookup name = some (file bytes)) ∧
        later = directory (entries.filter (·.1 ≠ name))) ∨
      ∃ inner inner', entries.lookup name = some inner ∧ inner.dropFile names = .ok inner' ∧
        later = directory (setEntry name inner' entries) := by
  have inside {inner : DiskNode} (found : entries.lookup name = some inner)
      (dropped : (do return directory (setEntry name (← inner.dropFile names) entries) :
        Except DiskError DiskNode) = .ok later) :
      ∃ inner inner', entries.lookup name = some inner ∧ inner.dropFile names = .ok inner' ∧
        later = directory (setEntry name inner' entries) := by
    cases kept : inner.dropFile names with
    | error error =>
      rw [kept] at dropped
      cases dropped
    | ok inner' =>
      rw [kept] at dropped
      cases dropped
      exact ⟨inner, inner', found, kept, rfl⟩
  rw [dropFile.eq_def] at dropped
  cases found : entries.lookup name with
  | none =>
    simp only [found] at dropped
    cases dropped
  | some inner =>
    simp only [found] at dropped
    cases inner with
    | directory others => exact .inr (found ▸ inside found dropped)
    | file bytes =>
      cases names with
      | cons next names => exact .inr (found ▸ inside found dropped)
      | nil =>
        cases dropped
        exact .inl ⟨rfl, ⟨bytes, rfl⟩, rfl⟩

/-- A file that is dropped is gone, and all other files stay. -/
theorem file?_of_dropFile {node later : DiskNode} {names : List String}
    (dropped : node.dropFile names = .ok later) (others : List String) :
    later.file? others = if others = names then none else node.file? others := by
  induction names generalizing node later others with
  | nil => cases dropped
  | cons name names ih =>
    cases node with
    | file bytes => cases dropped
    | directory entries =>
      obtain ⟨rfl, ⟨bytes, found⟩, rfl⟩ | ⟨inner, inner', found, kept, rfl⟩ :=
        dropFile_cons dropped
      all_goals
        cases others with
        | nil => rfl
        | cons other others =>
          rw [file?_cons_directory, file?_cons_directory]
          first
            | rw [lookup_filter_ne]
            | rw [lookup_setEntry]
          by_cases here : other = name
          · subst here
            rw [if_pos rfl, found]
            simp only [List.cons.injEq, true_and, Option.bind_some, Option.bind_none]
            first
              | exact (congrArg _ (ih kept others)).trans (by split <;> split <;> rfl)
              | cases others <;> simp [file?, find]
          · simp [here]

end DiskNode

namespace LocalTree

/-- The bytes of a file. -/
def stored? (tree : LocalTree) (p : Path) : Option ByteArray :=
  (checkedNames (tree.resolve p)).toOption.bind tree.root.file?

theorem stored?_makeDirectory (tree : LocalTree) (directory : Path) :
    (tree.makeDirectory directory).1.stored? = tree.stored? := by
  funext p
  unfold makeDirectory
  cases checkedNames directory with
  | error error => rfl
  | ok names =>
    unfold stored? resolve
    dsimp only
    congr 1
    funext others
    exact DiskNode.file?_makeDirectories ..

theorem names_of_checkedNames {p : Path} {names' : List String}
    (checked : checkedNames p = .ok names') : names' = names p := by
  unfold checkedNames at checked
  dsimp only at checked
  split at checked
  · cases checked
  · split at checked
    · cases checked
    · cases checked
      rfl

theorem current_makeDirectory (tree : LocalTree) (path : Path) :
    (tree.makeDirectory path).1.current = tree.current := by
  unfold makeDirectory
  split <;> rfl

/-- A file that is moved to its place needs names there. -/
theorem exists_of_place {tree later : LocalTree} {path : Path} {bytes : ByteArray}
    (placed : tree.place path bytes = .ok later) :
    ∃ root, checkedNames path = .ok (names path) ∧
      tree.root.putFile bytes (names path) = .ok root ∧ later = { tree with root := root } := by
  unfold place at placed
  cases checked : checkedNames path with
  | error error =>
    rw [checked] at placed
    cases placed
  | ok names' =>
    obtain rfl := names_of_checkedNames checked
    rw [checked] at placed
    replace placed : (tree.root.putFile bytes (names path) >>= fun root =>
        pure { tree with root := root }) = .ok later := placed
    cases put : tree.root.putFile bytes (names path) with
    | error error =>
      rw [put] at placed
      cases placed
    | ok root =>
      rw [put] at placed
      cases placed
      exact ⟨root, rfl, rfl, rfl⟩

/-- A write fails and changes no file, or it succeeds and changes what its place holds. -/
theorem write_spec (tree : LocalTree) (p : Path) (text : String) :
    (tree.write p text).1.current = tree.current ∧
      ((tree.write p text).2 ≠ none ∧ (tree.write p text).1.stored? = tree.stored? ∨
        (checkedNames (tree.resolve p)).toOption.isSome ∧
          ∀ q, (tree.write p text).1.stored? q =
            if names (tree.resolve q) = names (tree.resolve p) then
              (checkedNames (tree.resolve q)).toOption.map fun _ => text.toUTF8
            else tree.stored? q) := by
  unfold write
  dsimp only
  generalize ((tree.resolve p).parent?.filter fun parent => !parent.isEmpty).getD tree.current =
    directory
  have kept := tree.stored?_makeDirectory directory
  have current := tree.current_makeDirectory directory
  revert kept current
  cases tree.makeDirectory directory with
  | mk middle failed =>
  intro kept current
  dsimp only at kept current
  cases failed with
  | some error => exact ⟨current, .inl ⟨by simp, kept⟩⟩
  | none =>
    dsimp only
    cases placed : middle.place (tree.resolve p) text.toUTF8 with
    | error error => exact ⟨current, .inl ⟨by simp, kept⟩⟩
    | ok later =>
      obtain ⟨root, checked, put, rfl⟩ := exists_of_place placed
      refine ⟨current, .inr ⟨by rw [checked]; rfl, fun q => ?_⟩⟩
      have resolved : ({ middle with root := root } : LocalTree).resolve q = tree.resolve q :=
        congrArg q.resolveFrom current
      have before : middle.resolve q = tree.resolve q := congrArg q.resolveFrom current
      rw [← kept]
      unfold stored?
      rw [resolved, before]
      cases asked : checkedNames (tree.resolve q) with
      | error error => simp [Except.toOption]
      | ok others =>
        obtain rfl := names_of_checkedNames asked
        exact DiskNode.file?_of_putFile put _

/-- Removing a file changes what its place holds. -/
theorem remove_spec {tree later : LocalTree} {p : Path} (removed : tree.remove p = some later) :
    later.current = tree.current ∧ ∀ q, later.stored? q =
      if names (tree.resolve q) = names (tree.resolve p) then none else tree.stored? q := by
  unfold remove at removed
  split at removed
  · next root dropped =>
    cases removed
    refine ⟨rfl, fun q => ?_⟩
    have resolved : ({ tree with root := root } : LocalTree).resolve q = tree.resolve q := rfl
    unfold stored?
    rw [resolved]
    cases asked : checkedNames (tree.resolve q) with
    | error error => simp [Except.toOption]
    | ok others =>
      obtain rfl := names_of_checkedNames asked
      exact DiskNode.file?_of_dropFile dropped _
  · cases removed

end LocalTree

/-- A text without a byte order mark in front. -/
def unmarked (text : String) : String :=
  match text.toList with
  | c :: cs => if c = OutputFile.bom then String.ofList cs else text
  | [] => text

namespace System

/-- The bytes of a file. -/
def stored? : System → Path → Option ByteArray
  | memory tree, p => (tree.file? p).map String.toUTF8
  | disk tree, p => tree.stored? p

/-- Whether two paths name one place. The root of a disk has no directory above it. -/
def samePlace (system : System) (p q : Path) : Bool :=
  match system with
  | memory _ => (system.resolve p).same (system.resolve q)
  | disk _ => LocalTree.names (system.resolve p) == LocalTree.names (system.resolve q)

/-- What reading makes of a stored text: a disk leaves a byte order mark out. -/
def decoded : System → String → String
  | memory _, text => text
  | disk _, text => unmarked text

/-- Systems of one kind that are seen from one directory. -/
structure Like (a b : System) : Prop where
  current : a.current = b.current
  supportsWatch : a.supportsWatch = b.supportsWatch
  samePlace : a.samePlace = b.samePlace
  decoded : a.decoded = b.decoded

theorem Like.refl (system : System) : system.Like system := ⟨rfl, rfl, rfl, rfl⟩

theorem Like.trans {a b c : System} (first : a.Like b) (second : b.Like c) : a.Like c :=
  ⟨first.current.trans second.current, first.supportsWatch.trans second.supportsWatch,
    first.samePlace.trans second.samePlace, first.decoded.trans second.decoded⟩

theorem Like.resolve {a b : System} (like : a.Like b) (p : Path) : a.resolve p = b.resolve p := by
  unfold System.resolve
  rw [like.current]

@[simp] theorem samePlace_self (system : System) (p : Path) : system.samePlace p p = true := by
  cases system <;> simp [samePlace]

theorem samePlace_comm (system : System) (p q : Path) :
    system.samePlace p q = system.samePlace q p := by
  cases system with
  | memory tree => exact Bool.eq_iff_iff.mpr ⟨Path.same_symm, Path.same_symm⟩
  | disk tree => exact Bool.beq_comm

/-- Paths that name one place are at one place with every other path. -/
theorem samePlace_congr {system : System} {p q : Path} (same : system.samePlace p q = true)
    (r : Path) : system.samePlace r p = system.samePlace r q := by
  cases system with
  | memory tree => exact Path.same_congr_right same _
  | disk tree =>
    unfold samePlace
    dsimp only
    rw [beq_iff_eq.mp same]

/-- Closing watchers touches no file. -/
theorem closeAll_spec (system : System) (watchers : List Nat) :
    (watchers.foldl close system).Like system ∧
      (watchers.foldl close system).stored? = system.stored? := by
  induction watchers generalizing system with
  | nil => exact ⟨.refl _, rfl⟩
  | cons watcher watchers ih =>
    obtain ⟨like, stored⟩ := ih (system.close watcher)
    have one : (system.close watcher).Like system ∧
        (system.close watcher).stored? = system.stored? := by
      cases system <;> exact ⟨⟨rfl, rfl, rfl, rfl⟩, rfl⟩
    exact ⟨like.trans one.1, stored.trans one.2⟩

private theorem fromUTF8?_eq_some_iff {bytes : ByteArray} {text : String} :
    String.fromUTF8? bytes = some text ↔ bytes = text.toUTF8 := by
  unfold String.fromUTF8? String.toUTF8
  constructor
  · intro valid
    split at valid
    · cases valid
      rfl
    · cases valid
  · rintro rfl
    rw [dif_pos text.isValidUTF8]
    rfl

theorem read_eq_ok_iff {system : System} {p : Path} {source : String} :
    system.read p = .ok source ↔
      ∃ text, system.stored? p = some text.toUTF8 ∧ source = system.decoded text := by
  cases system with
  | memory tree =>
    change tree.read p = _ ↔ ∃ text, (tree.file? p).map String.toUTF8 = _ ∧ source = text
    unfold MemoryTree.read
    cases tree.file? p with
    | none => simp
    | some stored => simp [String.toUTF8, String.toByteArray_inj, eq_comm]
  | disk tree =>
    change tree.read p = _ ↔ ∃ text, tree.stored? p = _ ∧ source = unmarked text
    unfold LocalTree.read LocalTree.stored? LocalTree.find
    cases LocalTree.checkedNames (tree.resolve p) with
    | error error => simp [Except.toOption, bind, Except.bind]
    | ok names =>
      simp only [Except.toOption, bind, Except.bind, DiskNode.file?, Option.bind_some]
      cases tree.root.find names with
      | error error => simp
      | ok node =>
        cases node with
        | directory entries => simp
        | file bytes =>
          dsimp only
          cases text : String.fromUTF8? bytes with
          | none =>
            have never (text' : String) : some bytes ≠ some text'.toUTF8 := fun same => by
              rw [fromUTF8?_eq_some_iff.mpr (Option.some.inj same)] at text
              cases text
            exact iff_of_false (by simp) fun ⟨text', same, _⟩ => never text' same
          | some text =>
            rw [fromUTF8?_eq_some_iff] at text
            subst text
            simp only [Option.some.injEq, String.toUTF8, String.toByteArray_inj, exists_eq_left']
            unfold unmarked
            cases text.toList <;> simp [eq_comm]

/-- Files with the same bytes are read alike. -/
theorem read_congr {a b : System} (like : a.Like b) {p : Path} (same : a.stored? p = b.stored? p)
    {source : String} : a.read p = .ok source ↔ b.read p = .ok source := by
  rw [read_eq_ok_iff, read_eq_ok_iff, same, like.decoded]

theorem fileExists_eq (system : System) (p : Path) :
    system.fileExists p = (system.stored? p).isSome := by
  cases system with
  | memory tree => simp [fileExists, MemoryTree.fileExists, stored?]
  | disk tree =>
    change tree.fileExists p = (tree.stored? p).isSome
    unfold LocalTree.fileExists LocalTree.stored? LocalTree.find
    cases LocalTree.checkedNames (tree.resolve p) with
    | error error => rfl
    | ok names =>
      simp only [Except.toOption, bind, Except.bind, DiskNode.file?, Option.bind_some]
      cases tree.root.find names with
      | error error => rfl
      | ok node => cases node <;> rfl

/-- The place of a path depends on the current directory only. -/
private theorem like_disk {a b : LocalTree} (current : a.current = b.current) :
    (disk a).Like (disk b) := by
  have resolve (p : Path) : (disk a).resolve p = (disk b).resolve p :=
    congrArg p.resolveFrom current
  refine ⟨current, rfl, ?_, rfl⟩
  funext p q
  simp [samePlace, resolve]

theorem like_write (system : System) (p : Path) (text : String) :
    (system.write p text).1.Like system := by
  cases system with
  | memory tree => exact ⟨rfl, rfl, rfl, rfl⟩
  | disk tree => exact like_disk (tree.write_spec p text).1

private theorem memory_write (tree : MemoryTree) (p q : Path) (text : String) :
    ((memory tree).write p text).1.stored? q =
      if (memory tree).samePlace q p then some text.toUTF8 else (memory tree).stored? q := by
  have found := PathMap.get?_insert tree.files (tree.resolve q) (tree.resolve p) text
  change ((tree.files.insert (tree.resolve p) text).get? (tree.resolve q)).map String.toUTF8 =
    if (tree.resolve q).same (tree.resolve p) then _ else _
  rw [found]
  split <;> rfl

/-- What is stored elsewhere stays, whether the write succeeds or not. -/
theorem stored?_write_of_apart (system : System) {p q : Path} (text : String)
    (apart : system.samePlace q p = false) :
    (system.write p text).1.stored? q = system.stored? q := by
  cases system with
  | memory tree => rw [memory_write, apart, if_neg Bool.false_ne_true]
  | disk tree =>
    obtain ⟨_, ⟨_, kept⟩ | ⟨_, changed⟩⟩ := tree.write_spec p text
    · exact congrFun kept q
    · exact (changed q).trans (if_neg (beq_eq_false_iff_ne.mp apart))

theorem stored?_write {system : System} {p : Path} {text : String}
    (written : (system.write p text).2 = none) :
    (system.write p text).1.stored? p = some text.toUTF8 := by
  cases system with
  | memory tree => rw [memory_write, samePlace_self, if_pos rfl]
  | disk tree =>
    obtain ⟨_, ⟨failed, _⟩ | ⟨asked, changed⟩⟩ := tree.write_spec p text
    · exact absurd written failed
    · obtain ⟨names, asked⟩ := Option.isSome_iff_exists.mp asked
      exact (changed p).trans (by rw [if_pos rfl, asked]; rfl)

/-- What is stored behind a write is the text that was written, or it was stored before. -/
theorem stored?_write_or (system : System) (p q : Path) (text : String) :
    (system.write p text).1.stored? q = some text.toUTF8 ∨
      (system.write p text).1.stored? q = system.stored? q := by
  cases system with
  | memory tree =>
    rw [memory_write]
    split
    · exact .inl rfl
    · exact .inr rfl
  | disk tree =>
    obtain ⟨_, ⟨_, kept⟩ | ⟨_, changed⟩⟩ := tree.write_spec p text
    · exact .inr (congrFun kept q)
    · have now := changed q
      split at now
      · change (tree.write p text).1.stored? q = _ ∨
          (tree.write p text).1.stored? q = tree.stored? q
        rw [now]
        unfold LocalTree.stored?
        cases LocalTree.checkedNames (tree.resolve q) with
        | error error => exact .inr rfl
        | ok names => exact .inl rfl
      · exact .inr now

/-- Opening a watcher changes no file. -/
theorem watch_eq_ok {system next : System} {path watched : Path} {number : Nat}
    (opened : system.watch path = .ok (number, watched, next)) :
    watched = system.resolve path ∧ next.Like system ∧ next.stored? = system.stored? := by
  cases system with
  | memory tree =>
    unfold watch MemoryTree.watch at opened
    dsimp only at opened
    split at opened
    · cases opened
      exact ⟨rfl, ⟨rfl, rfl, rfl, rfl⟩, rfl⟩
    · cases opened
  | disk tree =>
    cases opened
    exact ⟨rfl, .refl _, rfl⟩

end System

/-- An edit of a file. -/
inductive Edit where
  | write (path : Path) (text : String)
  | remove (path : Path)
deriving DecidableEq, Repr, Inhabited

namespace Edit

/-- The file that is edited. -/
def path : Edit → Path
  | write path _ => path
  | remove path => path

/-- The files after an edit. One that fails may leave directories behind. -/
def run : Edit → System → System
  | write path text, system => (system.write path text).1
  | remove path, .memory tree => .memory (tree.remove path)
  | remove path, .disk tree => .disk ((tree.remove path).getD tree)

theorem like_run (edit : Edit) (system : System) : (edit.run system).Like system := by
  cases edit with
  | write path text => exact System.like_write ..
  | remove path =>
    cases system with
    | memory tree => exact ⟨rfl, rfl, rfl, rfl⟩
    | disk tree =>
      change (System.disk _).Like _
      cases removed : tree.remove path with
      | none => exact .refl _
      | some later => exact System.like_disk (LocalTree.remove_spec removed).1

private theorem stored?_remove_of_same (path : Path) (system : System) (q : Path) :
    ((remove path).run system).stored? q = system.stored? q ∨
      system.samePlace q path = true ∧ ((remove path).run system).stored? q = none := by
  cases system with
  | memory tree =>
    have found := PathMap.get?_erase tree.files (tree.resolve q) (tree.resolve path)
    change ((tree.files.erase (tree.resolve path)).get? (tree.resolve q)).map String.toUTF8 =
      (tree.files.get? (tree.resolve q)).map String.toUTF8 ∨
        (tree.resolve q).same (tree.resolve path) = true ∧
          ((tree.files.erase (tree.resolve path)).get? (tree.resolve q)).map String.toUTF8 = none
    rw [found]
    cases same : (tree.resolve q).same (tree.resolve path) with
    | true => exact .inr ⟨rfl, rfl⟩
    | false => exact .inl rfl
  | disk tree =>
    change ((tree.remove path).getD tree).stored? q = tree.stored? q ∨
      (LocalTree.names (tree.resolve q) == LocalTree.names (tree.resolve path)) = true ∧
        ((tree.remove path).getD tree).stored? q = none
    cases removed : tree.remove path with
    | none => exact .inl rfl
    | some later =>
      have changed := (LocalTree.remove_spec removed).2 q
      split at changed
      · next same => exact .inr ⟨beq_iff_eq.mpr same, changed⟩
      · exact .inl changed

/-- What is stored elsewhere stays. -/
theorem stored?_run_of_apart (edit : Edit) (system : System) {q : Path}
    (apart : system.samePlace q edit.path = false) :
    (edit.run system).stored? q = system.stored? q := by
  cases edit with
  | write path text => exact System.stored?_write_of_apart system text apart
  | remove path =>
    rcases stored?_remove_of_same path system q with kept | ⟨same, _⟩
    · exact kept
    · exact absurd (same.symm.trans apart) Bool.noConfusion

/-- What is read behind an edit was read before it, or is what it wrote. -/
theorem read_run {edit : Edit} {system : System} {q : Path} {source : String}
    (read : (edit.run system).read q = .ok source) :
    system.read q = .ok source ∨
      ∃ path text, edit = .write path text ∧ source = system.decoded text := by
  cases edit with
  | write path text =>
    rcases system.stored?_write_or path q text with written | kept
    · obtain ⟨stored, found, rfl⟩ := System.read_eq_ok_iff.mp read
      obtain rfl : text = stored := by
        have bytes := Option.some.inj (written.symm.trans found)
        exact String.toByteArray_inj.mp bytes
      exact .inr ⟨path, text, rfl, congrFun (system.like_write path text).decoded text⟩
    · exact .inl ((System.read_congr (system.like_write path text) kept).mp read)
  | remove path =>
    rcases stored?_remove_of_same path system q with kept | ⟨_, gone⟩
    · exact .inl ((System.read_congr (like_run (.remove path) system) kept).mp read)
    · obtain ⟨_, found, _⟩ := System.read_eq_ok_iff.mp read
      cases gone.symm.trans found

end Edit

end Recast.Files
