import Recast.Proofs.Files.Places
import Recast.Proofs.Path.Order
import Recast.Proofs.Path.Outputs

/-! # Writing files one after the other

Files that are written one after the other change what is stored at their places and nothing else:
of several at one place the last one stays, and the only directories that come about lead to the
files (`Written`). Watchers are no part of this, so all of it is said of a system without them.
-/

namespace Recast

/-- The text as it is written: behind a byte order mark, if there is to be one. -/
theorem OutputFile.diskText_eq (file : OutputFile) :
    file.diskText = (if file.writeBom then "\ufeff" else "") ++ file.text := by
  unfold diskText
  cases file.writeBom with
  | false => simp
  | true =>
    rw [if_pos rfl, if_pos rfl, String.ofList_cons, String.ofList_toList]
    rfl

namespace Files

namespace DiskNode

/-- Whether a directory is at the end of a list of names. -/
def hasDirectory (node : DiskNode) (names : List String) : Bool :=
  match node.find names with
  | .ok (directory _) => true
  | _ => false

theorem hasDirectory_cons (entries : List (String × DiskNode)) (name : String)
    (names : List String) :
    (directory entries).hasDirectory (name :: names) =
      if nameLimit < name.utf8ByteSize then false
      else (entries.lookup name).any (·.hasDirectory names) := by
  unfold hasDirectory
  rw [find, entry?]
  by_cases long : nameLimit < name.utf8ByteSize
  · simp [long]
  · simp only [long, ↓reduceIte]
    cases entries.lookup name <;> rfl

private theorem eq_nil_of_hasDirectory_empty {names : List String}
    (found : (directory []).hasDirectory names = true) : names = [] := by
  cases names with
  | nil => rfl
  | cons name names =>
    rw [hasDirectory_cons] at found
    split at found <;> cases found

/-- Directories are made on the way that is asked for, and all others stay as they are. -/
theorem hasDirectory_makeDirectories (node : DiskNode) (names others : List String) :
    (node.hasDirectory others = true → (node.makeDirectories names).1.hasDirectory others = true) ∧
      ((node.makeDirectories names).1.hasDirectory others = true →
        node.hasDirectory others = true ∨ others <+: names) := by
  induction names generalizing node others with
  | nil => cases node <;> exact ⟨id, .inl⟩
  | cons name names ih =>
    cases node with
    | file bytes => exact ⟨id, .inl⟩
    | directory entries =>
      rw [makeDirectories, entry?]
      by_cases long : nameLimit < name.utf8ByteSize
      · rw [if_pos long]
        exact ⟨id, .inl⟩
      rw [if_neg long]
      cases others with
      | nil => exact ⟨fun _ => rfl, fun _ => .inl rfl⟩
      | cons other others =>
        rw [hasDirectory_cons, hasDirectory_cons, lookup_setEntry]
        by_cases here : other = name
        · subst here
          rw [if_pos rfl, if_neg long, if_neg long, Option.any_some]
          cases entries.lookup other with
          | some inner =>
            obtain ⟨kept, made⟩ := ih inner others
            exact ⟨kept, fun found => (made found).imp_right (List.prefix_cons_inj other).mpr⟩
          | none =>
            refine ⟨fun found => absurd found Bool.false_ne_true, fun found =>
              .inr ((List.prefix_cons_inj other).mpr ?_)⟩
            rcases (ih (directory []) others).2 found with empty | onWay
            · rw [eq_nil_of_hasDirectory_empty empty]
              exact List.nil_prefix
            · exact onWay
        · rw [if_neg here]
          exact ⟨id, .inl⟩

/-- Where directories can be made, there is one already. -/
theorem isDirectory_of_makeDirectories {node : DiskNode} {names : List String}
    (made : (node.makeDirectories names).2 = none) :
    (node.makeDirectories names).1.isDirectory = true := by
  cases names with
  | nil =>
    cases node with
    | file bytes => cases made
    | directory entries => rfl
  | cons name names =>
    cases node with
    | file bytes => cases made
    | directory entries =>
      rw [makeDirectories]
      cases entry? entries name <;> rfl

/-- A file that is put somewhere makes no directory and replaces none. -/
theorem hasDirectory_of_putFile {node later : DiskNode} {bytes : ByteArray} {names : List String}
    (put : node.putFile bytes names = .ok later) (others : List String) :
    later.hasDirectory others = node.hasDirectory others := by
  induction names generalizing node later others with
  | nil =>
    cases node with
    | directory entries => cases put
    | file old =>
      cases put
      cases others <;> rfl
  | cons name names ih =>
    cases node with
    | file old => cases put
    | directory entries =>
      obtain ⟨_, ⟨inner, inner', found, placed, rfl⟩ | ⟨found, rfl, rfl⟩⟩ := putFile_cons put
      all_goals
        cases others with
        | nil => rfl
        | cons other others =>
          rw [hasDirectory_cons, hasDirectory_cons, lookup_setEntry]
          by_cases here : other = name
          · subst here
            rw [if_pos rfl, found]
            simp only [Option.any_some, Option.any_none]
            first
              | rw [ih placed others]
              | cases others <;> rfl
          · rw [if_neg here]

end DiskNode

namespace LocalTree

theorem directoryExists_eq (tree : LocalTree) (p : Path) :
    tree.directoryExists p =
      (checkedNames (tree.resolve p)).toOption.any tree.root.hasDirectory := by
  unfold directoryExists find
  cases checkedNames (tree.resolve p) <;> rfl

/-- With another root, a tree has the directories of that root. -/
private theorem directoryExists_withRoot (tree : LocalTree) (root : DiskNode) (p : Path) :
    ({ tree with root := root } : LocalTree).directoryExists p =
      (checkedNames (tree.resolve p)).toOption.any root.hasDirectory :=
  directoryExists_eq ..

theorem directoryExists_makeDirectory (tree : LocalTree) (directory q : Path) :
    (tree.directoryExists q = true → (tree.makeDirectory directory).1.directoryExists q = true) ∧
      ((tree.makeDirectory directory).1.directoryExists q = true →
        tree.directoryExists q = true ∨ names (tree.resolve q) <+: names directory) := by
  unfold makeDirectory
  cases checked : checkedNames directory with
  | error error => exact ⟨id, .inl⟩
  | ok names' =>
    obtain rfl := names_of_checkedNames checked
    dsimp only
    rw [tree.directoryExists_eq, directoryExists_withRoot]
    cases asked : checkedNames (tree.resolve q) with
    | error error => exact ⟨id, .inl⟩
    | ok others =>
      obtain rfl := names_of_checkedNames asked
      exact DiskNode.hasDirectory_makeDirectories ..

/-- The directory that is made before a file is written. -/
private def directoryFor (tree : LocalTree) (p : Path) : Path :=
  ((tree.resolve p).parent?.filter fun parent => !parent.isEmpty).getD tree.current

/-- Behind a write that succeeds its directory is made, and its file was put there. -/
private theorem exists_of_write {tree : LocalTree} {p : Path} {text : String}
    (written : (tree.write p text).2 = none) :
    (tree.makeDirectory (tree.directoryFor p)).2 = none ∧ ∃ root,
      (tree.makeDirectory (tree.directoryFor p)).1.root.putFile text.toUTF8
          (names (tree.resolve p)) = .ok root ∧
        (tree.write p text).1 =
          { (tree.makeDirectory (tree.directoryFor p)).1 with root := root } := by
  unfold directoryFor
  unfold write at written ⊢
  dsimp only at written ⊢
  generalize
    ((tree.resolve p).parent?.filter fun parent => !parent.isEmpty).getD tree.current = directory
    at written ⊢
  generalize tree.makeDirectory directory = made at written ⊢
  obtain ⟨middle, _ | error⟩ := made
  · dsimp only at written ⊢
    cases placed : middle.place (tree.resolve p) text.toUTF8 with
    | error error =>
      rw [placed] at written
      cases written
    | ok later =>
      obtain ⟨root, _, put, rfl⟩ := exists_of_place placed
      exact ⟨rfl, root, put, rfl⟩
  · cases written

/-- Where a directory is made, there is one at the root. -/
private theorem isDirectory_of_makeDirectory {tree : LocalTree} {directory : Path}
    (made : (tree.makeDirectory directory).2 = none) :
    (tree.makeDirectory directory).1.root.isDirectory = true := by
  revert made
  unfold makeDirectory
  cases checkedNames directory with
  | error error => exact nofun
  | ok names => exact DiskNode.isDirectory_of_makeDirectories

/-- The directory of a file that can be written lies on the way to it. -/
private theorem names_directoryFor_isPrefix {tree : LocalTree} {p : Path}
    (absolute : tree.current.rooted = true) (named : names (tree.resolve p) ≠ []) :
    names (tree.directoryFor p) <+: names (tree.resolve p) := by
  have normal : (tree.resolve p).IsNormal := Path.isNormal_resolveFrom p _
  have absolute : (tree.resolve p).rooted = true := Path.rooted_resolveFrom p absolute
  rw [directoryFor, normal.parent?]
  cases spelled : (tree.resolve p).segments with
  | nil =>
    rw [names, spelled] at named
    exact absurd rfl named
  | cons first rest =>
    rw [List.isEmpty_cons, if_neg Bool.false_ne_true, Option.filter_some, Path.isEmpty, absolute]
    rw [names, names, spelled]
    exact (List.dropLast_prefix _).filter _

/-- A write that succeeds makes the directories on the way to its file, and no others. -/
theorem directoryExists_write {tree : LocalTree} {p : Path} {text : String}
    (written : (tree.write p text).2 = none) (q : Path) :
    (tree.directoryExists q = true → (tree.write p text).1.directoryExists q = true) ∧
      (tree.current.rooted = true → (tree.write p text).1.directoryExists q = true →
        tree.directoryExists q = true ∨ names (tree.resolve q) <+: names (tree.resolve p)) := by
  obtain ⟨made, root, put, after⟩ := exists_of_write written
  obtain ⟨kept, new⟩ := tree.directoryExists_makeDirectory (tree.directoryFor p) q
  have isDirectory := isDirectory_of_makeDirectory made
  have same : (tree.write p text).1.directoryExists q =
      (tree.makeDirectory (tree.directoryFor p)).1.directoryExists q := by
    rw [after, directoryExists_withRoot, directoryExists_eq]
    exact congrArg (Option.any · _) (funext (DiskNode.hasDirectory_of_putFile put))
  rw [same]
  refine ⟨kept, fun absolute found => (new found).imp_right fun below => ?_⟩
  have named : names (tree.resolve p) ≠ [] := by
    intro none
    rw [none] at put
    cases top : (tree.makeDirectory (tree.directoryFor p)).1.root with
    | file bytes =>
      rw [top] at isDirectory
      cases isDirectory
    | directory entries =>
      rw [top] at put
      cases put
  exact below.trans (names_directoryFor_isPrefix absolute named)

end LocalTree

/-- A file in memory implies the directories above it. -/
theorem MemoryTree.directoryExists_write (tree : MemoryTree) (p q : Path) (text : String) :
    (tree.directoryExists q = true → (tree.write p text).directoryExists q = true) ∧
      ((tree.write p text).directoryExists q = true →
        tree.directoryExists q = true ∨ (tree.resolve p).startsWith (tree.resolve q) = true) := by
  have keys := tree.files.mem_keys_insert (tree.resolve p) text
  unfold directoryExists
  simp only [List.any_eq_true]
  constructor
  · rintro ⟨file, member, below⟩
    exact ⟨file, (keys file).1 member, below⟩
  · rintro ⟨file, member, below⟩
    rcases (keys file).2 member with rfl | old
    · exact .inr (Bool.and_eq_true_iff.mp below).2
    · exact .inl ⟨file, old, below⟩

namespace System

/-- The system without the watchers that were opened. -/
def unwatched : System → System
  | memory tree => memory { tree with watchers := [] }
  | disk tree => disk tree

/-- Whether the place of a path is that of another one, or above it. -/
def isAbove (system : System) (q p : Path) : Bool :=
  match system with
  | memory _ => (system.resolve p).startsWith (system.resolve q)
  | disk _ => (LocalTree.names (system.resolve q)).isPrefixOf (LocalTree.names (system.resolve p))

/-- Writing neither sees nor touches watchers. -/
theorem write_unwatched (system : System) (p : Path) (text : String) :
    system.unwatched.write p text =
      ((system.write p text).1.unwatched, (system.write p text).2) := by
  cases system <;> rfl

theorem isAbove_write (system : System) (p : Path) (text : String) :
    (system.write p text).1.isAbove = system.isAbove := by
  cases system with
  | memory tree => rfl
  | disk tree =>
    have resolve (q : Path) : (tree.write p text).1.resolve q = tree.resolve q :=
      congrArg q.resolveFrom (tree.write_spec p text).1
    funext q q'
    change (LocalTree.names ((tree.write p text).1.resolve q)).isPrefixOf
      (LocalTree.names ((tree.write p text).1.resolve q')) = _
    rw [resolve, resolve]
    rfl

/-- A write that succeeds drops no directory, and makes those on the way to its file at most. -/
theorem directoryExists_write {system : System} {p : Path} {text : String}
    (written : (system.write p text).2 = none) (q : Path) :
    (system.directoryExists q = true → (system.write p text).1.directoryExists q = true) ∧
      (system.current.rooted = true → (system.write p text).1.directoryExists q = true →
        system.directoryExists q = true ∨ system.isAbove q p = true) := by
  cases system with
  | memory tree =>
    obtain ⟨kept, made⟩ := tree.directoryExists_write p q text
    exact ⟨kept, fun _ => made⟩
  | disk tree =>
    obtain ⟨kept, made⟩ := LocalTree.directoryExists_write written q
    exact ⟨kept, fun absolute found =>
      (made absolute found).imp_right List.isPrefixOf_iff_prefix.mpr⟩

/-- The system behind files that were written one after the other. -/
def writeAll (system : System) (files : List OutputFile) : System :=
  files.foldl (fun system file => (system.write file.name file.diskText).1) system

/-- What it does to write files one after the other. What is stored apart from their places stays.
Each file is stored as it is, unless one behind it has the same place. Directories stay too, and new
ones lead to the files. -/
structure Written (before : System) (files : List OutputFile) (after : System) : Prop where
  behind : after = before.writeAll files
  elsewhere : ∀ q, (∀ file ∈ files, before.samePlace q file.name = false) →
    after.stored? q = before.stored? q
  there : ∀ front file back, files = front ++ file :: back →
    (∀ other ∈ back, before.samePlace file.name other.name = false) →
    after.stored? file.name =
      some ((if file.writeBom then "\ufeff" else "") ++ file.text).toUTF8
  kept : ∀ q, before.directoryExists q = true → after.directoryExists q = true
  made : before.current.rooted = true → ∀ q, after.directoryExists q = true →
    before.directoryExists q = true ∨ ∃ file ∈ files, before.isAbove q file.name = true

namespace Written

variable {before after : System} {files : List OutputFile}

theorem nil (system : System) : Written system [] system where
  behind := rfl
  elsewhere _ _ := rfl
  there front file back whole := by simp at whole
  kept _ := id
  made _ _ := .inl

theorem cons {file : OutputFile} (written : (before.write file.name file.diskText).2 = none)
    (rest : Written (before.write file.name file.diskText).1 files after) :
    Written before (file :: files) after := by
  have like := before.like_write file.name file.diskText
  constructor
  case behind => exact rest.behind
  case elsewhere =>
    intro q apart
    obtain ⟨first, others⟩ := List.forall_mem_cons.mp apart
    rw [rest.elsewhere q (like.samePlace ▸ others), stored?_write_of_apart _ _ first]
  case there =>
    intro front other back whole last
    cases front with
    | nil =>
      cases whole
      rw [rest.elsewhere _ (like.samePlace ▸ last), stored?_write written, OutputFile.diskText_eq]
    | cons first front =>
      exact rest.there front other back (List.cons.inj whole).2 (like.samePlace ▸ last)
  case kept => exact fun q found => rest.kept q ((directoryExists_write written q).1 found)
  case made =>
    intro absolute q found
    rcases rest.made (like.current ▸ absolute) q found with first | ⟨other, member, above⟩
    · exact ((directoryExists_write written q).2 absolute first).imp_right fun above =>
        ⟨file, List.mem_cons_self .., above⟩
    · rw [isAbove_write] at above
      exact .inr ⟨other, List.mem_cons_of_mem _ member, above⟩

end Written

end System

end Files

end Recast
