import Recast.Addons.Banner
import Recast.Proofs.Build.Steps
import Recast.Proofs.Script.Commenting

/-! # Banners and what they mean

A banner is put in front of the scripts of a target as a comment line, and so is a comment in front of a
tree. What follows the first line break of the text is no part of that comment: it is read as it
stands. Hence scripts keep their meaning exactly if it consists of blanks and closed comments
(`added_comments_inert_iff`), and always if the text has one line only.
-/

namespace Recast.Addons.Banner

open Recast.Build Recast.Script

/-- The comment of a banner: its text with the name of the target in its place. -/
def commentOf (template? : Option String) (target : String) : String :=
  Text.replace "\x7btarget\x7d" target (template?.getD defaultText)

/-- The processor that puts a comment in front of scripts. -/
def processor (comment : String) : Processor :=
  fun _ path source => pure (apply (commentLine comment) path source)

/-- Whether only blanks and closed comments are read in a text that was made a comment line. -/
def ReadAsComment (comment : String) : Prop :=
  telling (lexemes (commentLine comment).toList) = []

instance (comment : String) : Decidable (ReadAsComment comment) :=
  inferInstanceAs (Decidable (_ = _))

/-- Behind its first line, a text must consist of blanks and closed comments. -/
theorem readAsComment_append_iff {first : String} (single : '\n' ∉ first.toList) (more : String) :
    ReadAsComment (first ++ "\n" ++ more) ↔ telling (lexemes (more ++ "\n").toList) = [] := by
  have unbroken : '\n' ∉ ' ' :: first.toList := by
    simpa using single
  have chars : (commentLine (first ++ "\n" ++ more)).toList =
      '/' :: '/' :: (' ' :: first.toList ++ '\n' :: (more ++ "\n").toList) := by
    simp [toList_commentLine]
  have blank : telling (lexemes ('\n' :: (more ++ "\n").toList)) =
      telling (lexemes (more ++ "\n").toList) :=
    telling_append_of_blank (show ['\n'].all Text.isBlank = true from rfl) _
  rw [ReadAsComment, chars, lexemes_line unbroken, telling_cons_of_isTrivia rfl rfl, blank]

/-- Whether a processor always gives a text that means what the source means. -/
def KeepsMeaning (processor : Processor) : Prop :=
  ∀ scope path source session, ∃ text, processor scope path source session = .ok text session ∧
    (Tree.parse path text).meaning = (Tree.parse path source).meaning

theorem keepsMeaning_processor_iff (comment : String) :
    KeepsMeaning (processor comment) ↔ ReadAsComment comment := by
  rw [ReadAsComment, ← isInert_commentLine_iff]
  constructor
  · intro keeps file source
    -- the meaning does not depend on the name of the file, so any script will do
    obtain ⟨text, given, same⟩ := keeps default (.ofString "a.ts") source default
    have script : apply (commentLine comment) (.ofString "a.ts") source = commentLine comment ++ source :=
      if_pos (by decide +kernel)
    obtain rfl : apply (commentLine comment) (.ofString "a.ts") source = text :=
      (EStateM.Result.ok.inj given).1
    rwa [script, meaning_parse, meaning_parse, ← meaning_parse file, ← meaning_parse file] at same
  · intro inert scope path source session
    refine ⟨_, rfl, ?_⟩
    rw [apply]
    split
    · exact inert path source
    · rfl

/-- A tree keeps its meaning behind a comment if the text is read as one. -/
theorem meaning_prependComment_iff (comment : String) :
    (∀ tree : Tree, tree.Reproduced →
      (Tree.parse tree.file (tree.prependComment comment).print).meaning = tree.meaning) ↔
      ReadAsComment comment := by
  rw [ReadAsComment, ← isInert_commentLine_iff]
  constructor
  · intro keeps file source
    have same := keeps (Tree.parse file source) (Tree.reproduced_parse file source)
    rwa [Tree.print_prependComment, Tree.print_parse] at same
  · intro inert tree reproduced
    rw [Tree.print_prependComment, inert tree.file tree.print, reproduced.meaning]

/-- An addon that makes banners registers one processor, unless its settings are wrong. -/
theorem run_activate {name : String} {options : Toml.Table} {addon : Addon}
    (made : banner name options = .ok addon) {activation later : Activation}
    (ran : addon.activate activation = .ok ⟨⟩ later) :
    ∃ template?, textOption name (optionsFor name options activation.context.toScope) "text" =
        .ok template? ∧
      later = { activation with context := { activation.context with
        processors := activation.context.processors ++
          [processor (commentOf template? activation.context.target)] } } := by
  unfold banner at made
  cases text : textOption name options "text" with
  | error failure =>
    rw [text] at made
    cases made
  | ok _ =>
    rw [text] at made
    cases made
    have scope : activeScope activation = .ok activation.context.toScope activation := rfl
    dsimp only at ran
    rw [run_bind_ok scope] at ran
    cases read : textOption name (optionsFor name options activation.context.toScope) "text" with
    | error failure =>
      rw [read] at ran
      cases ran
    | ok template? =>
      rw [read] at ran
      exact ⟨template?, rfl, (EStateM.Result.ok.inj ran).2.symm⟩

/-- Where added comments change no meaning. The processor of a banner, which a target has from the template
in force with its own name put in, gives every script the meaning that it had exactly if the comment is
read as one; so does a comment in front of every tree that is printed and parsed as itself. A text without
a line break is always read as one comment, and any other text is if behind its first line there are
only blanks and closed comments. -/
theorem added_comments_inert_iff {name : String} {options : Toml.Table} {addon : Addon}
    (made : banner name options = .ok addon) {activation later : Activation}
    (ran : addon.activate activation = .ok ⟨⟩ later) :
    (∃ template?, textOption name (optionsFor name options activation.context.toScope) "text" =
        .ok template? ∧
      later.context.processors = activation.context.processors ++
        [processor (commentOf template? activation.context.target)] ∧
      (KeepsMeaning (processor (commentOf template? activation.context.target)) ↔
        ReadAsComment (commentOf template? activation.context.target))) ∧
      (∀ comment, (∀ tree : Tree, tree.Reproduced →
        (Tree.parse tree.file (tree.prependComment comment).print).meaning = tree.meaning) ↔
          ReadAsComment comment) ∧
      (∀ comment : String, '\n' ∉ comment.toList → ReadAsComment comment) ∧
      ∀ first more : String, '\n' ∉ first.toList →
        (ReadAsComment (first ++ "\n" ++ more) ↔ telling (lexemes (more ++ "\n").toList) = []) := by
  obtain ⟨template?, read, rfl⟩ := run_activate made ran
  exact ⟨⟨template?, read, rfl, keepsMeaning_processor_iff _⟩, meaning_prependComment_iff,
    fun comment single => telling_commentLine single,
    fun first more single => readAsComment_append_iff single more⟩

section Lines

/-- A banner of two lines, of which the second one is no comment. -/
def longBanner : Toml.Table := [("text", .string "built for \x7btarget\x7d\nlet b = 2;")]

/-- The second line of the banner becomes a part of every script; a text of one line does not. -/
theorem banner_of_two_lines_means_something :
    ∃ addon later, banner "banner" longBanner = .ok addon ∧
      addon.activate ⟨{ (default : Context) with target := "web" }, default⟩ = .ok ⟨⟩ later ∧
      (∃ added, later.context.processors = [added] ∧ ¬KeepsMeaning added) ∧
      ∀ tree : Tree, tree.Reproduced →
        (Tree.parse tree.file (tree.prependComment "built for web").print).meaning = tree.meaning := by
  obtain ⟨addon, made⟩ : ∃ addon, banner "banner" longBanner = .ok addon := ⟨_, rfl⟩
  obtain ⟨later, ran⟩ : ∃ later, addon.activate
      ⟨{ (default : Context) with target := "web" }, default⟩ = .ok ⟨⟩ later := by
    cases made
    exact ⟨_, rfl⟩
  obtain ⟨⟨template?, read, registered, keeps⟩, trees, single, -⟩ :=
    added_comments_inert_iff made ran
  obtain rfl : template? = some "built for \x7btarget\x7d\nlet b = 2;" :=
    (Except.ok.inj read).symm
  refine ⟨addon, later, made, ran, ⟨_, registered, ?_⟩, ?_⟩
  · rw [keeps]
    decide +kernel
  · exact (trees _).mpr (single _ (by decide))

end Lines

end Recast.Addons.Banner
