import Recast.Proofs.Script.Standing

/-! # What is cut out of a script

Whatever the tokens are, the eraser cuts runs out of them that begin and end with a token that means
something. Behind a run it may shorten or drop whitespace, and the rest stays as it was. A script
that was parsed without faults means the same when it is printed and parsed again
(`eraseTypes_excises`).
-/

namespace Recast.Script

/-- A run that is cut out, the tokens from there to the next one, and what is left of these. -/
structure Excision where
  run : List Token
  gap : List Token
  left : List Token
  begins : ∃ first rest, run = first :: rest ∧ first.isTrivia = false
  ends : ∃ front last, run = front ++ [last] ∧ last.isTrivia = false
  trims : Trims gap left

namespace Excision

theorem significant_left (cuts : List Excision) :
    significant (cuts.flatMap (·.left)) = significant (cuts.flatMap (·.gap)) := by
  induction cuts with
  | nil => rfl
  | cons cut cuts ih =>
    have same := cut.trims.significant
    rw [significant, significant] at same ih ⊢
    rw [List.flatMap_cons, List.flatMap_cons, List.filter_append, List.filter_append, same, ih]

end Excision

/-- Only the first tokens change at the end of a line. -/
private theorem dropLineEnd_append {ts : List Token} (some : ts ≠ []) (more : List Token) :
    dropLineEnd (ts ++ more) = dropLineEnd ts ++ more := by
  obtain ⟨t, ts, rfl⟩ := List.exists_cons_of_ne_nil some
  simp only [List.cons_append, dropLineEnd]
  split
  · split <;> rfl
  · split <;> rfl

/-- The end of a line goes from what was left behind some cut. -/
private theorem exists_trimmed (cuts : List Excision)
    (texts : ∀ t ∈ cuts.flatMap (·.left), t.text ≠ "") :
    ∃ trimmed : List Excision, trimmed.flatMap (·.left) = dropLineEnd (cuts.flatMap (·.left)) ∧
      trimmed.flatMap (fun cut => cut.run ++ cut.gap) =
        cuts.flatMap (fun cut => cut.run ++ cut.gap) ∧ trimmed.length = cuts.length := by
  induction cuts with
  | nil => exact ⟨[], rfl, rfl, rfl⟩
  | cons cut cuts ih =>
    rw [List.flatMap_cons] at texts ⊢
    by_cases none : cut.left = []
    · rw [none, List.nil_append] at texts ⊢
      obtain ⟨trimmed, left, whole, count⟩ := ih texts
      exact ⟨cut :: trimmed, by rw [List.flatMap_cons, none, left]; rfl,
        congrArg ((cut.run ++ cut.gap) ++ ·) whole, congrArg (· + 1) count⟩
    · have trims := trims_dropLineEnd fun t member => texts t (List.mem_append_left _ member)
      exact ⟨{ cut with left := dropLineEnd cut.left, trims := cut.trims.trans trims } :: cuts,
        (dropLineEnd_append none _).symm, rfl, rfl⟩

/-- A way of the eraser cuts out the statements that it erases. -/
theorem Sweep.exists_cuts {depth : Int} {previous : Option Token} {broke : Bool}
    {portions : List Portion} (sweep : Sweep depth previous broke portions)
    (texts : ∀ t ∈ wholeOf portions, t.text ≠ "") :
    ∃ (front : List Token) (cuts : List Excision),
      wholeOf portions = front ++ cuts.flatMap (fun cut => cut.run ++ cut.gap) ∧
      remainsOf portions = front ++ cuts.flatMap (·.left) ∧
      portions.countP Portion.isErased = cuts.length := by
  induction sweep with
  | done => exact ⟨[], [], rfl, rfl, rfl⟩
  | @skip _ _ _ t portions _ _ ih | @keep _ _ _ t portions _ _ _ ih =>
    obtain ⟨front, cuts, whole, remains, count⟩ := ih (List.forall_mem_cons.mp texts).2
    exact ⟨t :: front, cuts, congrArg (t :: ·) whole, congrArg (t :: ·) remains, count⟩
  | @take previous broke t ts portions means ends found rest ih =>
    have texts : ∀ t ∈ wholeOf portions, t.text ≠ "" :=
      fun u member => texts u (List.mem_append_right _ member)
    obtain ⟨front, cuts, whole, remains, count⟩ := ih texts
    have full := remainsOf_text_ne_empty texts
    rw [remains] at full
    have begins : ∃ first rest, t :: ts = first :: rest ∧ first.isTrivia = false :=
      ⟨t, ts, rfl, means⟩
    have ends := exists_last_of_take means found
    rw [List.countP_cons_of_pos rfl, count]
    by_cases none : front = []
    · rw [none, List.nil_append] at whole remains full
      obtain ⟨trimmed, left, same, number⟩ := exists_trimmed cuts full
      refine ⟨[], ⟨t :: ts, [], [], begins, ends, .refl []⟩ :: trimmed, ?_, ?_, ?_⟩
      · rw [List.flatMap_cons, same, ← whole]
        simp
      · rw [List.flatMap_cons, left, ← remains]
        rfl
      · rw [List.length_cons, number]
    · have trims := trims_dropLineEnd fun t member => full t (List.mem_append_left _ member)
      refine ⟨[], ⟨t :: ts, front, dropLineEnd front, begins, ends, trims⟩ :: cuts, ?_, ?_, rfl⟩
      · rw [wholeOf_erased, whole]
        simp
      · rw [remainsOf, remains, dropLineEnd_append none]
        rfl

/-- Nothing is erased unless the word `type` or the word `interface` stands somewhere. -/
theorem Sweep.remainsOf_eq_wholeOf {depth : Int} {previous : Option Token} {broke : Bool}
    {portions : List Portion} (sweep : Sweep depth previous broke portions)
    (untyped : ∀ t ∈ wholeOf portions,
      t.isIdentifier "type" = false ∧ t.isIdentifier "interface" = false) :
    remainsOf portions = wholeOf portions ∧ portions.countP Portion.isErased = 0 := by
  induction sweep with
  | done => exact ⟨rfl, rfl⟩
  | @skip _ _ _ t portions _ _ ih | @keep _ _ _ t portions _ _ _ ih =>
    obtain ⟨same, none⟩ := ih (List.forall_mem_cons.mp untyped).2
    exact ⟨congrArg (t :: ·) same, none⟩
  | @take previous broke t ts portions means ends found rest ih =>
    obtain ⟨exported, front, keyword, later, split, -, -, declared⟩ :=
      exists_keyword_of_behindTypeOnly? means found
    rw [wholeOf_erased, List.cons_append, split] at untyped
    have none (u : Token) (member : u ∈ keyword :: later) := untyped u
      (List.mem_append_right _ member)
    rcases cases_behindTypeDeclaration? declared with ⟨-, u, member, type⟩ | ⟨interface, -⟩
    · rw [(none u member).1] at type
      cases type
    · rw [(none keyword List.mem_cons_self).2] at interface
      cases interface

/-- The eraser cuts runs out of the tokens, as many as it counts, each from a token that means
something to another one. Apart from that it trims whitespace directly behind a run, so what means
something outside the runs stays. Nothing changes unless the word `type` or `interface` is there. A
script without faults means what its remains mean, when these are printed and parsed. -/
theorem eraseTypes_excises (tree : Tree) (texts : ∀ t ∈ tree.tokens, t.text ≠ "") :
    (∃ (front : List Token) (cuts : List Excision),
      tree.tokens = front ++ cuts.flatMap (fun cut => cut.run ++ cut.gap) ∧
      (eraseTypes tree).1 = tree.withTokens (front ++ cuts.flatMap (·.left)) ∧
      significant (eraseTypes tree).1.tokens = significant (front ++ cuts.flatMap (·.gap)) ∧
      (eraseTypes tree).2 = cuts.length) ∧
    ((∀ t ∈ tree.tokens, t.isIdentifier "type" = false ∧ t.isIdentifier "interface" = false) →
      eraseTypes tree = (tree, 0)) ∧
    ∀ file text, tree = Tree.parse file text → tree.faults = [] →
      bare (Tree.parse file (eraseTypes tree).1.print).tokens =
        bare (eraseTypes tree).1.tokens := by
  obtain ⟨portions, sweep, whole, erased⟩ := exists_sweep 0 none false tree.tokens
  have result : eraseTypes tree =
      (tree.withTokens (remainsOf portions), portions.countP Portion.isErased) := by
    rw [eraseTypes, erased]
  rw [result]
  refine ⟨?_, ?_, ?_⟩
  · rw [← whole] at texts ⊢
    obtain ⟨front, cuts, split, remains, count⟩ := sweep.exists_cuts texts
    refine ⟨front, cuts, split, by rw [remains], ?_, count⟩
    change significant (remainsOf portions) = _
    have same := Excision.significant_left cuts
    rw [significant, significant] at same
    rw [remains, significant, significant, List.filter_append, List.filter_append, same]
  · intro untyped
    rw [← whole] at untyped
    obtain ⟨same, none⟩ := sweep.remainsOf_eq_wholeOf untyped
    rw [same, none, whole]
    rfl
  · intro file text parsed faultless
    have stand : AllStand (wholeOf portions) := by
      rw [parsed] at whole faultless
      rw [whole]
      exact allStand_tokensFrom (List.map_eq_nil_iff.mp (List.append_eq_nil_iff.mp faultless).1)
    have again := (bare_of_telling (telling_remainsOf sweep stand).1 0).2
    change
      bare (tokensFrom 0 (lexemes (String.ofList (printChars (remainsOf portions))).toList)) = _
    rw [String.toList_ofList]
    exact again

/-- Made tokens: an alias, an interface directly behind it, and two pieces of whitespace. -/
def patchedTree : Tree where
  file := ⟨true, ["a.ts"]⟩
  tokens :=
    [.made .identifier "type", .made .identifier "A", .made .punctuation "=",
      .made .identifier "B", .made .punctuation ";", .made .identifier "interface",
      .made .identifier "C", .made .punctuation "\x7b", .made .punctuation "\x7d",
      .made .whitespace " \n", .made .whitespace "\n\n", .made .identifier "x"]
  lineStarts := [0]
  faults := []

/-- Both declarations go, and each takes the end of a line with it. -/
theorem eraseTypes_excises_patched :
    (∀ t ∈ patchedTree.tokens, t.text ≠ "") ∧
      eraseTypes patchedTree = (patchedTree.withTokens
        [.made .whitespace "\n", .made .identifier "x"], 2) ∧
      ∃ (front : List Token) (cuts : List Excision),
        patchedTree.tokens = front ++ cuts.flatMap (fun cut => cut.run ++ cut.gap) ∧
        (eraseTypes patchedTree).1 = patchedTree.withTokens (front ++ cuts.flatMap (·.left)) ∧
        significant (eraseTypes patchedTree).1.tokens =
          significant (front ++ cuts.flatMap (·.gap)) ∧
        (eraseTypes patchedTree).2 = cuts.length := by
  have texts : ∀ t ∈ patchedTree.tokens, t.text ≠ "" := by decide
  have erased : eraseFrom 0 none false patchedTree.tokens =
      ([.made .whitespace "\n", .made .identifier "x"], 2) := by decide +kernel
  refine ⟨texts, ?_, (eraseTypes_excises patchedTree texts).1⟩
  rw [eraseTypes, erased]

end Recast.Script
