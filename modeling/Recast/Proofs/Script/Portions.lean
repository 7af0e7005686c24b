import Recast.Proofs.Script.Scanning

/-! # How the eraser divides a script

The eraser goes over the tokens once. It divides them into portions, which are tokens that it keeps
and statements that it erases as a whole, and it knows at each portion how many brackets are open in
front of it (`Sweep`). What is true of the eraser is shown by induction on that division, of which
there is one for all tokens (`exists_sweep`).

A statement that is erased begins and ends with a token that means something.
-/

namespace Recast.Script

/-! ## The ends of declarations -/

/-- The second list is what stands behind some token of the first list that means something. -/
def StandsBehind (tokens behind : List Token) : Prop :=
  ∃ front last, tokens = front ++ last :: behind ∧ last.isTrivia = false

theorem StandsBehind.here {t : Token} (means : t.isTrivia = false) (ts : List Token) :
    StandsBehind (t :: ts) ts :=
  ⟨[], t, rfl, means⟩

theorem StandsBehind.of_isSuffix {tokens all behind : List Token}
    (stands : StandsBehind tokens behind) (isSuffix : tokens <:+ all) :
    StandsBehind all behind := by
  obtain ⟨before, rfl⟩ := isSuffix
  obtain ⟨front, last, rfl, means⟩ := stands
  exact ⟨before ++ front, last, (List.append_assoc ..).symm, means⟩

theorem StandsBehind.cons {tokens behind : List Token} (stands : StandsBehind tokens behind)
    (t : Token) : StandsBehind (t :: tokens) behind :=
  stands.of_isSuffix (List.suffix_cons t tokens)

/-- What stands behind a token of a list that is not empty leaves a first part of it. -/
theorem StandsBehind.exists_run {t : Token} {ts behind : List Token}
    (stands : StandsBehind (t :: ts) behind) :
    ∃ run front last, ts = run ++ behind ∧ t :: run = front ++ [last] ∧ last.isTrivia = false := by
  obtain ⟨front, last, split, means⟩ := stands
  cases front with
  | nil =>
    obtain ⟨rfl, rfl⟩ := List.cons.inj split
    exact ⟨[], [], t, rfl, rfl, means⟩
  | cons u front =>
    obtain ⟨rfl, rfl⟩ := List.cons.inj split
    exact ⟨front ++ [last], t :: front, last, by simp, rfl, means⟩

theorem Token.isTrivia_of_isClose {t : Token} (closes : t.isClose = true) :
    t.isTrivia = false := by
  rw [← Bool.not_eq_true]
  intro trivial
  rw [Token.isClose, Token.role_of_isTrivia trivial] at closes
  cases closes

theorem standsBehind_behindStatementFrom (depth : Int) (last : Token) (broke : Bool)
    {behind ts all : List Token} (stands : StandsBehind all behind) (isSuffix : ts <:+ all) :
    StandsBehind all (behindStatementFrom depth last broke behind ts) := by
  induction ts generalizing depth last broke behind with
  | nil => exact stands
  | cons t ts ih =>
    have inner : ts <:+ all := (List.suffix_cons t ts).trans isSuffix
    rw [behindStatementFrom]
    split
    · exact ih _ _ _ stands inner
    · next means =>
      have here := (StandsBehind.here (Bool.eq_false_iff.mpr means) ts).of_isSuffix isSuffix
      split
      · exact stands
      · split
        · exact here
        · exact ih _ _ _ here inner

theorem standsBehind_behindStatement {t : Token} (means : t.isTrivia = false) (ts : List Token) :
    StandsBehind (t :: ts) (behindStatement (t :: ts)) := by
  rw [behindStatement]
  split
  · exact .here means ts
  · exact standsBehind_behindStatementFrom _ _ _ (.here means ts) (List.suffix_cons t ts)

theorem standsBehind_of_behindBlockFrom? {depth : Int} {ts behind : List Token}
    (found : behindBlockFrom? depth ts = some behind) : StandsBehind ts behind := by
  induction ts generalizing depth with
  | nil => cases found
  | cons t ts ih =>
    rw [behindBlockFrom?] at found
    split at found
    · next closes =>
      cases found
      exact .here (Token.isTrivia_of_isClose (Bool.and_eq_true_iff.mp closes).1) _
    · exact (ih found).cons t

theorem standsBehind_of_behindBlock? {ts behind : List Token}
    (found : behindBlock? ts = some behind) : StandsBehind ts behind := by
  induction ts with
  | nil => cases found
  | cons t ts ih =>
    rw [behindBlock?] at found
    split at found
    · exact (standsBehind_of_behindBlockFrom? found).cons t
    · exact (ih found).cons t

theorem mem_of_mem_ahead {n : Nat} {ts : List Token} {t : Token} (member : t ∈ ahead n ts) :
    t ∈ ts := by
  fun_induction ahead n ts with
  | case1 => cases member
  | case2 => cases member
  | case3 n u ts trivial ih => exact List.mem_cons_of_mem _ (ih member)
  | case4 n u ts means ih =>
    exact (List.mem_cons.mp member).elim (fun same => same ▸ List.mem_cons_self)
      fun later => List.mem_cons_of_mem _ (ih later)

/-- A declaration of a type is a statement that the word `type` marks, or an interface up to the
end of its block. -/
theorem cases_behindTypeDeclaration? {exported : Bool} {keyword : Token} {ts behind : List Token}
    (found : behindTypeDeclaration? exported (keyword :: ts) = some behind) :
    (behindStatement (keyword :: ts) = behind ∧
        ∃ t ∈ keyword :: ts, t.isIdentifier "type" = true) ∨
      (keyword.isIdentifier "interface" = true ∧ behindBlock? ts = some behind) := by
  simp only [behindTypeDeclaration?] at found
  split at found
  · split at found
    · next second third two =>
      split at found
      · next marked =>
        simp only [Bool.and_eq_true] at marked
        have member : second ∈ ts := mem_of_mem_ahead (two ▸ List.mem_cons_self)
        exact .inl ⟨Option.some.inj found, second, List.mem_cons_of_mem _ member, marked.1.1.1⟩
      · cases found
    · cases found
  · split at found
    · next type =>
      refine .inl ⟨?_, keyword, List.mem_cons_self, type⟩
      repeat' split at found
      all_goals first | exact Option.some.inj found | cases found
    · split at found
      · next interface =>
        split at found
        · split at found
          · exact .inr ⟨interface, found⟩
          · cases found
        · cases found
      · cases found

theorem exists_spaces_of_skipTrivia {ts later : List Token} {next : Token}
    (skipped : skipTrivia ts = next :: later) :
    ∃ spaces, ts = spaces ++ next :: later ∧ (∀ u ∈ spaces, u.isTrivia = true) ∧
      next.isTrivia = false := by
  induction ts with
  | nil => cases skipped
  | cons t ts ih =>
    rw [skipTrivia, List.dropWhile_cons] at skipped
    split at skipped
    · next trivial =>
      obtain ⟨spaces, rfl, all, means⟩ := ih skipped
      exact ⟨t :: spaces, rfl, List.forall_mem_cons.mpr ⟨trivial, all⟩, means⟩
    · next means =>
      cases skipped
      exact ⟨[], rfl, by simp, Bool.eq_false_iff.mpr means⟩

/-- A declaration begins at its keyword, or at the word `export` in front of it. -/
theorem exists_keyword_of_behindTypeOnly? {t : Token} {ts behind : List Token}
    (means : t.isTrivia = false) (found : behindTypeOnly? (t :: ts) = some behind) :
    ∃ exported front keyword later, t :: ts = front ++ keyword :: later ∧
      (∀ u ∈ front, u.isTrivia = true ∨ u.isIdentifier "export" = true) ∧
      keyword.isTrivia = false ∧
      behindTypeDeclaration? exported (keyword :: later) = some behind := by
  rw [behindTypeOnly?] at found
  split at found
  · next exports =>
    cases skipped : skipTrivia ts with
    | nil =>
      rw [skipped] at found
      cases found
    | cons keyword later =>
      rw [skipped] at found
      obtain ⟨spaces, rfl, trivial, means⟩ := exists_spaces_of_skipTrivia skipped
      exact ⟨true, t :: spaces, keyword, later, rfl, List.forall_mem_cons.mpr
        ⟨.inr exports, fun u member => .inl (trivial u member)⟩, means, found⟩
  · exact ⟨false, [], t, ts, rfl, by simp, means, found⟩

/-- What stands behind a declaration of a type stands behind a token that means something. -/
theorem standsBehind_of_behindTypeOnly? {t : Token} {ts behind : List Token}
    (means : t.isTrivia = false) (found : behindTypeOnly? (t :: ts) = some behind) :
    StandsBehind (t :: ts) behind := by
  obtain ⟨exported, front, keyword, later, split, -, means, declared⟩ :=
    exists_keyword_of_behindTypeOnly? means found
  have inner : StandsBehind (keyword :: later) behind := by
    rcases cases_behindTypeDeclaration? declared with ⟨statement, -⟩ | ⟨-, block⟩
    · exact statement ▸ standsBehind_behindStatement means later
    · exact (standsBehind_of_behindBlock? block).cons keyword
  exact inner.of_isSuffix ⟨front, split.symm⟩

/-! ## The ends of lines -/

theorem significant_cons_of_isTrivia {t : Token} (trivial : t.isTrivia = true)
    (ts : List Token) : significant (t :: ts) = significant ts :=
  List.filter_cons_of_neg (by rw [trivial]; exact Bool.false_ne_true)

theorem significant_cons {t : Token} (means : t.isTrivia = false) (ts : List Token) :
    significant (t :: ts) = t :: significant ts :=
  List.filter_cons_of_pos (by rw [means]; rfl)

/-- Whitespace in front loses what stands up to some of its line breaks. A token of which nothing
would be left is dropped. -/
inductive Trims : List Token → List Token → Prop
  | refl (ts : List Token) : Trims ts ts
  | drop {t : Token} {ts left : List Token} {front : List Char} (white : t.kind = .whitespace)
      (split : t.text.toList = front ++ ['\n']) (rest : Trims ts left) : Trims (t :: ts) left
  | cut {t : Token} {ts : List Token} {front cs : List Char} (white : t.kind = .whitespace)
      (split : t.text.toList = front ++ '\n' :: cs) (some : cs ≠ []) :
      Trims (t :: ts) ({ t with text := String.ofList cs } :: ts)

namespace Trims

variable {gap left : List Token}

theorem trans {last : List Token} (first : Trims gap left) (second : Trims left last) :
    Trims gap last := by
  induction first with
  | refl => exact second
  | drop white split _ ih => exact .drop white split (ih second)
  | @cut t ts front cs white split some =>
    cases second with
    | refl => exact .cut white split some
    | @drop _ _ _ more _ ends rest =>
      rw [String.toList_ofList] at ends
      have split' : t.text.toList = (front ++ '\n' :: more) ++ ['\n'] := by
        rw [split, ends, List.append_assoc, List.cons_append]
      exact .drop white split' rest
    | @cut _ _ more cs' _ later some' =>
      rw [String.toList_ofList] at later
      have split' : t.text.toList = (front ++ '\n' :: more) ++ '\n' :: cs' := by
        rw [split, later, List.append_assoc, List.cons_append]
      exact .cut white split' some'

theorem text_ne_empty (trims : Trims gap left) (texts : ∀ t ∈ gap, t.text ≠ "") :
    ∀ t ∈ left, t.text ≠ "" := by
  induction trims with
  | refl => exact texts
  | drop _ _ _ ih => exact ih fun t member => texts t (List.mem_cons_of_mem _ member)
  | cut _ _ some =>
    refine List.forall_mem_cons.mpr ⟨fun empty => some ?_, fun t member =>
      texts t (List.mem_cons_of_mem _ member)⟩
    exact String.ofList_eq_empty_iff.mp empty

theorem significant (trims : Trims gap left) : significant left = significant gap := by
  have trivial {t : Token} (white : t.kind = .whitespace) : t.isTrivia = true := by
    rw [Token.isTrivia, white]
    rfl
  induction trims with
  | refl => rfl
  | @drop t ts _ _ white _ _ ih =>
    exact ih.trans (significant_cons_of_isTrivia (trivial white) ts).symm
  | @cut t ts front cs white _ _ =>
    have cut : ({ t with text := String.ofList cs } : Token).isTrivia = true := trivial white
    rw [significant_cons_of_isTrivia (trivial white), significant_cons_of_isTrivia cut]

end Trims

theorem exists_front_of_behindBreak? {cs rest : List Char} (found : behindBreak? cs = some rest) :
    ∃ front, cs = front ++ '\n' :: rest := by
  induction cs with
  | nil => cases found
  | cons c cs ih =>
    rw [behindBreak?] at found
    split at found
    · next breaks =>
      cases found
      exact ⟨[], by rw [breaks]; rfl⟩
    · obtain ⟨front, rfl⟩ := ih found
      exact ⟨c :: front, rfl⟩

/-- The end of the line is a trim, if no token is without a text. -/
theorem trims_dropLineEnd {ts : List Token} (texts : ∀ t ∈ ts, t.text ≠ "") :
    Trims ts (dropLineEnd ts) := by
  cases ts with
  | nil => exact .refl []
  | cons t ts =>
    have full : ¬ t.text.isEmpty = true := by simpa using texts t List.mem_cons_self
    simp only [dropLineEnd]
    by_cases white : t.kind = .whitespace
    · rw [if_pos white]
      cases found : behindBreak? t.text.toList with
      | none =>
        simp only [Option.map_none, Option.getD_none]
        rw [if_neg full]
        exact .refl _
      | some rest =>
        obtain ⟨front, split⟩ := exists_front_of_behindBreak? found
        simp only [Option.map_some, Option.getD_some]
        split
        · next empty =>
          have empty : rest = [] := by simpa using empty
          exact .drop white (empty ▸ split) (.refl ts)
        · next some => exact .cut white split fun empty => some (by simp [empty])
    · rw [if_neg white, if_neg full]
      exact .refl _

/-! ## Portions -/

/-- A part of a script: a token that is kept, or a statement that is erased. -/
inductive Portion where
  | kept (t : Token)
  | erased (run : List Token)

namespace Portion

def tokens : Portion → List Token
  | kept t => [t]
  | erased run => run

def isErased : Portion → Bool
  | kept _ => false
  | erased _ => true

end Portion

/-- The tokens of the portions. -/
def wholeOf (portions : List Portion) : List Token :=
  portions.flatMap Portion.tokens

/-- What remains of the portions when statements are erased, each with the end of its line. -/
def remainsOf : List Portion → List Token
  | [] => []
  | .kept t :: portions => t :: remainsOf portions
  | .erased _ :: portions => dropLineEnd (remainsOf portions)

@[simp] theorem wholeOf_nil : wholeOf [] = [] := rfl

@[simp] theorem wholeOf_kept (t : Token) (portions : List Portion) :
    wholeOf (.kept t :: portions) = t :: wholeOf portions := rfl

@[simp] theorem wholeOf_erased (run : List Token) (portions : List Portion) :
    wholeOf (.erased run :: portions) = run ++ wholeOf portions := rfl

theorem remainsOf_text_ne_empty {portions : List Portion}
    (texts : ∀ t ∈ wholeOf portions, t.text ≠ "") : ∀ t ∈ remainsOf portions, t.text ≠ "" := by
  fun_induction remainsOf portions with
  | case1 => exact texts
  | case2 t portions ih =>
    obtain ⟨here, later⟩ := List.forall_mem_cons.mp texts
    exact List.forall_mem_cons.mpr ⟨here, ih later⟩
  | case3 run portions ih =>
    have later := ih fun t member => texts t (List.mem_append_right _ member)
    exact (trims_dropLineEnd later).text_ne_empty later

/-- The way of the eraser over portions. `depth` brackets are open in front of them, `previous` is
the significant token before, and `broke` tells whether a line break followed it. -/
inductive Sweep : Int → Option Token → Bool → List Portion → Prop
  | done {depth : Int} {previous : Option Token} {broke : Bool} : Sweep depth previous broke []
  | skip {depth : Int} {previous : Option Token} {broke : Bool} {t : Token}
      {portions : List Portion} (trivial : t.isTrivia = true)
      (rest : Sweep depth previous (broke || t.breaksLine) portions) :
      Sweep depth previous broke (.kept t :: portions)
  | keep {depth : Int} {previous : Option Token} {broke : Bool} {t : Token}
      {portions : List Portion} (means : t.isTrivia = false)
      (stays : depth = 0 → endsStatement previous broke = true →
        behindTypeOnly? (t :: wholeOf portions) = none)
      (rest : Sweep (t.depthAfter depth) (some t) false portions) :
      Sweep depth previous broke (.kept t :: portions)
  | take {previous : Option Token} {broke : Bool} {t : Token} {ts : List Token}
      {portions : List Portion} (means : t.isTrivia = false)
      (ends : endsStatement previous broke = true)
      (found : behindTypeOnly? (t :: (ts ++ wholeOf portions)) = some (wholeOf portions))
      (rest : Sweep 0 none false portions) :
      Sweep 0 previous broke (.erased (t :: ts) :: portions)

/-- What is known where a statement is erased. -/
theorem Sweep.of_erased {depth : Int} {previous : Option Token} {broke : Bool} {run : List Token}
    {portions : List Portion} (sweep : Sweep depth previous broke (.erased run :: portions)) :
    depth = 0 ∧ endsStatement previous broke = true ∧
      ∃ t ts, run = t :: ts ∧ t.isTrivia = false ∧
        behindTypeOnly? (t :: (ts ++ wholeOf portions)) = some (wholeOf portions) := by
  cases sweep with
  | @take _ _ t ts _ means ends found rest => exact ⟨rfl, ends, t, ts, rfl, means, found⟩

/-- All tokens are divided into portions, and the eraser keeps what remains of them. -/
theorem exists_sweep (depth : Int) (previous : Option Token) (broke : Bool) (tokens : List Token) :
    ∃ portions, Sweep depth previous broke portions ∧ wholeOf portions = tokens ∧
      eraseFrom depth previous broke tokens =
        (remainsOf portions, portions.countP Portion.isErased) := by
  fun_induction eraseFrom depth previous broke tokens with
  | case1 => exact ⟨[], .done, rfl, rfl⟩
  | case2 depth previous broke t ts trivial kept count later ih =>
    obtain ⟨portions, sweep, rfl, erased⟩ := ih
    cases later.symm.trans erased
    exact ⟨.kept t :: portions, .skip trivial sweep, rfl, rfl⟩
  | case3 depth previous broke t ts means rest found kept count later ih =>
    obtain ⟨portions, sweep, rfl, erased⟩ := ih
    cases later.symm.trans erased
    split at found
    · next here =>
      rw [Bool.and_eq_true, decide_eq_true_eq] at here
      obtain ⟨rfl, ends⟩ := here
      have significant := Bool.eq_false_iff.mpr means
      obtain ⟨run, -, -, rfl, -, -⟩ :=
        (standsBehind_of_behindTypeOnly? significant found).exists_run
      refine ⟨.erased (t :: run) :: portions, .take significant ends found sweep, rfl, ?_⟩
      rw [List.countP_cons_of_pos rfl]
      rfl
    · cases found
  | case4 depth previous broke t ts means none kept count later ih =>
    obtain ⟨portions, sweep, rfl, erased⟩ := ih
    cases later.symm.trans erased
    refine ⟨.kept t :: portions, .keep (Bool.eq_false_iff.mpr means) ?_ sweep, rfl, rfl⟩
    rintro rfl ends
    simpa [ends] using none

/-- A statement that is erased ends with a token that means something. -/
theorem exists_last_of_take {t : Token} {ts : List Token} {portions : List Portion}
    (means : t.isTrivia = false)
    (found : behindTypeOnly? (t :: (ts ++ wholeOf portions)) = some (wholeOf portions)) :
    ∃ front last, t :: ts = front ++ [last] ∧ last.isTrivia = false := by
  obtain ⟨run, front, last, split, same, significant⟩ :=
    (standsBehind_of_behindTypeOnly? means found).exists_run
  rw [List.append_cancel_right split]
  exact ⟨front, last, same, significant⟩

end Recast.Script
