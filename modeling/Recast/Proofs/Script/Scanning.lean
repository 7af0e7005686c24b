import Recast.Proofs.Script.Grammar
import Recast.Script.Declaration

/-! # Scanning laid out words

The scans that look for the end of a declaration see a layout as its words and the line breaks
between them. An alias ends where its line does (`behindStatementFrom_laid`), an interface behind
its members (`behindBlock?_laid`), and words among which no name follows a name declare no type
(`eraseFrom_laid`).
-/

namespace Recast.Script

/-! ## Words -/

namespace Word

def continuesLine (word : Word) : Bool :=
  (word.token none).continuesLine

def depthAfter (word : Word) (depth : Int) : Int :=
  (word.token none).depthAfter depth

def isSemicolon (word : Word) : Bool :=
  (word.token none).isPunct ";"

theorem token_isTrivia (word : Word) (offset : Option Nat) :
    (word.token offset).isTrivia = false := by
  cases word <;> rfl

theorem token_isEmpty (word : Word) (offset : Option Nat) :
    (word.token offset).text.isEmpty = false := by
  cases word <;> simp [token, chars, ← String.toList_eq_nil_iff]

theorem role_mark (sign : Mark) (offset : Option Nat) :
    ((mark sign).token offset).role = sign.role := by
  cases sign <;> rfl

theorem isPunct_semicolon (sign : Mark) (offset : Option Nat) :
    ((mark sign).token offset).isPunct ";" = decide (sign = .semicolon) := by
  cases sign <;> rfl

theorem isPunct_openCurly (sign : Mark) (offset : Option Nat) :
    ((mark sign).token offset).isPunct "\x7b" = decide (sign = .openCurly) := by
  cases sign <;> rfl

/-- The token of a word that is no mark leaves brackets alone and ends no statement. -/
private theorem token_of_kind {word : Word} (other : word.kind ≠ .punctuation) (offset : Option Nat)
    (depth : Int) :
    (word.token offset).depthAfter depth = depth ∧ (word.token offset).isClose = false ∧
      (word.token offset).isPunct ";" = false := by
  cases word with
  | name identifier => exact ⟨rfl, rfl, rfl⟩
  | numeral digits => exact ⟨rfl, rfl, rfl⟩
  | quoted string => exact ⟨rfl, rfl, rfl⟩
  | mark sign => exact absurd rfl other

/-- What a step between places says of the token of the word. -/
theorem step_spec {free : Bool} {place next : Place} {word : Word}
    (stepped : place.step free word = some next) (offset : Option Nat) :
    (word.token offset).depthAfter place.depth = next.depth ∧
      ((word.token offset).isClose = true → 0 < place.depth) ∧
      (free = false → (word.token offset).isPunct ";" = true → 0 < next.depth) := by
  by_cases punctuation : word.kind = .punctuation
  · cases word with
    | name identifier => cases punctuation
    | numeral digits => cases punctuation
    | quoted string => cases punctuation
    | mark sign =>
      rw [isPunct_semicolon, decide_eq_true_eq]
      simp only [Token.depthAfter, Token.isClose, role_mark]
      simp only [Place.step] at stepped
      split at stepped
      · next bracket opens =>
        cases stepped
        simp only [opens]
        refine ⟨by omega, fun closes => absurd closes Bool.false_ne_true, ?_⟩
        rintro _ rfl
        cases opens
      · next bracket closes =>
        simp only [closes]
        split at stepped
        · cases stepped
        · next positive =>
          cases stepped
          refine ⟨?_, fun _ => Nat.pos_of_ne_zero positive, ?_⟩
          · dsimp only
            omega
          · rintro _ rfl
            cases closes
      · next neither =>
        simp only [neither]
        split at stepped
        · cases stepped
        · next inside =>
          cases stepped
          refine ⟨rfl, fun closes => absurd closes Bool.false_ne_true, ?_⟩
          intro unfree ends
          exact Nat.pos_of_ne_zero fun zero => inside ⟨ends, zero, unfree⟩
  · obtain ⟨depth, unclosed, unended⟩ := token_of_kind punctuation offset place.depth
    have same : next.depth = place.depth := by
      cases word with
      | name identifier =>
        simp only [Place.step] at stepped
        split at stepped
        · cases stepped
        · cases stepped
          rfl
      | numeral digits =>
        cases stepped
        rfl
      | quoted string =>
        cases stepped
        rfl
      | mark sign => exact absurd rfl punctuation
    rw [depth, unclosed, unended, same]
    exact ⟨rfl, fun closes => absurd closes Bool.false_ne_true, fun _ ends =>
      absurd ends Bool.false_ne_true⟩

end Word

/-! ## Tokens without meaning -/

theorem Token.role_of_isTrivia {t : Token} (trivial : t.isTrivia = true) : t.role = .none := by
  obtain ⟨kind, text, offset⟩ := t
  cases kind <;> first | rfl | cases trivial

theorem Token.depthAfter_add (t : Token) (depth more : Int) :
    t.depthAfter (depth + more) = t.depthAfter depth + more := by
  unfold Token.depthAfter
  split <;> omega

section Spaces

variable {spaces : List Token} (trivial : ∀ t ∈ spaces, t.isTrivia = true)
include trivial

theorem skipTrivia_append (word : Word) (offset : Option Nat) (ts : List Token) :
    skipTrivia (spaces ++ word.token offset :: ts) = word.token offset :: ts := by
  rw [skipTrivia, List.dropWhile_append_of_pos trivial, List.dropWhile_cons_of_neg]
  rw [word.token_isTrivia offset]
  exact Bool.false_ne_true

theorem behindStatementFrom_append (depth : Int) (last : Token) (broke : Bool)
    (behind ts : List Token) :
    behindStatementFrom depth last broke behind (spaces ++ ts) =
      behindStatementFrom depth last (broke || spaces.any Token.breaksLine) behind ts := by
  induction spaces generalizing broke with
  | nil => simp
  | cons t spaces ih =>
    rw [List.cons_append, behindStatementFrom, if_pos (trivial t List.mem_cons_self), List.any_cons,
      ← Bool.or_assoc]
    exact ih (fun other member => trivial other (List.mem_cons_of_mem _ member)) _

theorem behindBlockFrom?_append (depth : Int) (ts : List Token) :
    behindBlockFrom? depth (spaces ++ ts) = behindBlockFrom? depth ts := by
  induction spaces with
  | nil => rfl
  | cons t spaces ih =>
    have role := Token.role_of_isTrivia (trivial t List.mem_cons_self)
    rw [List.cons_append, behindBlockFrom?]
    simp only [Token.isClose, Token.depthAfter, role, Bool.false_and, Bool.false_eq_true, if_false]
    exact ih fun other member => trivial other (List.mem_cons_of_mem _ member)

theorem behindBlock?_append (ts : List Token) : behindBlock? (spaces ++ ts) = behindBlock? ts := by
  induction spaces with
  | nil => rfl
  | cons t spaces ih =>
    have apart : t.isPunct "\x7b" = false := by
      have trivial := trivial t List.mem_cons_self
      obtain ⟨kind, text, offset⟩ := t
      cases kind <;> first | rfl | cases trivial
    rw [List.cons_append, behindBlock?, apart]
    exact ih fun other member => trivial other (List.mem_cons_of_mem _ member)

theorem eraseFrom_append (depth : Int) (previous : Option Token) (broke : Bool) (ts : List Token) :
    eraseFrom depth previous broke (spaces ++ ts) =
      (spaces ++ (eraseFrom depth previous (broke || spaces.any Token.breaksLine) ts).1,
        (eraseFrom depth previous (broke || spaces.any Token.breaksLine) ts).2) := by
  induction spaces generalizing broke with
  | nil => simp
  | cons t spaces ih =>
    rw [List.cons_append, eraseFrom, if_pos (trivial t List.mem_cons_self), List.any_cons,
      ← Bool.or_assoc]
    rw [ih fun other member => trivial other (List.mem_cons_of_mem _ member)]
    rfl

end Spaces

/-- A row of words begins with the mark at its end, or it goes on behind a step. -/
private theorem cases_walk {gap : Gap} {word : Word} {layout : Layout} {body : List Word}
    {sign : Mark} {free : Bool} {place finish : Place}
    (words : Layout.words ((gap, word) :: layout) = body ++ [.mark sign])
    (walked : place.walk free body = some finish) :
    (word = .mark sign ∧ layout = [] ∧ place = finish) ∨
      ∃ rest next, place.step free word = some next ∧ next.walk free rest = some finish ∧
        layout.words = rest ++ [.mark sign] := by
  rw [Layout.words, List.map_cons] at words
  cases body with
  | nil =>
    obtain ⟨same, rest⟩ := List.cons.inj words
    exact .inl ⟨same, List.map_eq_nil_iff.mp rest, Option.some.inj walked⟩
  | cons first body =>
    obtain ⟨rfl, rest⟩ := List.cons.inj words
    rw [Place.walk_cons, Option.bind_eq_some_iff] at walked
    obtain ⟨next, stepped, walked⟩ := walked
    exact .inr ⟨body, next, stepped, walked, rest⟩

/-! ## The end of an alias -/

/-- What of a layout stands behind the first line break that ends the line, outside brackets. -/
def Layout.remains (depth : Int) (last : Word) : Layout → Layout
  | [] => []
  | (gap, next) :: layout =>
    if depth ≤ 0 ∧ gap.breaks = true ∧ last.continuesLine = false ∧ next.continuesLine = false then
      (gap, next) :: layout
    else remains (next.depthAfter depth) next layout

/-- One step of the scan for the end of a statement. -/
private theorem behindStatementFrom_word {gap : Gap} {spaces : List Token}
    (trivial : ∀ t ∈ spaces, t.isTrivia = true) (breaks : spaces.any Token.breaksLine = gap.breaks)
    (depth : Int) (last word : Word) (offset here : Option Nat) (behind ts : List Token) :
    behindStatementFrom depth (last.token offset) false behind (spaces ++ word.token here :: ts) =
      if depth ≤ 0 ∧ gap.breaks = true ∧ last.continuesLine = false ∧
        word.continuesLine = false then behind
      else if word.depthAfter depth ≤ 0 ∧ word.isSemicolon = true then ts
      else behindStatementFrom (word.depthAfter depth) (word.token here) false ts ts := by
  have split : behindStatementFrom depth (last.token offset) gap.breaks behind
      (word.token here :: ts) =
      if (word.token here).isTrivia then
        behindStatementFrom depth (last.token offset) (gap.breaks || (word.token here).breaksLine)
          behind ts
      else if decide (depth ≤ 0) && gap.breaks && !last.continuesLine && !word.continuesLine
        then behind
      else if decide (word.depthAfter depth ≤ 0) && word.isSemicolon then ts
      else behindStatementFrom (word.depthAfter depth) (word.token here) false ts ts := rfl
  rw [behindStatementFrom_append trivial, breaks, Bool.false_or, split, word.token_isTrivia]
  simp only [Bool.and_eq_true, decide_eq_true_eq, Bool.not_eq_true', Bool.false_eq_true, if_false,
    and_assoc]

/-- An alias ends at the end of its line, or else behind its semicolon. -/
theorem behindStatementFrom_laid {layout : Layout} {tokens : List Token} (laid : Laid layout tokens)
    {body : List Word} (words : layout.words = body ++ [.mark .semicolon]) {place finish : Place}
    (walked : place.walk false body = some finish) (closed : finish.depth = 0) (last : Word)
    (offset : Option Nat) (more : List Token) :
    ∃ rest, Laid (layout.remains place.depth last) rest ∧
      behindStatementFrom place.depth (last.token offset) false (tokens ++ more) (tokens ++ more) =
        rest ++ more := by
  induction laid generalizing body place last offset with
  | nil => simp [Layout.words] at words
  | @cons gap word layout spaces tokens here trivial breaks laid ih =>
    have split := behindStatementFrom_word trivial breaks place.depth last word offset here
      (spaces ++ word.token here :: tokens ++ more) (tokens ++ more)
    rw [← List.cons_append, ← List.append_assoc] at split
    rw [split, Layout.remains]
    split
    · exact ⟨_, .cons trivial breaks laid, rfl⟩
    · rcases cases_walk words walked with ⟨rfl, rfl, rfl⟩ | ⟨rest, next, stepped, walked, following⟩
      · cases laid
        refine ⟨[], .nil, ?_⟩
        have outside : Word.depthAfter (.mark .semicolon) place.depth ≤ 0 := by
          change (place.depth : Int) ≤ 0
          omega
        rw [if_pos ⟨outside, rfl⟩]
      · obtain ⟨depth, _, inside⟩ := word.step_spec stepped none
        have behind : word.depthAfter place.depth = next.depth := depth
        have unended : ¬ (word.depthAfter place.depth ≤ 0 ∧ word.isSemicolon = true) := by
          rintro ⟨low, semicolon⟩
          have positive := inside rfl semicolon
          omega
        rw [if_neg unended, behind]
        exact ih following walked word here

/-- What remains of an alias begins outside brackets. -/
theorem Layout.remains_spec {layout : Layout} {body : List Word}
    (words : layout.words = body ++ [.mark .semicolon]) {place finish : Place}
    (walked : place.walk false body = some finish) (last : Word) :
    layout.remains place.depth last = [] ∨
      ∃ (left : List Word) (start : Place), start.depth = 0 ∧ start.walk false left = some finish ∧
        (layout.remains place.depth last).words = left ++ [.mark .semicolon] := by
  induction layout generalizing body place last with
  | nil => exact .inl rfl
  | cons piece layout ih =>
    obtain ⟨gap, word⟩ := piece
    rw [Layout.remains]
    split
    · next ends => exact .inr ⟨body, place, by omega, walked, words⟩
    · rcases cases_walk words walked with ⟨rfl, rfl, rfl⟩ | ⟨rest, next, stepped, walked, following⟩
      · exact .inl rfl
      · have depth : word.depthAfter place.depth = next.depth := (word.step_spec stepped none).1
        rw [depth]
        exact ih following walked word

/-! ## The end of an interface -/

theorem behindBlockFrom?_laid {layout : Layout} {tokens : List Token} (laid : Laid layout tokens)
    {inner : List Word} (words : layout.words = inner ++ [.mark .closeCurly]) {free : Bool}
    {place finish : Place} (walked : place.walk free inner = some finish)
    (closed : finish.depth = 0) (more : List Token) :
    behindBlockFrom? (place.depth + 1) (tokens ++ more) = some more := by
  induction laid generalizing inner place with
  | nil => simp [Layout.words] at words
  | @cons gap word layout spaces tokens here trivial breaks laid ih =>
    rw [List.append_assoc, List.cons_append, behindBlockFrom?_append trivial, behindBlockFrom?]
    rcases cases_walk words walked with ⟨rfl, rfl, rfl⟩ | ⟨rest, next, stepped, walked, following⟩
    · cases laid
      rw [closed]
      rfl
    · obtain ⟨depth, closes, _⟩ := word.step_spec stepped here
      have shut :
          ¬ (((word.token here).isClose && decide ((place.depth : Int) + 1 = 1)) = true) := by
        rw [Bool.and_eq_true, decide_eq_true_eq]
        rintro ⟨close, outermost⟩
        have positive := closes close
        omega
      rw [if_neg shut, Token.depthAfter_add, depth]
      exact ih following walked

private theorem isPunct_of_ne {word : Word} (other : Word.mark .openCurly ≠ word)
    (offset : Option Nat) :
    (word.token offset).isPunct "\x7b" = false := by
  cases word with
  | name _ => rfl
  | numeral _ => rfl
  | quoted _ => rfl
  | mark sign =>
    rw [Word.isPunct_openCurly, decide_eq_false]
    rintro rfl
    exact other rfl

/-- An interface ends behind its members, if there is no brace in front of them. -/
theorem behindBlock?_laid {layout : Layout} {tokens : List Token} (laid : Laid layout tokens)
    {front inner : List Word}
    (words : layout.words = front ++ .mark .openCurly :: (inner ++ [.mark .closeCurly]))
    (flat : Word.mark .openCurly ∉ front) {free : Bool} {finish : Place}
    (walked : Place.walk free ⟨0, false⟩ inner = some finish) (closed : finish.depth = 0)
    (more : List Token) : behindBlock? (tokens ++ more) = some more := by
  induction laid generalizing front with
  | nil => simp [Layout.words] at words
  | @cons gap word layout spaces tokens here trivial breaks laid ih =>
    rw [Layout.words, List.map_cons] at words
    rw [List.append_assoc, List.cons_append, behindBlock?_append trivial, behindBlock?]
    rcases front with _ | ⟨first, front⟩
    · obtain ⟨rfl, rest⟩ := List.cons.inj words
      exact behindBlockFrom?_laid laid rest walked closed more
    · obtain ⟨rfl, rest⟩ := List.cons.inj words
      rw [List.mem_cons, not_or] at flat
      rw [isPunct_of_ne flat.1]
      exact ih rest flat.2

/-! ## Words that declare no type -/

theorem ahead_of_skipTrivia {ts later : List Token} {next : Token}
    (skipped : skipTrivia ts = next :: later) (count : Nat) :
    ahead (count + 1) ts = next :: ahead count later := by
  induction ts with
  | nil => cases skipped
  | cons t ts ih =>
    rw [skipTrivia, List.dropWhile_cons] at skipped
    rw [ahead]
    split at skipped
    · next trivial => rw [if_pos trivial, ih skipped]
    · next means =>
      cases skipped
      rw [if_neg means]

private theorem isIdentifier_of_ne {t : Token} (other : t.kind ≠ .identifier) (name : String) :
    t.isIdentifier name = false := by
  rw [Token.isIdentifier, beq_false_of_ne other, Bool.false_and]

private theorem behindTypeDeclaration?_of_ne {t : Token} (other : t.kind ≠ .identifier)
    (exported : Bool) (ts : List Token) : behindTypeDeclaration? exported (t :: ts) = none := by
  simp [behindTypeDeclaration?, isIdentifier_of_ne other]

/-- No declaration of a type begins at a word, unless a name follows a name. -/
theorem behindTypeOnly?_eq_none {t : Token} {ts : List Token}
    (apart : t.kind = .identifier →
      ∃ next later, skipTrivia ts = next :: later ∧ next.kind ≠ .identifier) :
    behindTypeOnly? (t :: ts) = none := by
  rw [behindTypeOnly?]
  by_cases name : t.kind = .identifier
  · obtain ⟨next, later, skipped, other⟩ := apart name
    split
    · rw [skipped]
      exact behindTypeDeclaration?_of_ne other true later
    · rw [behindTypeDeclaration?, ahead_of_skipTrivia skipped, ahead_of_skipTrivia skipped]
      have noName := isIdentifier_of_ne other
      -- How many words there are matters to the scan, but the second one decides.
      rcases ahead 1 later with _ | ⟨third, _ | ⟨fourth, more⟩⟩
      · simp [ahead, other]
      · simp [ahead, other, noName]
      · simp [ahead, other]
  · rw [isIdentifier_of_ne name, if_neg Bool.false_ne_true]
    exact behindTypeDeclaration?_of_ne name false ts

theorem eraseFrom_of_none {t : Token} (means : t.isTrivia = false) {depth : Int}
    {previous : Option Token} {broke : Bool} {ts : List Token}
    (none : behindTypeOnly? (t :: ts) = none) :
    eraseFrom depth previous broke (t :: ts) =
      (t :: (eraseFrom (t.depthAfter depth) (some t) false ts).1,
        (eraseFrom (t.depthAfter depth) (some t) false ts).2) := by
  rw [eraseFrom, if_neg (Bool.eq_false_iff.mp means), none, ite_self]

theorem eraseFrom_of_some {t : Token} (means : t.isTrivia = false) {previous : Option Token}
    {broke : Bool} (ends : endsStatement previous broke = true) {ts rest : List Token}
    (found : behindTypeOnly? (t :: ts) = some rest) :
    eraseFrom 0 previous broke (t :: ts) =
      (dropLineEnd (eraseFrom 0 none false rest).1, (eraseFrom 0 none false rest).2 + 1) := by
  rw [eraseFrom, if_neg (Bool.eq_false_iff.mp means), ends, found]
  rfl

/-- The first significant token of a layout is its first word. -/
theorem Laid.exists_skipTrivia {layout : Layout} {tokens : List Token} (laid : Laid layout tokens)
    {word : Word} {words : List Word} (spelled : layout.words = word :: words) :
    ∃ offset rest, Laid layout.tail rest ∧
      ∀ more, skipTrivia (tokens ++ more) = word.token offset :: (rest ++ more) := by
  cases laid with
  | nil => cases spelled
  | @cons gap first layout spaces tokens here trivial breaks laid =>
    obtain ⟨rfl, _⟩ := List.cons.inj spelled
    refine ⟨here, tokens, laid, ?_⟩
    intro more
    rw [List.append_assoc, List.cons_append, skipTrivia_append trivial]

private theorem behindName_of_step {free : Bool} {place next : Place} {identifier : Identifier}
    (stepped : place.step free (.name identifier) = some next) : next.behindName = true := by
  simp only [Place.step] at stepped
  split at stepped
  · cases stepped
  · cases stepped
    rfl

/-- Behind a name, a walk goes on with another word. -/
private theorem exists_next_of_behindName {layout : Layout} {tokens : List Token}
    (laid : Laid layout tokens) {body : List Word} {sign : Mark}
    (words : layout.words = body ++ [.mark sign]) {free : Bool} {place finish : Place}
    (walked : place.walk free body = some finish) (named : place.behindName = true)
    (more : List Token) :
    ∃ next later, skipTrivia (tokens ++ more) = next :: later ∧ next.kind ≠ .identifier := by
  cases laid with
  | nil => simp [Layout.words] at words
  | @cons gap word layout spaces tokens here trivial breaks laid =>
    rw [List.append_assoc, List.cons_append, skipTrivia_append trivial]
    refine ⟨word.token here, tokens ++ more, rfl, ?_⟩
    rcases cases_walk words walked with ⟨rfl, _⟩ | ⟨rest, next, stepped, _⟩
    · exact TokenKind.noConfusion
    · cases word with
      | name identifier => simp [Place.step, named] at stepped
      | numeral _ => exact TokenKind.noConfusion
      | quoted _ => exact TokenKind.noConfusion
      | mark _ => exact TokenKind.noConfusion

/-- The eraser keeps words among which no name follows a name, up to a mark outside brackets. -/
theorem eraseFrom_laid {layout : Layout} {tokens : List Token} (laid : Laid layout tokens)
    {body : List Word} {sign : Mark} (words : layout.words = body ++ [.mark sign]) {free : Bool}
    {place finish : Place} (walked : place.walk free body = some finish)
    (closed : (Word.mark sign).depthAfter finish.depth = 0) (previous : Option Token) (broke : Bool)
    (more : List Token) :
    ∃ offset, eraseFrom place.depth previous broke (tokens ++ more) =
      (tokens ++ (eraseFrom 0 (some ((Word.mark sign).token offset)) false more).1,
        (eraseFrom 0 (some ((Word.mark sign).token offset)) false more).2) := by
  induction laid generalizing body place previous broke with
  | nil => simp [Layout.words] at words
  | @cons gap word layout spaces tokens here trivial breaks laid ih =>
    rw [List.append_assoc, List.cons_append, eraseFrom_append trivial]
    rcases cases_walk words walked with ⟨rfl, rfl, rfl⟩ | ⟨rest, next, stepped, walked, following⟩
    · cases laid
      refine ⟨here, ?_⟩
      have noName : ((Word.mark sign).token here).kind ≠ .identifier := TokenKind.noConfusion
      have outside : ((Word.mark sign).token here).depthAfter place.depth = 0 := closed
      rw [eraseFrom_of_none (Word.token_isTrivia _ here)
        (behindTypeOnly?_eq_none fun name => absurd name noName), outside]
      simp
    · have depth := (word.step_spec stepped here).1
      have apart : (word.token here).kind = .identifier →
          ∃ next later, skipTrivia (tokens ++ more) = next :: later ∧ next.kind ≠ .identifier := by
        intro name
        cases word with
        | name identifier =>
          exact exists_next_of_behindName laid following walked (behindName_of_step stepped) more
        | numeral _ => cases name
        | quoted _ => cases name
        | mark _ => cases name
      obtain ⟨offset, kept⟩ := ih following walked (some (word.token here)) false
      refine ⟨offset, ?_⟩
      rw [eraseFrom_of_none (Word.token_isTrivia _ here) (behindTypeOnly?_eq_none apart),
        depth, kept]
      simp

end Recast.Script
