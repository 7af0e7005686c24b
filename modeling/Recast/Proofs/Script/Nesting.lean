import Recast.Proofs.Script.Erasure

/-! # Nested brackets

Brackets are nested if every opening one has its closing one behind it, with nested brackets in
between. A parser that keeps the open brackets on a stack accepts exactly such tokens
(`bracketFaults_eq_nil_iff`, `nested_iff`), and the depth that a scan counts is the height of the
stack (`openDepth_of_openBehind?`).
-/

namespace Recast.Script

/-- Tokens among which every bracket has its counterpart. -/
inductive Nested : List Token → Prop
  | nil : Nested []
  | other {t : Token} {ts : List Token} (none : t.role = .none) (rest : Nested ts) :
      Nested (t :: ts)
  | pair {opening closing : Token} {inner behind : List Token} {bracket : Bracket}
      (opens : opening.role = .opens bracket) (inside : Nested inner)
      (closes : closing.role = .closes bracket) (rest : Nested behind) :
      Nested (opening :: (inner ++ closing :: behind))

/-- The brackets that are open behind a token, innermost first, unless it closes another one than
the innermost. -/
def Token.openBehind? (stack : List Bracket) (t : Token) : Option (List Bracket) :=
  match t.role, stack with
  | .none, _ => some stack
  | .opens bracket, _ => some (bracket :: stack)
  | .closes bracket, opened :: stack => if bracket = opened then some stack else none
  | .closes _, [] => none

/-- The brackets that are open behind tokens. -/
def openBehind? (stack : List Bracket) (ts : List Token) : Option (List Bracket) :=
  ts.foldlM Token.openBehind? stack

/-- How many brackets a scan counts behind tokens. -/
def openDepth (depth : Int) (ts : List Token) : Int :=
  ts.foldl (fun depth t => t.depthAfter depth) depth

section Stack

variable {stack : List Bracket} {t : Token} {bracket : Bracket}

theorem Token.openBehind?_of_none (none : t.role = .none) : t.openBehind? stack = some stack := by
  simp only [openBehind?, none]

theorem Token.openBehind?_of_opens (opens : t.role = .opens bracket) :
    t.openBehind? stack = some (bracket :: stack) := by
  simp only [openBehind?, opens]

theorem Token.openBehind?_of_closes (closes : t.role = .closes bracket) :
    t.openBehind? (bracket :: stack) = some stack := by
  simp only [openBehind?, closes, if_true]

/-- What a token does to the brackets that are open. -/
theorem Token.cases_openBehind? {last : List Bracket} (walked : t.openBehind? stack = some last) :
    (t.role = .none ∧ last = stack) ∨
      (∃ bracket, t.role = .opens bracket ∧ last = bracket :: stack) ∨
      ∃ bracket, t.role = .closes bracket ∧ stack = bracket :: last := by
  cases role : t.role with
  | none =>
    rw [openBehind?_of_none role] at walked
    exact .inl ⟨rfl, (Option.some.inj walked).symm⟩
  | opens bracket =>
    rw [openBehind?_of_opens role] at walked
    exact .inr (.inl ⟨bracket, rfl, (Option.some.inj walked).symm⟩)
  | closes bracket =>
    cases stack with
    | nil => simp [openBehind?, role] at walked
    | cons opened stack =>
      simp only [openBehind?, role, Option.ite_none_right_eq_some, Option.some.injEq] at walked
      exact .inr (.inr ⟨bracket, rfl, by rw [walked.1, walked.2]⟩)

theorem Token.depthAfter_of_openBehind? {last : List Bracket}
    (walked : t.openBehind? stack = some last) : t.depthAfter stack.length = last.length := by
  rcases cases_openBehind? walked with ⟨role, rfl⟩ | ⟨bracket, role, rfl⟩ | ⟨bracket, role, rfl⟩
  · rw [depthAfter, role]
  · rw [depthAfter, role, List.length_cons]
    push_cast
    rfl
  · rw [depthAfter, role, List.length_cons]
    push_cast
    exact Int.add_sub_cancel _ _

@[simp] theorem openBehind?_nil : openBehind? stack [] = some stack := rfl

theorem openBehind?_cons (ts : List Token) :
    openBehind? stack (t :: ts) = (t.openBehind? stack).bind fun next => openBehind? next ts := rfl

theorem openBehind?_cons_of_none (none : t.role = .none) (ts : List Token) :
    openBehind? stack (t :: ts) = openBehind? stack ts := by
  rw [openBehind?_cons, Token.openBehind?_of_none none, Option.bind_some]

theorem openBehind?_append (front back : List Token) :
    openBehind? stack (front ++ back) =
      (openBehind? stack front).bind fun next => openBehind? next back :=
  List.foldlM_append

/-- The first token of a walk, and the walk behind it. -/
theorem exists_of_openBehind?_cons {ts : List Token} {last : List Bracket}
    (walked : openBehind? stack (t :: ts) = some last) :
    ∃ next, t.openBehind? stack = some next ∧ openBehind? next ts = some last :=
  Option.bind_eq_some_iff.mp walked

theorem exists_of_openBehind?_append {front back : List Token} {last : List Bracket}
    (walked : openBehind? stack (front ++ back) = some last) :
    ∃ next, openBehind? stack front = some next ∧ openBehind? next back = some last := by
  rw [openBehind?_append] at walked
  exact Option.bind_eq_some_iff.mp walked

/-- The depth that is counted is the number of brackets that are open. -/
theorem openDepth_of_openBehind? {ts : List Token} {last : List Bracket}
    (walked : openBehind? stack ts = some last) : openDepth stack.length ts = last.length := by
  induction ts generalizing stack with
  | nil =>
    cases walked
    rfl
  | cons t ts ih =>
    obtain ⟨next, stepped, walked⟩ := exists_of_openBehind?_cons walked
    rw [openDepth, List.foldl_cons, Token.depthAfter_of_openBehind? stepped]
    exact ih walked

/-- The parser finds nothing wrong with brackets that are all closed behind the tokens. -/
theorem bracketFaults_eq_nil_iff (finish : Nat) (ts : List Token) :
    bracketFaults finish stack ts = [] ↔ openBehind? stack ts = some [] := by
  fun_induction bracketFaults finish stack ts with
  | case1 => simp
  | case2 => simp
  | case3 stack t ts role ih => rwa [openBehind?_cons_of_none role]
  | case4 stack t ts bracket role ih =>
    rwa [openBehind?_cons, Token.openBehind?_of_opens role, Option.bind_some]
  | case5 t ts bracket role ih =>
    have none : t.openBehind? [] = none := by simp only [Token.openBehind?, role]
    rw [openBehind?_cons, none]
    exact iff_of_false (List.cons_ne_nil _ _) (by simp)
  | case6 t ts opened stack role ih =>
    rwa [openBehind?_cons, Token.openBehind?_of_closes role, Option.bind_some]
  | case7 t ts bracket opened stack role apart ih =>
    have none : t.openBehind? (opened :: stack) = none := by
      simp only [Token.openBehind?, role, apart, if_false]
    rw [openBehind?_cons, none]
    exact iff_of_false (List.cons_ne_nil _ _) (by simp)

end Stack

theorem Nested.append {front back : List Token} (nested : Nested front) (behind : Nested back) :
    Nested (front ++ back) := by
  induction nested with
  | nil => exact behind
  | other none _ ih => exact .other none ih
  | @pair opening closing inner rest bracket opens inside closes _ _ ih =>
    rw [List.cons_append, List.append_assoc, List.cons_append]
    exact .pair opens inside closes ih

/-- Nested tokens leave the brackets that are open in front of them. -/
theorem Nested.openBehind?_eq {ts : List Token} (nested : Nested ts) (stack : List Bracket) :
    openBehind? stack ts = some stack := by
  induction nested generalizing stack with
  | nil => rfl
  | other none _ ih => rw [openBehind?_cons_of_none none, ih]
  | @pair opening closing inner behind bracket opens _ closes _ inside rest =>
    rw [openBehind?_cons, Token.openBehind?_of_opens opens, Option.bind_some, openBehind?_append,
      inside, Option.bind_some, openBehind?_cons, Token.openBehind?_of_closes closes,
      Option.bind_some, rest]

/-- Nested tokens up to the end of each bracket that is open, and behind the last one. -/
private def ClosesAll : List Bracket → List Token → Prop
  | [], ts => Nested ts
  | bracket :: stack, ts => ∃ inner closing behind, ts = inner ++ closing :: behind ∧
      Nested inner ∧ closing.role = .closes bracket ∧ ClosesAll stack behind

private theorem ClosesAll.append {front back : List Token} (nested : Nested front)
    {stack : List Bracket} (closes : ClosesAll stack back) : ClosesAll stack (front ++ back) := by
  cases stack with
  | nil => exact nested.append closes
  | cons bracket stack =>
    obtain ⟨inner, closing, behind, rfl, inside, role, rest⟩ := closes
    exact ⟨front ++ inner, closing, behind, (List.append_assoc ..).symm, nested.append inside,
      role, rest⟩

private theorem closesAll_of_openBehind? {stack : List Bracket} {ts : List Token}
    (walked : openBehind? stack ts = some []) : ClosesAll stack ts := by
  induction ts generalizing stack with
  | nil =>
    cases walked
    exact .nil
  | cons t ts ih =>
    obtain ⟨next, stepped, walked⟩ := exists_of_openBehind?_cons walked
    have closes := ih walked
    rcases Token.cases_openBehind? stepped with
      ⟨role, rfl⟩ | ⟨bracket, role, rfl⟩ | ⟨bracket, role, rfl⟩
    · exact closes.append (.other role .nil)
    · obtain ⟨inner, closing, behind, rfl, inside, shut, rest⟩ := closes
      have pair : Nested (t :: (inner ++ [closing])) := .pair role inside shut .nil
      have joined := rest.append pair
      rwa [List.cons_append, List.append_assoc, List.singleton_append] at joined
    · exact ⟨[], t, ts, rfl, .nil, role, closes⟩

/-- Tokens are nested if they close all that they open. -/
theorem nested_iff {ts : List Token} : Nested ts ↔ openBehind? [] ts = some [] :=
  ⟨fun nested => nested.openBehind?_eq [], closesAll_of_openBehind?⟩

/-- Only tokens with a meaning have to do with brackets. -/
theorem openBehind?_bare (stack : List Bracket) (ts : List Token) :
    openBehind? stack (bare ts) = openBehind? stack ts := by
  induction ts generalizing stack with
  | nil => rfl
  | cons t ts ih =>
    cases trivial : t.isTrivia with
    | true =>
      rw [bare_cons_of_isTrivia trivial, openBehind?_cons_of_none (Token.role_of_isTrivia trivial),
        ih]
    | false =>
      have same : ({ t with offset := none } : Token).openBehind? stack = t.openBehind? stack := rfl
      rw [bare_cons trivial, openBehind?_cons, openBehind?_cons, same]
      exact congrArg _ (funext ih)

theorem nested_congr {ts us : List Token} (same : bare ts = bare us) : Nested ts ↔ Nested us := by
  rw [nested_iff, nested_iff, ← openBehind?_bare, same, openBehind?_bare]

end Recast.Script
