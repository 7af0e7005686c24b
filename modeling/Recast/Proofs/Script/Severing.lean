import Recast.Emit.Module
import Recast.Proofs.Script.Nesting
import Recast.Proofs.Script.Standing

/-! # Brackets that are severed

The eraser takes statements out of a script with nested brackets. What remains is nested exactly if
it severs no pair of brackets, that is, erases both of a pair or neither. An alias severs none. An
interface may: its members are taken to begin at its first brace, and if that stands inside brackets
that the interface opened, the interface ends there, and the counterparts of those brackets remain
(`reparsed_faultless_iff`).
-/

namespace Recast.Script

/-! ## Pairs -/

/-- The tokens of the portions, each with whether it is erased. -/
def marksOf (portions : List Portion) : List (Token × Bool) :=
  portions.flatMap fun portion => portion.tokens.map (·, portion.isErased)

/-- The tokens that are not marked. -/
def keptOf (marks : List (Token × Bool)) : List Token :=
  (marks.filter (!·.2)).map Prod.fst

/-- Whether of each pair of brackets both are marked or neither is. -/
def Unsevered (marks : List (Token × Bool)) : Prop :=
  ∀ (front inner back : List (Token × Bool)) (opening closing : Token × Bool) (bracket : Bracket),
    marks = front ++ opening :: (inner ++ closing :: back) →
      opening.1.role = .opens bracket → closing.1.role = .closes bracket →
      Nested (inner.map Prod.fst) → opening.2 = closing.2

@[simp] theorem keptOf_nil : keptOf [] = [] := rfl

theorem keptOf_append (front back : List (Token × Bool)) :
    keptOf (front ++ back) = keptOf front ++ keptOf back := by
  simp [keptOf]

@[simp] theorem keptOf_cons_false (t : Token) (marks : List (Token × Bool)) :
    keptOf ((t, false) :: marks) = t :: keptOf marks := rfl

@[simp] theorem keptOf_cons_true (t : Token) (marks : List (Token × Bool)) :
    keptOf ((t, true) :: marks) = keptOf marks := rfl

/-- A part of tokens without severed pairs has none. -/
theorem Unsevered.of_infix {front inner back : List (Token × Bool)}
    (unsevered : Unsevered (front ++ (inner ++ back))) : Unsevered inner := by
  rintro before inside behind opening closing bracket rfl opens closes nested
  refine unsevered (front ++ before) inside (behind ++ back) opening closing bracket ?_ opens
    closes nested
  simp

/-- Tokens stay nested when no pair is severed. -/
theorem nested_keptOf {marks : List (Token × Bool)} (nested : Nested (marks.map Prod.fst))
    (unsevered : Unsevered marks) : Nested (keptOf marks) := by
  generalize same : marks.map Prod.fst = ts at nested
  induction nested generalizing marks with
  | nil =>
    rw [List.map_eq_nil_iff.mp same]
    exact .nil
  | @other t ts none _ ih =>
    obtain ⟨⟨_, erased⟩, rest, rfl, rfl, later⟩ := List.map_eq_cons_iff.mp same
    have inner : Unsevered rest :=
      @Unsevered.of_infix [(_, erased)] rest [] (by simpa using unsevered)
    have kept := ih inner later
    cases erased with
    | false => exact .other none kept
    | true => exact kept
  | @pair opening closing inner behind bracket opens inside closes _ ihInner ihBehind =>
    obtain ⟨⟨_, erased⟩, rest, rfl, rfl, later⟩ := List.map_eq_cons_iff.mp same
    obtain ⟨inner, rest, rfl, rfl, last⟩ := List.map_eq_append_iff.mp later
    obtain ⟨⟨_, erased'⟩, behind, rfl, rfl, rfl⟩ := List.map_eq_cons_iff.mp last
    obtain rfl : erased = erased' := unsevered [] inner behind _ _ bracket rfl opens closes inside
    have keptInner := ihInner (@Unsevered.of_infix [(_, erased)] inner _ unsevered) rfl
    have keptBehind := ihBehind (@Unsevered.of_infix ((_, erased) :: (inner ++ [(_, erased)]))
      behind [] (by simpa using unsevered)) rfl
    cases erased with
    | false =>
      rw [keptOf_cons_false, keptOf_append, keptOf_cons_false]
      exact .pair opens keptInner closes keptBehind
    | true =>
      rw [keptOf_cons_true, keptOf_append, keptOf_cons_true]
      exact keptInner.append keptBehind

/-- If what is kept is nested, and no brackets are open in it wherever a token is erased, then no
pair is severed. -/
theorem unsevered_of_nested {marks : List (Token × Bool)} (nested : Nested (keptOf marks))
    (level : ∀ front t back, marks = front ++ (t, true) :: back → openDepth 0 (keptOf front) = 0) :
    Unsevered marks := by
  have walked := nested_iff.mp nested
  intro front inner back opening closing bracket split opens closes inside
  -- The pairs inside a pair are closer together.
  induction size : inner.length using Nat.strong_induction_on
    generalizing front inner back opening closing bracket with
  | _ size ih =>
    subst size
    have keptInner : Nested (keptOf inner) := by
      refine nested_keptOf inside ?_
      rintro before within behind opening' closing' bracket' rfl opens' closes' inside'
      refine ih within.length ?_ (front ++ opening :: before) within (behind ++ closing :: back)
        opening' closing' bracket' ?_ opens' closes' inside' rfl
      · simp only [List.length_append, List.length_cons]
        omega
      · rw [split]
        simp
    obtain ⟨t, erased⟩ := opening
    obtain ⟨u, erased'⟩ := closing
    rw [split, keptOf_append] at walked
    obtain ⟨stack, first, walked⟩ := exists_of_openBehind?_append walked
    cases erased <;> cases erased'
    case false.false => rfl
    case true.true => rfl
    case false.true =>
      have closed := level (front ++ (t, false) :: inner) u back (by rw [split]; simp)
      have open' : openBehind? [] (keptOf (front ++ (t, false) :: inner)) =
          some (bracket :: stack) := by
        rw [keptOf_append, openBehind?_append, first, Option.bind_some, keptOf_cons_false,
          openBehind?_cons, Token.openBehind?_of_opens opens, Option.bind_some,
          keptInner.openBehind?_eq]
      have depth := openDepth_of_openBehind? open'
      rw [List.length_nil, Int.natCast_zero, closed, List.length_cons] at depth
      omega
    case true.false =>
      have closed := level front t (inner ++ (u, false) :: back) split
      have depth := openDepth_of_openBehind? first
      rw [List.length_nil, Int.natCast_zero, closed] at depth
      obtain rfl : stack = [] := List.length_eq_zero_iff.mp (by omega)
      rw [keptOf_cons_true, keptOf_append, openBehind?_append, keptInner.openBehind?_eq,
        Option.bind_some, keptOf_cons_false] at walked
      obtain ⟨next, stepped, -⟩ := exists_of_openBehind?_cons walked
      simp [Token.openBehind?, closes] at stepped

/-! ## What remains of nested brackets -/

@[simp] theorem marksOf_kept (t : Token) (portions : List Portion) :
    marksOf (.kept t :: portions) = (t, false) :: marksOf portions := rfl

@[simp] theorem marksOf_erased (run : List Token) (portions : List Portion) :
    marksOf (.erased run :: portions) = run.map (·, true) ++ marksOf portions := rfl

theorem map_fst_marksOf (portions : List Portion) :
    (marksOf portions).map Prod.fst = wholeOf portions := by
  induction portions with
  | nil => rfl
  | cons portion portions ih =>
    cases portion with
    | kept t => rw [marksOf_kept, List.map_cons, ih, wholeOf_kept]
    | erased run =>
      rw [marksOf_erased, List.map_append, ih, wholeOf_erased, List.map_map]
      exact congrArg (· ++ wholeOf portions) (List.map_id run)

theorem keptOf_map_true (run : List Token) : keptOf (run.map (·, true)) = [] := by
  induction run with
  | nil => rfl
  | cons t run ih => exact ih

/-- Only whitespace tells what remains from what is kept. -/
theorem significant_remainsOf {portions : List Portion}
    (texts : ∀ t ∈ wholeOf portions, t.text ≠ "") :
    significant (remainsOf portions) = significant (keptOf (marksOf portions)) := by
  induction portions with
  | nil => rfl
  | cons portion portions ih =>
    cases portion with
    | kept t =>
      have later := ih (List.forall_mem_cons.mp texts).2
      rw [remainsOf, marksOf_kept, keptOf_cons_false, significant, List.filter_cons, significant,
        List.filter_cons]
      rw [significant, significant] at later
      rw [later]
    | erased run =>
      have texts : ∀ t ∈ wholeOf portions, t.text ≠ "" :=
        fun t member => texts t (List.mem_append_right _ member)
      rw [remainsOf, (trims_dropLineEnd (remainsOf_text_ne_empty texts)).significant, ih texts,
        marksOf_erased, keptOf_append, keptOf_map_true, List.nil_append]

theorem bare_remainsOf {portions : List Portion} (texts : ∀ t ∈ wholeOf portions, t.text ≠ "") :
    bare (remainsOf portions) = bare (keptOf (marksOf portions)) :=
  congrArg (List.map _) (significant_remainsOf texts)

/-- No brackets that are kept are open where a statement is erased. -/
theorem Sweep.openDepth_eq_zero {depth : Int} {previous : Option Token} {broke : Bool}
    {portions : List Portion} (sweep : Sweep depth previous broke portions)
    {front back : List (Token × Bool)} {t : Token}
    (split : marksOf portions = front ++ (t, true) :: back) :
    openDepth depth (keptOf front) = 0 := by
  induction sweep generalizing front with
  | done => simp [marksOf] at split
  | @skip depth previous broke u portions trivial _ ih =>
    rw [marksOf_kept] at split
    cases front with
    | nil => cases split
    | cons mark front =>
      obtain ⟨rfl, rest⟩ := List.cons.inj split
      have same : u.depthAfter depth = depth := by
        rw [Token.depthAfter, Token.role_of_isTrivia trivial]
      rw [keptOf_cons_false, openDepth, List.foldl_cons, same]
      exact ih rest
  | @keep depth previous broke u portions _ _ _ ih =>
    rw [marksOf_kept] at split
    cases front with
    | nil => cases split
    | cons mark front =>
      obtain ⟨rfl, rest⟩ := List.cons.inj split
      exact ih rest
  | @take previous broke u us portions _ _ _ _ ih =>
    rw [marksOf_erased] at split
    rcases List.append_eq_append_iff.mp split with ⟨more, rfl, rest⟩ | ⟨more, run, -⟩
    · rw [keptOf_append, keptOf_map_true]
      exact ih rest
    · have none : keptOf front = [] := by
        have all := keptOf_map_true (u :: us)
        rw [run, keptOf_append] at all
        exact (List.append_eq_nil_iff.mp all).1
      rw [none]
      rfl

/-- What remains of nested brackets is nested exactly if no pair is severed. -/
theorem Sweep.nested_remainsOf_iff {previous : Option Token} {broke : Bool}
    {portions : List Portion} (sweep : Sweep 0 previous broke portions)
    (texts : ∀ t ∈ wholeOf portions, t.text ≠ "") (nested : Nested (wholeOf portions)) :
    Nested (remainsOf portions) ↔ Unsevered (marksOf portions) := by
  rw [nested_congr (bare_remainsOf texts)]
  rw [← map_fst_marksOf] at nested
  exact ⟨fun kept => unsevered_of_nested kept fun _ _ _ split => sweep.openDepth_eq_zero split,
    nested_keptOf nested⟩

/-! ## Statements that sever nothing -/

/-- Whether the tokens are those of an interface. -/
def IsInterface (run : List Token) : Prop :=
  ∃ front keyword later, run = front ++ keyword :: later ∧
    (∀ t ∈ front, t.isTrivia = true ∨ t.isIdentifier "export" = true) ∧
    keyword.isIdentifier "interface" = true

/-- Whether the first brace of an interface, if it is one, stands outside the brackets that it has
opened so far. -/
def Headed (run : List Token) : Prop :=
  IsInterface run → ∀ head brace members, run = head ++ brace :: members →
    brace.isPunct "\x7b" = true → (∀ t ∈ head, t.isPunct "\x7b" = false) → Nested head

theorem Token.role_of_kind {t : Token} (other : t.kind ≠ .punctuation) : t.role = .none :=
  if_neg other

theorem Token.isPunct_of_kind {t : Token} (other : t.kind ≠ .punctuation) (text : String) :
    t.isPunct text = false := by
  rw [isPunct, beq_false_of_ne other, Bool.false_and]

theorem Token.kind_of_isIdentifier {t : Token} {name : String}
    (named : t.isIdentifier name = true) : t.kind = .identifier := by
  rw [isIdentifier, Bool.and_eq_true, beq_iff_eq] at named
  exact named.1

/-- No modifier is a mark. -/
theorem Token.kind_of_modifier {t : Token} {name : String}
    (modifier : t.isTrivia = true ∨ t.isIdentifier name = true) : t.kind ≠ .punctuation := by
  intro punctuation
  rcases modifier with trivial | named
  · rw [isTrivia, punctuation] at trivial
    cases trivial
  · rw [kind_of_isIdentifier named] at punctuation
    cases punctuation

theorem Token.role_of_isPunct_brace {t : Token} (brace : t.isPunct "\x7b" = true) :
    t.role = .opens .curly := by
  rw [isPunct, Bool.and_eq_true, beq_iff_eq, beq_iff_eq] at brace
  rw [role, if_pos brace.1, brace.2]
  rfl

/-- A statement ends outside the brackets that are open, if they are closed in the end. -/
theorem openBehind?_behindStatementFrom {depth : Int} {last : Token} {broke : Bool}
    {behind ts : List Token} {stack : List Bracket} (level : depth = stack.length)
    (before : openBehind? stack behind = some []) (walked : openBehind? stack ts = some []) :
    openBehind? [] (behindStatementFrom depth last broke behind ts) = some [] := by
  induction ts generalizing depth last broke behind stack with
  | nil =>
    cases walked
    exact before
  | cons t ts ih =>
    rw [behindStatementFrom]
    have outside {depth : Int} {stack : List Bracket} (level : depth = stack.length)
        (low : depth ≤ 0) : stack = [] :=
      List.length_eq_zero_iff.mp (by omega)
    split
    · next trivial =>
      rw [openBehind?_cons_of_none (Token.role_of_isTrivia trivial)] at walked
      exact ih level before walked
    · obtain ⟨next, stepped, later⟩ := exists_of_openBehind?_cons walked
      have level' : t.depthAfter depth = next.length := by
        rw [level]
        exact Token.depthAfter_of_openBehind? stepped
      split
      · next ends =>
        simp only [Bool.and_eq_true, decide_eq_true_eq] at ends
        obtain rfl := outside level ends.1.1.1
        exact before
      · split
        · next ends =>
          simp only [Bool.and_eq_true, decide_eq_true_eq] at ends
          obtain rfl := outside level' ends.1
          exact later
        · exact ih level' later later

theorem openBehind?_behindStatement {t : Token} {ts : List Token}
    (walked : openBehind? [] (t :: ts) = some []) :
    openBehind? [] (behindStatement (t :: ts)) = some [] := by
  obtain ⟨next, stepped, later⟩ := exists_of_openBehind?_cons walked
  have level : t.depthAfter 0 = next.length := Token.depthAfter_of_openBehind? stepped
  rw [behindStatement]
  split
  · next ends =>
    simp only [Bool.and_eq_true, decide_eq_true_eq] at ends
    obtain rfl : next = [] := List.length_eq_zero_iff.mp (by omega)
    exact later
  · exact openBehind?_behindStatementFrom level later later

/-- A block ends outside the brackets that are open, if they are all that it counts. -/
theorem openBehind?_of_behindBlockFrom? {depth : Int} {ts behind : List Token}
    {stack : List Bracket} (level : depth = stack.length)
    (found : behindBlockFrom? depth ts = some behind) (walked : openBehind? stack ts = some []) :
    openBehind? [] behind = some [] := by
  induction ts generalizing depth stack with
  | nil => cases found
  | cons t ts ih =>
    obtain ⟨next, stepped, later⟩ := exists_of_openBehind?_cons walked
    rw [behindBlockFrom?] at found
    have level' : t.depthAfter depth = next.length := by
      rw [level]
      exact Token.depthAfter_of_openBehind? stepped
    split at found
    · next ends =>
      cases found
      rw [Bool.and_eq_true, decide_eq_true_eq] at ends
      obtain ⟨closes, outermost⟩ := ends
      rcases Token.cases_openBehind? stepped with
        ⟨role, -⟩ | ⟨bracket, role, -⟩ | ⟨bracket, -, rfl⟩
      · rw [Token.isClose, role] at closes
        cases closes
      · rw [Token.isClose, role] at closes
        cases closes
      · rw [List.length_cons] at level
        obtain rfl : next = [] := List.length_eq_zero_iff.mp (by omega)
        exact later
    · exact ih level' found later

/-- The first block begins at the first brace. -/
theorem exists_brace_of_behindBlock? {ts behind : List Token}
    (found : behindBlock? ts = some behind) :
    ∃ head brace members, ts = head ++ brace :: members ∧ brace.isPunct "\x7b" = true ∧
      (∀ u ∈ head, u.isPunct "\x7b" = false) ∧ behindBlockFrom? 1 members = some behind := by
  induction ts with
  | nil => cases found
  | cons t ts ih =>
    rw [behindBlock?] at found
    split at found
    · next brace => exact ⟨[], t, ts, rfl, brace, by simp, found⟩
    · next other =>
      obtain ⟨head, brace, members, rfl, opens, none, found⟩ := ih found
      exact ⟨t :: head, brace, members, rfl, opens,
        List.forall_mem_cons.mpr ⟨Bool.eq_false_iff.mpr other, none⟩, found⟩

theorem nested_of_none {ts : List Token} (none : ∀ t ∈ ts, t.role = .none) : Nested ts := by
  induction ts with
  | nil => exact .nil
  | cons t ts ih =>
    obtain ⟨here, later⟩ := List.forall_mem_cons.mp none
    exact .other here (ih later)

/-- A declaration of a type ends outside brackets, unless it is an interface that has opened some in
front of its first brace. -/
theorem openBehind?_of_behindTypeOnly? {t : Token} {ts behind : List Token}
    (means : t.isTrivia = false) (found : behindTypeOnly? (t :: (ts ++ behind)) = some behind)
    (headed : Headed (t :: ts)) (walked : openBehind? [] (t :: (ts ++ behind)) = some []) :
    openBehind? [] behind = some [] := by
  obtain ⟨exported, front, keyword, later, split, modifiers, -, declared⟩ :=
    exists_keyword_of_behindTypeOnly? means found
  have plain : ∀ u ∈ front, u.kind ≠ .punctuation :=
    fun u member => Token.kind_of_modifier (modifiers u member)
  have flat : Nested front := nested_of_none fun u member => Token.role_of_kind (plain u member)
  rcases cases_behindTypeDeclaration? declared with ⟨statement, -⟩ | ⟨interface, block⟩
  · rw [split, openBehind?_append, flat.openBehind?_eq, Option.bind_some] at walked
    rw [← statement]
    exact openBehind?_behindStatement walked
  · obtain ⟨head, brace, members, rfl, opens, none, ended⟩ := exists_brace_of_behindBlock? block
    obtain ⟨inner, rfl⟩ := isSuffix_of_behindBlockFrom? ended
    have run : t :: ts = (front ++ keyword :: head) ++ brace :: inner := by
      rw [← List.append_left_inj behind, List.cons_append, split]
      simp
    have noBrace : ∀ u ∈ front ++ keyword :: head, u.isPunct "\x7b" = false := by
      refine List.forall_mem_append.mpr ⟨fun u member => Token.isPunct_of_kind (plain u member) _,
        List.forall_mem_cons.mpr ⟨Token.isPunct_of_kind ?_ _, none⟩⟩
      rw [Token.kind_of_isIdentifier interface]
      exact TokenKind.noConfusion
    have nested : Nested (front ++ keyword :: head) :=
      headed ⟨front, keyword, head ++ brace :: inner, by rw [run]; simp, modifiers, interface⟩ _
        brace inner run opens noBrace
    have behindHead : t :: (ts ++ behind) =
        (front ++ keyword :: head) ++ brace :: (inner ++ behind) := by
      rw [← List.cons_append, run]
      simp
    rw [behindHead, openBehind?_append, nested.openBehind?_eq, Option.bind_some, openBehind?_cons,
      Token.openBehind?_of_opens (Token.role_of_isPunct_brace opens), Option.bind_some] at walked
    exact @openBehind?_of_behindBlockFrom? 1 _ _ [.curly] rfl ended walked

/-- What is kept of brackets that are all closed is closed, if each interface has its head. -/
theorem Sweep.openBehind?_keptOf {depth : Int} {previous : Option Token} {broke : Bool}
    {portions : List Portion} (sweep : Sweep depth previous broke portions)
    {stack : List Bracket} (level : depth = stack.length)
    (headed : ∀ run, Portion.erased run ∈ portions → Headed run)
    (walked : openBehind? stack (wholeOf portions) = some []) :
    openBehind? stack (keptOf (marksOf portions)) = some [] := by
  induction sweep generalizing stack with
  | done => exact walked
  | @skip depth previous broke t portions trivial _ ih =>
    have role := Token.role_of_isTrivia trivial
    rw [wholeOf_kept, openBehind?_cons_of_none role] at walked
    rw [marksOf_kept, keptOf_cons_false, openBehind?_cons_of_none role]
    exact ih level (fun run member => headed run (List.mem_cons_of_mem _ member)) walked
  | @keep depth previous broke t portions _ _ _ ih =>
    obtain ⟨next, stepped, later⟩ := exists_of_openBehind?_cons walked
    rw [marksOf_kept, keptOf_cons_false, openBehind?_cons, stepped, Option.bind_some]
    refine ih ?_ (fun run member => headed run (List.mem_cons_of_mem _ member)) later
    rw [level]
    exact Token.depthAfter_of_openBehind? stepped
  | @take previous broke t ts portions means _ found _ ih =>
    obtain rfl : stack = [] := List.length_eq_zero_iff.mp (by omega)
    have behind := openBehind?_of_behindTypeOnly? means found (headed _ List.mem_cons_self) walked
    rw [marksOf_erased, keptOf_append, keptOf_map_true, List.nil_append]
    exact ih rfl (fun run member => headed run (List.mem_cons_of_mem _ member)) behind

/-! ## Scripts -/

/-- A script is accepted if its pieces are and its brackets are nested. -/
theorem faults_parse_eq_nil_iff {file : Path} {text : String} :
    (Tree.parse file text).faults = [] ↔
      lexicalFaults 0 (lexemes text.toList) = [] ∧ Nested (Tree.parse file text).tokens := by
  rw [nested_iff, ← bracketFaults_eq_nil_iff (Text.byteLength text.toList)]
  simp only [Tree.parse, List.append_eq_nil_iff, List.map_eq_nil_iff]

/-- What is left of an accepted script when it is emitted without transformers is accepted exactly
if its brackets are nested, and these are exactly if no pair of them is severed. None is if in each
interface that is erased the first brace stands outside the brackets opened before it. -/
theorem reparsed_faultless_iff {file : Path} {text : String}
    (accepted : (Tree.parse file text).faults = []) (other : Path) :
    let erased := (eraseTypes (Tree.parse file text)).1
    (∀ (options : Options) (projectRoot : Path), options.newLine = none →
      options.wantsSourceMap = false →
      Emit.transpileModule file text options projectRoot {} = pure { text := erased.print }) ∧
    ((Tree.parse other erased.print).faults = [] ↔ Nested erased.tokens) ∧
    ∃ portions, Sweep 0 none false portions ∧ wholeOf portions = (Tree.parse file text).tokens ∧
      remainsOf portions = erased.tokens ∧
      (Nested erased.tokens ↔ Unsevered (marksOf portions)) ∧
      ((∀ run, Portion.erased run ∈ portions → Headed run) → Nested erased.tokens) := by
  intro erased
  obtain ⟨lexical, nested⟩ := faults_parse_eq_nil_iff.mp accepted
  obtain ⟨portions, sweep, whole, swept⟩ := exists_sweep 0 none false (Tree.parse file text).tokens
  have remains : erased.tokens = remainsOf portions := by
    change (eraseFrom 0 none false (Tree.parse file text).tokens).1 = _
    rw [swept]
  have stand : AllStand (wholeOf portions) := by
    rw [whole]
    exact allStand_tokensFrom lexical
  have again := bare_of_telling (telling_remainsOf sweep stand).1 0
  have print : erased.print.toList = printChars (remainsOf portions) := by
    rw [Tree.print, String.toList_ofList, remains]
  rw [← whole] at nested
  have texts := stand.text_ne_empty
  refine ⟨?_, ?_, portions, sweep, whole, remains.symm, ?_, ?_⟩
  · intro options projectRoot sameBreaks noMap
    have run : Emit.TransformerSet.run {} (Tree.parse file text) = pure erased := rfl
    have clean : ¬ Diagnostic.anyError [] = true := by simp [Diagnostic.anyError]
    rw [Emit.transpileModule, accepted, if_neg clean, run, pure_bind]
    simp only [Emit.render, noMap, sameBreaks, Emit.convertBreaks]
    rfl
  · rw [faults_parse_eq_nil_iff, Tree.parse, print, remains]
    exact (and_iff_right again.1).trans (nested_congr again.2)
  · rw [remains]
    exact sweep.nested_remainsOf_iff texts nested
  · intro headed
    rw [remains, nested_congr (bare_remainsOf texts), nested_iff]
    exact sweep.openBehind?_keptOf rfl headed (nested_iff.mp nested)

section Box

def boxPath : Path := ⟨true, ["a.ts"]⟩

def boxText : String :=
  "interface Box<T extends [\x7b\x7d]> \x7b value: T \x7d\nlet a = 1;\n"

/-- The first brace of this interface stands in a tuple that bounds its parameter. The interface
ends there, and the tuple is severed. -/
theorem box_severed :
    (Tree.parse boxPath boxText).faults = [] ∧
      (eraseTypes (Tree.parse boxPath boxText)).1.print = "]> \x7b value: T \x7d\nlet a = 1;\n" ∧
      (Tree.parse boxPath (eraseTypes (Tree.parse boxPath boxText)).1.print).faults ≠ [] ∧
      ∃ portions, Sweep 0 none false portions ∧
        wholeOf portions = (Tree.parse boxPath boxText).tokens ∧
        ¬ Unsevered (marksOf portions) ∧
        ¬ ∀ run, Portion.erased run ∈ portions → Headed run := by
  have accepted : (Tree.parse boxPath boxText).faults = [] := by decide +kernel
  have print : (eraseTypes (Tree.parse boxPath boxText)).1.print =
      "]> \x7b value: T \x7d\nlet a = 1;\n" := by decide +kernel
  have faulty : (Tree.parse boxPath "]> \x7b value: T \x7d\nlet a = 1;\n").faults ≠ [] := by
    decide +kernel
  obtain ⟨-, reparsed, portions, sweep, whole, -, unsevered, headed⟩ :=
    reparsed_faultless_iff accepted boxPath
  rw [← print] at faulty
  exact ⟨accepted, print, faulty, portions, sweep, whole,
    fun none => faulty (reparsed.mpr (unsevered.mpr none)),
    fun all => faulty (reparsed.mpr (headed all))⟩

end Box

end Recast.Script
