import Recast.Addons.AssetImports
import Recast.Proofs.Build.Contexts
import Recast.Proofs.Build.Importers
import Recast.Proofs.Files.Places

/-! # Who imports an asset

The addon that follows imports looks at tokens: a word that imports, directly followed by a text
between quotes that leads from the directory of the script (`mem_assetsOf_iff`). Each run replaces
what its script imported before. So the answer for a file is always that of the latest run of every
script (`importers_latest`), whatever happens in between.
-/

namespace Recast.Addons.AssetImports

open Recast.Build Recast.Script Path

section Tokens

variable {tokens : List Token} {literal text : String}

/-- A text between two quotes of one kind. -/
def Quotes (literal text : String) : Prop :=
  ∃ quote, (quote = '"' ∨ quote = '\'') ∧ literal.toList = quote :: (text.toList ++ [quote])

/-- A string whose text leads from the directory of the script. -/
def RefersTo (token : Token) (text : String) : Prop :=
  token.kind = .string ∧ Quotes token.text text ∧ text.toList.head? = some '.'

/-- Some tokens begin with an import of a text: a word that imports is directly followed by a
string, or by a parenthesis and a string where it is a function. -/
inductive Begins (text : String) : List Token → Prop where
  | word {word string : Token} {behind : List Token}
      (imports : word.isIdentifier "import" ∨ word.isIdentifier "from")
      (refers : RefersTo string text) : Begins text (word :: string :: behind)
  | call {word paren string : Token} {behind : List Token} (requires : word.isIdentifier "require")
      (opens : paren.isPunct "(") (refers : RefersTo string text) :
      Begins text (word :: paren :: string :: behind)

/-- Somewhere in some tokens a text is imported. -/
def Cites (tokens : List Token) (text : String) : Prop :=
  ∃ before behind, tokens = before ++ behind ∧ Begins text behind

theorem unquote_eq_some_iff : unquote literal = some text ↔ Quotes literal text := by
  unfold unquote Quotes
  cases spelled : literal.toList with
  | nil => simp
  | cons quote rest =>
    simp only [Bool.and_eq_true, Bool.or_eq_true, decide_eq_true_eq, Option.ite_none_right_eq_some,
      Option.some.injEq, List.cons.injEq]
    constructor
    · rintro ⟨⟨kind, last⟩, rfl⟩
      obtain ⟨inner, rfl⟩ := List.getLast?_eq_some_iff.mp last
      exact ⟨quote, kind, rfl, by simp⟩
    · rintro ⟨_, kind, rfl, rfl⟩
      exact ⟨⟨kind, by simp⟩, by simp⟩

theorem reference?_eq_some_iff {token : Token} :
    reference? token = some text ↔ RefersTo token text := by
  unfold reference? RefersTo
  rw [Option.ite_none_right_eq_some, Option.filter_eq_some_iff, unquote_eq_some_iff,
    decide_eq_true_eq]

/-- No word imports in two ways. -/
private theorem not_requires {word : Token}
    (imports : word.isIdentifier "import" ∨ word.isIdentifier "from") :
    word.isIdentifier "require" = false := by
  unfold Token.isIdentifier at *
  rcases imports with imports | imports <;>
    simp_all

theorem begins_cons_iff {token : Token} {rest : List Token} :
    Begins text (token :: rest) ↔ (importedBy token rest).bind reference? = some text := by
  rw [Option.bind_eq_some_iff]
  unfold importedBy
  constructor
  · rintro (⟨imports, refers⟩ | ⟨requires, opens, refers⟩)
    · rw [if_pos (by simpa using imports)]
      exact ⟨_, rfl, reference?_eq_some_iff.mpr refers⟩
    · have none : ¬ (token.isIdentifier "import" || token.isIdentifier "from") = true :=
        fun imports => by
          rw [not_requires (by simpa using imports)] at requires
          cases requires
      rw [if_neg none, if_pos (by simpa [requires] using opens)]
      exact ⟨_, rfl, reference?_eq_some_iff.mpr refers⟩
  · rintro ⟨string, found, refers⟩
    rw [reference?_eq_some_iff] at refers
    split at found
    · next imports =>
      obtain ⟨behind, rfl⟩ := List.head?_eq_some_iff.mp found
      exact .word (by simpa using imports) refers
    · split at found
      · next requires =>
        rw [Bool.and_eq_true] at requires
        match rest, found, requires with
        | paren :: next :: behind, rfl, ⟨requires, opens⟩ => exact .call requires opens refers
      · cases found

theorem mem_references_iff : text ∈ references tokens ↔ Cites tokens text := by
  induction tokens with
  | nil =>
    constructor
    · intro known
      cases known
    · rintro ⟨before, behind, none, begins⟩
      obtain ⟨rfl, rfl⟩ := List.append_eq_nil_iff.mp none.symm
      cases begins
  | cons token rest ih =>
    rw [references, List.mem_append, Option.mem_toList, ← begins_cons_iff, ih]
    constructor
    · rintro (here | ⟨before, behind, rfl, begins⟩)
      · exact ⟨[], _, rfl, here⟩
      · exact ⟨token :: before, behind, rfl, begins⟩
    · rintro ⟨before, behind, split, begins⟩
      cases before with
      | nil => exact .inl (split ▸ begins)
      | cons first before =>
        obtain ⟨rfl, rfl⟩ := List.cons.inj split
        exact .inr ⟨before, behind, rfl, begins⟩

theorem mem_specifiers_iff {tree : Tree} :
    text ∈ specifiers tree ↔ Cites (significant tree.tokens) text := by
  rw [← mem_references_iff, specifiers]
  refine ⟨mem_of_mem_distinct, fun member => ?_⟩
  have found : (distinct (fun a b : String => a == b) _).any (text == ·) = true :=
    any_distinct (fun text => beq_self_eq_true text) member
  simpa using found

/-- A script imports a file: somewhere it cites a text that leads from its own directory to this
file, which has an extension that is not that of a script. -/
def Imports (projectRoot current importer : Path) (source : String) (asset : Path) : Prop :=
  ∃ text, Cites (significant (Tree.parse importer source).tokens) text ∧
    let found := ((importer.parent?.getD projectRoot).join (.ofString text)).resolveFrom current
    found.same asset ∧ found.extension?.isSome ∧ found.isScript = false

theorem exists_mem_assetsOf_iff {system : Files.System} {projectRoot path asset : Path}
    {source : String} :
    (∃ imported ∈ assetsOf system projectRoot path source, imported.same asset = true) ↔
      Imports projectRoot system.current path source asset := by
  simp only [assetsOf, List.mem_filter, List.mem_map, mem_specifiers_iff, isAsset,
    Bool.and_eq_true, Bool.not_eq_true']
  constructor
  · rintro ⟨_, ⟨⟨text, cited, rfl⟩, extension, noScript⟩, same⟩
    exact ⟨text, cited, same, extension, noScript⟩
  · rintro ⟨text, cited, same, extension, noScript⟩
    exact ⟨_, ⟨⟨text, cited, rfl⟩, extension, noScript⟩, same⟩

end Tokens

section Runs

/-- What happens to a session while imports are followed in one graph: a script is looked at, or
something else changes, which leaves this graph and the current directory alone. -/
inductive Happening (graph : Nat) where
  | visit (path : Path) (source : String)
  | aside (change : Session → Session)
      (kept : ∀ session, (change session).workspace.imports[graph]? =
          session.workspace.imports[graph]? ∧
        (change session).workspace.system.current = session.workspace.system.current)

namespace Happening

variable {graph : Nat}

/-- The session behind something that happened. A run that fails ends where it failed. -/
def run (scope : Scope) (session : Session) : Happening graph → Session
  | visit path source => endState (generator graph scope path source session)
  | aside change _ => change session

/-- The script that is looked at. -/
def visited? : Happening graph → Option (Path × String)
  | visit path source => some (path, source)
  | aside _ _ => none

end Happening

/-- The latest source of a path among some scripts. -/
def Latest (visits : List (Path × String)) (path : Path) (source : String) : Prop :=
  ∃ earlier later, visits = earlier ++ (path, source) :: later ∧
    ∀ visit ∈ later, visit.1.same path = false

theorem latest_concat_iff {visits : List (Path × String)} {first path : Path}
    {text source : String} :
    Latest (visits ++ [(first, text)]) path source ↔
      Latest visits path source ∧ first.same path = false ∨ path = first ∧ source = text := by
  constructor
  · rintro ⟨earlier, later, split, none⟩
    rcases List.eq_nil_or_concat later with rfl | ⟨later, last, rfl⟩
    · obtain ⟨-, same⟩ := List.append_inj' split rfl
      obtain ⟨⟨⟩, -⟩ := List.cons.inj same
      exact .inr ⟨rfl, rfl⟩
    · rw [List.concat_eq_append, ← List.cons_append, ← List.append_assoc] at split
      obtain ⟨rfl, same⟩ := List.append_inj' split rfl
      obtain ⟨rfl, -⟩ := List.cons.inj same
      rw [List.concat_eq_append] at none
      exact .inl ⟨⟨earlier, later, rfl, fun visit member =>
        none visit (List.mem_append_left _ member)⟩, none (first, text) (by simp)⟩
  · rintro (⟨⟨earlier, later, rfl, none⟩, apart⟩ | ⟨rfl, rfl⟩)
    · refine ⟨earlier, later ++ [(first, text)], by simp, fun visit member => ?_⟩
      rcases List.mem_append.mp member with known | last
      · exact none visit known
      · rw [List.mem_singleton.mp last]
        exact apart
    · exact ⟨visits, [], rfl, fun _ member => nomatch member⟩

variable {graph : Nat} {scope : Scope}

/-- What a build watches with changes neither a graph nor the current directory. -/
def WatchesAside (scope : Scope) : Prop :=
  ∀ watch, scope.watch? = some watch → ∀ path workspace next, watch path workspace = .ok next →
    next.imports = workspace.imports ∧ next.system.current = workspace.system.current

theorem watchesAside_scope (setup : Setup) (system : Files.System) (target : String) :
    WatchesAside (setup.scope system target) := by
  intro watch wanted path workspace next watched
  obtain ⟨_, rfl⟩ := Setup.watch?_scope wanted
  obtain rfl | ⟨_, _, _, opened, rfl⟩ := Workspace.watch_eq_ok watched
  · exact ⟨rfl, rfl⟩
  · exact ⟨rfl, (Files.System.watch_eq_ok opened).2.1.current⟩

theorem leaves_watchFile (aside : WatchesAside scope) (path : Path) :
    Leaves (fun session : Session => (session.workspace.imports, session.workspace.system.current))
      (scope.watchFile path) := by
  refine leaves_iff_follows.mpr (Scope.follows_watchFile fun watch wanted session next watched => ?_)
  obtain ⟨imports, current⟩ := aside watch wanted path session.workspace next watched
  exact Prod.ext imports.symm current.symm

/-- A run replaces what its script imports, also when it fails because a file cannot be watched. -/
theorem imports_generator (graph : Nat) (aside : WatchesAside scope) (path : Path)
    (source : String) (session : Session) :
    (endState (generator graph scope path source session)).workspace.imports =
        session.workspace.imports.modify graph (ImportGraph.record · path
          (assetsOf session.workspace.system scope.projectRoot path source)) ∧
      (endState (generator graph scope path source session)).workspace.system.current =
        session.workspace.system.current := by
  unfold generator
  rw [run_bind_ok (Step.run_workspace session)]
  exact Prod.ext_iff.mp (Leaves.forM (fun asset _ => leaves_watchFile aside asset)
    { session with workspace := { session.workspace with
        imports := session.workspace.imports.modify graph (ImportGraph.record · path
          (assetsOf session.workspace.system scope.projectRoot path source)) } })

/-- The graph of a session tells who imports a file by the latest sources. -/
def Tells (graph : Nat) (projectRoot current : Path) (visits : List (Path × String))
    (session : Session) : Prop :=
  session.workspace.system.current = current ∧
    ∃ known, session.workspace.imports[graph]? = some known ∧ ImportGraph.Ordered known ∧
      ∀ importer asset, importer ∈ ImportGraph.importers known asset ↔
        ∃ source, Latest visits importer source ∧
          Imports projectRoot current importer source asset

theorem Tells.run {current : Path} {visits : List (Path × String)} {session : Session}
    (aside : WatchesAside scope) (tells : Tells graph scope.projectRoot current visits session)
    (happening : Happening graph) :
    Tells graph scope.projectRoot current (visits ++ happening.visited?.toList)
      (happening.run scope session) := by
  obtain ⟨here, known, found, ordered, members⟩ := tells
  cases happening with
  | aside change kept =>
    obtain ⟨same, stays⟩ := kept session
    refine ⟨stays.trans here, known, same.trans found, ordered, ?_⟩
    rw [Happening.visited?, Option.toList_none, List.append_nil]
    exact members
  | visit path source =>
    obtain ⟨imports, stays⟩ := imports_generator graph aside path source session
    obtain ⟨ordered', recorded⟩ := ImportGraph.record_spec ordered path
      (assetsOf session.workspace.system scope.projectRoot path source)
    refine ⟨stays.trans here, _, ?_, ordered', fun importer asset => ?_⟩
    · rw [Happening.run, imports, List.getElem?_modify_eq, found]
      rfl
    · rw [recorded, members, exists_mem_assetsOf_iff, here]
      simp only [Happening.visited?, Option.toList_some, latest_concat_iff]
      constructor
      · rintro (⟨⟨before, latest, cited⟩, apart⟩ | ⟨rfl, cited⟩)
        · exact ⟨before, .inl ⟨latest, apart⟩, cited⟩
        · exact ⟨source, .inr ⟨rfl, rfl⟩, cited⟩
      · rintro ⟨before, ⟨latest, apart⟩ | ⟨rfl, rfl⟩, cited⟩
        · exact .inl ⟨⟨before, latest, cited⟩, apart⟩
        · exact .inr ⟨rfl, cited⟩

theorem Tells.runAll {current : Path} {visits : List (Path × String)} {session : Session}
    (aside : WatchesAside scope) (tells : Tells graph scope.projectRoot current visits session)
    (happenings : List (Happening graph)) :
    Tells graph scope.projectRoot current (visits ++ happenings.filterMap Happening.visited?)
      (happenings.foldl (Happening.run scope) session) := by
  induction happenings generalizing visits session with
  | nil => rwa [List.filterMap_nil, List.append_nil]
  | cons happening happenings ih =>
    have rest := ih (tells.run aside happening)
    rw [List.append_assoc] at rest
    cases happening with
    | visit path source => exact rest
    | aside change kept => exact rest

end Runs

/-- An activation that follows imports registers a generator and a resolver of one new graph.
Whatever is looked at from then on, however often and whether or not a run fails, the resolver tells
for a file, in path order and each once, just the scripts whose latest source imports this file. -/
theorem importers_latest (name : String) (activation : Activation) (setup : Setup)
    (system : Files.System) (target : String) (roots : List Path) :
    let graph := activation.workspace.imports.length
    let scope := setup.scope system target
    let current := activation.workspace.system.current
    ∃ workspace, (assetImports name).activate activation = .ok ()
        { context := { activation.context with
            generators := activation.context.generators ++ [generator graph]
            resolvers := activation.context.resolvers ++ [resolver graph] }
          workspace := workspace } ∧
      ∀ (happenings : List (Happening graph)) (asset : Path),
        let later := happenings.foldl (Happening.run scope) ⟨workspace, roots⟩
        let told := resolver graph asset later.workspace
        Ascending told ∧ ∀ importer, importer ∈ told ↔ ∃ source,
          Latest (happenings.filterMap Happening.visited?) importer source ∧
            Imports setup.projectRoot current importer source asset := by
  intro graph scope current
  refine ⟨_, rfl, fun happenings asset => ?_⟩
  let workspace : Workspace :=
    { activation.workspace with imports := activation.workspace.imports ++ [.empty] }
  have bare : Tells graph scope.projectRoot current [] ⟨workspace, roots⟩ := by
    refine ⟨rfl, .empty, List.getElem?_concat_length, ImportGraph.ordered_empty,
      fun importer asset => ?_⟩
    constructor
    · intro member
      cases member
    · rintro ⟨source, ⟨earlier, later, none, _⟩, _⟩
      cases earlier <;> cases none
  obtain ⟨-, known, found, ordered, members⟩ :=
    bare.runAll (watchesAside_scope setup system target) happenings
  have told : resolver graph asset
      (happenings.foldl (Happening.run scope) ⟨workspace, roots⟩).workspace =
        ImportGraph.importers known asset := by
    rw [resolver, found]
    rfl
  dsimp only
  rw [told]
  exact ⟨ordered.ascending_importers asset, fun importer => members importer asset⟩

end Recast.Addons.AssetImports
