import Recast.Script.Tree

/-!
# Declarations at the top level

`eraseTypes` deletes the statements that only declare types: aliases, interfaces, and imports and exports
marked as such. Nothing is known of the grammar of types, so the end of an alias is found by line breaks and by
tokens that cannot end or begin a statement. `redeclarations` lists the names that are declared again.
-/

namespace Recast.Script

namespace Token

/-- A token that may end an expression. -/
def endsExpression (t : Token) : Bool :=
  (match t.kind with
    | .identifier | .number | .string | .template => true
    | _ => false) || t.isPunct ")" || t.isPunct "]"

/-- A token at which no statement ends or begins. -/
def continuesLine (t : Token) : Bool :=
  ["=", "|", "&", ",", ":", "?", "<", "."].any t.isPunct ||
    t.isIdentifier "extends" || t.isIdentifier "keyof" || t.isIdentifier "typeof"

/-- A keyword that declares the name behind it. -/
def declares (t : Token) : Bool :=
  t.kind == .identifier && ["const", "let", "class", "function"].contains t.text

end Token

/-- The tokens from the next significant one on. -/
def skipTrivia (ts : List Token) : List Token :=
  ts.dropWhile (·.isTrivia)

/-- The next significant tokens, at most `n`. -/
def ahead : Nat → List Token → List Token
  | 0, _ => []
  | _ + 1, [] => []
  | n + 1, t :: ts => if t.isTrivia then ahead (n + 1) ts else t :: ahead n ts

/-- Goes on to the end of a statement. `last` is the significant token before, at a depth of brackets, `broke`
tells whether a line break followed it, and `behind` are the tokens behind it. -/
def behindStatementFrom (depth : Int) (last : Token) (broke : Bool) (behind : List Token) :
    List Token → List Token
  | [] => behind
  | t :: ts =>
    if t.isTrivia then behindStatementFrom depth last (broke || t.breaksLine) behind ts
    else if depth ≤ 0 && broke && !last.continuesLine && !t.continuesLine then behind
    else if t.depthAfter depth ≤ 0 && t.isPunct ";" then ts
    else behindStatementFrom (t.depthAfter depth) t false ts ts

/-- The tokens behind the statement that begins here. It ends at a semicolon outside brackets, or at the end of
a line that the next one does not continue. -/
def behindStatement : List Token → List Token
  | [] => []
  | t :: ts =>
    if t.depthAfter 0 ≤ 0 && t.isPunct ";" then ts else behindStatementFrom (t.depthAfter 0) t false ts ts

/-- The tokens behind the bracket that closes the block, of which `depth` brackets are open. -/
def behindBlockFrom? (depth : Int) : List Token → Option (List Token)
  | [] => none
  | t :: ts =>
    if t.isClose && depth = 1 then some ts else behindBlockFrom? (t.depthAfter depth) ts

/-- The tokens behind the first block. -/
def behindBlock? : List Token → Option (List Token)
  | [] => none
  | t :: ts => if t.isPunct "\x7b" then behindBlockFrom? 1 ts else behindBlock? ts

/-- The tokens behind the declaration of a type that begins here, if one does. -/
def behindTypeDeclaration? (exported : Bool) : List Token → Option (List Token)
  | [] => none
  | keyword :: rest =>
    let statement := behindStatement (keyword :: rest)
    if !exported && keyword.isIdentifier "import" then
      match ahead 2 rest with
      | [second, third] =>
        if second.isIdentifier "type" && !third.isIdentifier "from" && !third.isPunct "," && !third.isPunct "=" then
          some statement
        else none
      | _ => none
    else if keyword.isIdentifier "type" then
      match ahead 2 rest with
      | next :: later =>
        if exported && next.isPunct "\x7b" then some statement
        else
          match later with
          | [third] =>
            if next.kind = .identifier && (third.isPunct "=" || third.isPunct "<") then some statement else none
          | _ => none
      | [] => none
    else if keyword.isIdentifier "interface" then
      match ahead 1 rest with
      | [name] => if name.kind = .identifier then behindBlock? rest else none
      | _ => none
    else none

/-- The tokens behind the statement that begins here, if it only declares a type. -/
def behindTypeOnly? : List Token → Option (List Token)
  | [] => none
  | t :: ts =>
    if t.isIdentifier "export" then behindTypeDeclaration? true (skipTrivia ts)
    else behindTypeDeclaration? false (t :: ts)

/-- Whether a statement may begin behind the token, with or without a line break between. -/
def endsStatement (previous : Option Token) (broke : Bool) : Bool :=
  match previous with
  | none => true
  | some t => t.isPunct ";" || t.isPunct "\x7d" || (broke && t.endsExpression)

/-- The characters behind the first line break. -/
def behindBreak? : List Char → Option (List Char)
  | [] => none
  | c :: cs => if c = '\n' then some cs else behindBreak? cs

/-- Removes the end of the line on which an erased statement stood, and a token that has no text left. -/
def dropLineEnd : List Token → List Token
  | [] => []
  | t :: ts =>
    let cut :=
      if t.kind = .whitespace then { t with text := ((behindBreak? t.text.toList).map String.ofList).getD t.text }
      else t
    if cut.text.isEmpty then ts else cut :: ts

theorem isSuffix_behindStatementFrom (depth : Int) (last : Token) (broke : Bool) {behind ts all : List Token}
    (h : behind <:+ all) (h' : ts <:+ all) : behindStatementFrom depth last broke behind ts <:+ all := by
  induction ts generalizing depth last broke behind with
  | nil => exact h
  | cons t ts ih =>
    have inner : ts <:+ all := (List.suffix_cons t ts).trans h'
    simp only [behindStatementFrom]
    split
    · exact ih _ _ _ h inner
    · split
      · exact h
      · split
        · exact inner
        · exact ih _ _ _ inner inner

theorem isSuffix_behindStatement (t : Token) (ts : List Token) : behindStatement (t :: ts) <:+ ts := by
  simp only [behindStatement]
  split
  · exact List.suffix_refl _
  · exact isSuffix_behindStatementFrom _ _ _ (List.suffix_refl _) (List.suffix_refl _)

theorem isSuffix_of_behindBlockFrom? {depth : Int} {ts rest : List Token}
    (h : behindBlockFrom? depth ts = some rest) : rest <:+ ts := by
  induction ts generalizing depth with
  | nil => simp [behindBlockFrom?] at h
  | cons t ts ih =>
    simp only [behindBlockFrom?] at h
    split at h
    · simp only [Option.some.injEq] at h
      exact h ▸ List.suffix_cons t ts
    · exact (ih h).trans (List.suffix_cons t ts)

theorem isSuffix_of_behindBlock? {ts rest : List Token} (h : behindBlock? ts = some rest) : rest <:+ ts := by
  induction ts with
  | nil => simp [behindBlock?] at h
  | cons t ts ih =>
    simp only [behindBlock?] at h
    split at h
    · exact (isSuffix_of_behindBlockFrom? h).trans (List.suffix_cons t ts)
    · exact (ih h).trans (List.suffix_cons t ts)

/-- An erased declaration takes its keyword at least. -/
theorem isSuffix_of_behindTypeDeclaration? {exported : Bool} {t : Token} {ts rest : List Token}
    (h : behindTypeDeclaration? exported (t :: ts) = some rest) : rest <:+ ts := by
  have statement := isSuffix_behindStatement t ts
  simp only [behindTypeDeclaration?] at h
  repeat' split at h
  all_goals first
    | (simp only [Option.some.injEq] at h; exact h ▸ statement)
    | exact isSuffix_of_behindBlock? h
    | simp at h

theorem length_of_behindTypeOnly? {t : Token} {ts rest : List Token}
    (h : behindTypeOnly? (t :: ts) = some rest) : rest.length < (t :: ts).length := by
  simp only [behindTypeOnly?] at h
  split at h
  · cases skipped : skipTrivia ts with
    | nil =>
      rw [skipped] at h
      simp [behindTypeDeclaration?] at h
    | cons keyword later =>
      rw [skipped] at h
      have short := (isSuffix_of_behindTypeDeclaration? h).length_le
      have dropped := (List.dropWhile_suffix (l := ts) (·.isTrivia)).length_le
      rw [show ts.dropWhile (·.isTrivia) = keyword :: later from skipped] at dropped
      simp only [List.length_cons] at dropped ⊢
      omega
  · have := (isSuffix_of_behindTypeDeclaration? h).length_le
    simp only [List.length_cons]
    omega

/-- Erases declarations of types from the tokens, and counts them. `previous` is the significant token before,
at a depth of brackets, and `broke` tells whether a line break followed it. -/
def eraseFrom (depth : Int) (previous : Option Token) (broke : Bool) : List Token → List Token × Nat
  | [] => ([], 0)
  | t :: ts =>
    if t.isTrivia then
      let (kept, count) := eraseFrom depth previous (broke || t.breaksLine) ts
      (t :: kept, count)
    else
      match _found : if depth = 0 && endsStatement previous broke then behindTypeOnly? (t :: ts) else none with
      | some rest =>
        let (kept, count) := eraseFrom 0 none false rest
        (dropLineEnd kept, count + 1)
      | none =>
        let (kept, count) := eraseFrom (t.depthAfter depth) (some t) false ts
        (t :: kept, count)
termination_by ts => ts.length
decreasing_by
  · simp
  · split at _found
    · exact length_of_behindTypeOnly? _found
    · simp at _found
  · simp

/-- The tree without declarations of types, and how many there were. -/
def eraseTypes (tree : Tree) : Tree × Nat :=
  let (tokens, count) := eraseFrom 0 none false tree.tokens
  (tree.withTokens tokens, count)

/-- The names among significant tokens that are declared again outside brackets; `seen` are the names so far. -/
def redeclaredFrom (depth : Int) (previous : Option Token) (seen : List String) : List Token → List Token
  | [] => []
  | t :: ts =>
    let afterDot := previous.any (·.isPunct ".")
    let name? : Option Token :=
      if depth = 0 && t.declares && !afterDot then
        (if t.text = "function" && ts.head?.any (·.isPunct "*") then ts.tail else ts).head?.filter
          (·.kind = .identifier)
      else none
    match name? with
    | none => redeclaredFrom (t.depthAfter depth) (some t) seen ts
    | some name =>
      let later := redeclaredFrom (t.depthAfter depth) (some t) (name.text :: seen) ts
      if seen.contains name.text then name :: later else later

/-- The names that are declared again outside brackets. -/
def redeclared (tokens : List Token) : List Token :=
  redeclaredFrom 0 none [] (significant tokens)

/-- An error for every name that is declared again. -/
def redeclarations (tree : Tree) : List Diagnostic :=
  (redeclared tree.tokens).map fun name =>
    (((Diagnostic.error ("Cannot redeclare block-scoped variable '" ++ name.text ++ "'.")).withCode 2451).withFile
      tree.file).withPosition (name.offset.map fun offset =>
        let (line, column) := tree.location offset
        ⟨line + 1, column + 1⟩)

end Recast.Script
