import Recast.Addons.Settings
import Recast.Script.Tree

/-!
# The asset imports addon

Follows the files that scripts import and that are no scripts themselves. Such files are watched, and a change
leads back to their importers.
-/

namespace Recast.Addons

open Recast.Build Recast.Script

namespace AssetImports

/-- The text between quotes, when it ends with the quote with which it begins. -/
def unquote (literal : String) : Option String :=
  match literal.toList with
  | quote :: rest =>
    if (quote = '"' || quote = '\'') && rest.getLast? = some quote then some (String.ofList rest.dropLast) else none
  | [] => none

/-- What a token refers to, if it is a string that leads from the directory of the script. -/
def reference? (token : Token) : Option String :=
  if token.kind = .string then (unquote token.text).filter fun text => text.toList.head? = some '.' else none

/-- The token that says from where a token imports. -/
def importedBy (token : Token) (rest : List Token) : Option Token :=
  if token.isIdentifier "import" || token.isIdentifier "from" then rest.head?
  else if token.isIdentifier "require" && rest.head?.any (·.isPunct "(") then rest[1]?
  else none

/-- What some tokens refer to. -/
def references : List Token → List String
  | [] => []
  | token :: rest => ((importedBy token rest).bind reference?).toList ++ references rest

/-- What a script imports, each once. -/
def specifiers (tree : Tree) : List String :=
  distinct (· == ·) (references (significant tree.tokens))

/-- A file with an extension that is not that of a script. -/
def isAsset (path : Path) : Bool :=
  path.extension?.isSome && !path.isScript

/-- The files that a script imports and that are no scripts. -/
def assetsOf (system : Files.System) (projectRoot path : Path) (source : String) : List Path :=
  let directory := path.parent?.getD projectRoot
  let found := (specifiers (Tree.parse path source)).map fun specifier =>
    system.resolve (directory.join (.ofString specifier))
  found.filter isAsset

/-- Records what a script imports, and watches it. -/
def generator (graph : Nat) : Generator := fun scope path source => do
  let assets := assetsOf (← Step.workspace).system scope.projectRoot path source
  Step.modifyWorkspace fun workspace =>
    { workspace with imports := workspace.imports.modify graph fun graph => ImportGraph.record graph path assets }
  assets.forM scope.watchFile

/-- The importers of a file. -/
def resolver (graph : Nat) : DependencyResolver := fun path workspace =>
  ((workspace.imports[graph]?).map fun graph => ImportGraph.importers graph path).getD []

end AssetImports

/-- The addon that follows imports of assets. -/
def assetImports (name : String) : Addon where
  name := name
  activate := do
    let graph := (← get).workspace.imports.length
    Activation.onWorkspace fun workspace => { workspace with imports := workspace.imports ++ [.empty] }
    Activation.registerGenerator (AssetImports.generator graph)
    Activation.registerResolver (AssetImports.resolver graph)

end Recast.Addons
