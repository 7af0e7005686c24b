import Recast.Digest
import Recast.Emit.Module
import Recast.Path.Map

/-!
# The language service

The service answers for the scripts of one host at a time. It keeps the parsed tree of each path and uses it
again as long as the text has the same digest, whichever host asks.
-/

namespace Recast.Emit

open Recast.Script

/-- What the service needs to know of a project. -/
structure Host where
  projectName : String
  projectRoot : Path
  roots : List Path
  options : Options
  transformers : TransformerSet
  version : Path → Nat
  text? : Path → Option String

/-- The files and options of a host. -/
structure Program where
  roots : List Path
  options : Options

/-- The host that is installed, and parsed trees with the digests of their texts. -/
structure Service where
  host? : Option Host := none
  parsed : PathMap (Digest × Tree) := .empty

instance : Inhabited Service := ⟨{}⟩

namespace Service

def setHost (service : Service) (host : Host) : Service :=
  { service with host? := some host }

def program (service : Service) : Option Program :=
  service.host?.map fun host => ⟨host.roots, host.options⟩

/-- The tree of a text, parsed unless it is known. -/
def parse (service : Service) (path : Path) (text : String) : Tree × Service :=
  let digest := Digest.of text
  let known := (service.parsed.get? path).filter (·.1 = digest)
  match known with
  | some (_, tree) => (tree, service)
  | none =>
    let tree := Tree.parse path text
    (tree, { service with parsed := service.parsed.insert path (digest, tree) })

/-- The tree of a script of the host. -/
def tree? (service : Service) (path : Path) : Option Tree × Service :=
  match service.host?.bind (·.text? path) with
  | none => (none, service)
  | some text =>
    let (tree, service) := service.parse path text
    (some tree, service)

/-- The faults of a script. -/
def syntactic (service : Service) (path : Path) : List Diagnostic × Service :=
  let (tree, service) := service.tree? path
  ((tree.map (·.faults)).getD [], service)

/-- The names that a script declares again. -/
def semantic (service : Service) (path : Path) : List Diagnostic × Service :=
  let (tree, service) := service.tree? path
  ((tree.map redeclarations).getD [], service)

/-- The files that lie outside the root directory, if one is set. -/
def optionFaults (service : Service) : List Diagnostic :=
  match service.host? with
  | none => []
  | some host =>
    match host.options.rootDir with
    | none => []
    | some rootDir =>
      (host.roots.filter fun file => !file.startsWith rootDir).map fun file =>
        (Diagnostic.error ("File '" ++ file.toString ++ "' is not under 'root_dir' '" ++ rootDir.toString ++
          "'. 'root_dir' is expected to contain all source files.")).withCode 6059

/-- Emits a tree that has no faults. -/
def emitTree (host : Host) (tree : Tree) : Journaled Emission := do
  let tree ← host.transformers.run tree
  return { files := (render tree host.options host.projectRoot).files host.options.wantsBom }

/-- Emits a file of the host. -/
def emit (service : Service) (path : Path) : Journaled Emission × Service :=
  match service.host? with
  | none =>
    (pure { diagnostics := [.error "No language service host is installed."], skipped := true }, service)
  | some host =>
    match host.text? path with
    | none =>
      let missing := (Diagnostic.error ("File '" ++ path.toString ++ "' not found.")).withCode 6053
      (pure { diagnostics := [missing], skipped := true }, service)
    | some text =>
      if host.options.wantsNoEmit then (pure { skipped := true }, service)
      else if path.isJson then (pure { files := jsonFiles path text host.options host.projectRoot }, service)
      else
        let (tree, service) := service.parse path text
        if Diagnostic.anyError tree.faults then
          (pure { diagnostics := tree.faults, skipped := true }, service)
        else (emitTree host tree, service)

end Service

end Recast.Emit
