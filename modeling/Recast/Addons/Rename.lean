import Recast.Addons.Settings

/-!
# The rename addon

Renames identifiers before types are erased. All renames are made at once, so that names can be swapped.
-/

namespace Recast.Addons

open Recast.Build

namespace Rename

/-- One rename of a table. -/
def entry (name : String) (pair : String × Toml.Value) : Except Failure (String × String) :=
  match pair.2 with
  | .string text => .ok (pair.1, text)
  | _ => .error (.addon name ("identifiers." ++ pair.1 ++ " must be a string"))

/-- The renames that options ask for, by name. -/
def tableOf (name : String) (options : Toml.Table) : Except Failure (List (String × String)) :=
  match options.get? "identifiers" with
  | none => .ok []
  | some (.table entries) => (Toml.Table.sorted entries).mapM (entry name)
  | some _ => .error (.addon name "option 'identifiers' must be a table of strings")

/-- The transformer that applies a table of renames. -/
def transformer (table : List (String × String)) : Emit.Transformer :=
  .ofFunction fun tree => tree.renameAll fun name => table.lookup name

end Rename

/-- The addon that renames identifiers. -/
def rename (name : String) (options : Toml.Table) : Except Failure Addon := do
  let _ ← Rename.tableOf name options
  return {
    name := name
    activate := do
      let table ← orFail (Rename.tableOf name (optionsFor name options (← activeScope)))
      if !table.isEmpty then
        Activation.registerTransformers .preEmit { before := [Rename.transformer table] } }

end Recast.Addons
