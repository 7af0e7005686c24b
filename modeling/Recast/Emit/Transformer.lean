import Recast.Failure
import Recast.Script.Declaration

/-!
# Transformers

A transformer turns a tree into another; it may fail, and may leave lines in a journal. Transformers run in six lists
around the erasure of types, and the first failure ends the run.
-/

namespace Recast.Emit

open Recast.Script

/-- Lines that addons leave behind. -/
abbrev Journal := List String

/-- A step that may fail and may leave lines in the journal; they stay when it fails. -/
abbrev Journaled (α : Type) := EStateM Failure Journal α

/-- Leaves a line in the journal. -/
def journal (line : String) : Journaled Unit :=
  modify (· ++ [line])

/-- A step that turns one tree into another. -/
abbrev Transformer := Tree → Journaled Tree

/-- The transformer that applies a function. -/
def Transformer.ofFunction (f : Tree → Tree) : Transformer :=
  fun tree => pure (f tree)

/-- The transformers before and after the main step of a stage. -/
structure Hooks where
  before : List Transformer := []
  after : List Transformer := []
deriving Inhabited

namespace Hooks

/-- Both lists with others behind them. -/
def append (hooks more : Hooks) : Hooks :=
  ⟨hooks.before ++ more.before, hooks.after ++ more.after⟩

def isEmpty (hooks : Hooks) : Bool :=
  hooks.before.isEmpty && hooks.after.isEmpty

def size (hooks : Hooks) : Nat :=
  hooks.before.length + hooks.after.length

end Hooks

/-- A stage of the emission of a script. -/
inductive Stage where
  | preEmit
  | emit
  | postEmit
deriving DecidableEq, Repr, Inhabited

/-- The transformers of all stages. -/
structure TransformerSet where
  preEmit : Hooks := {}
  emit : Hooks := {}
  postEmit : Hooks := {}
deriving Inhabited

namespace TransformerSet

def isEmpty (set : TransformerSet) : Bool :=
  set.preEmit.isEmpty && set.emit.isEmpty && set.postEmit.isEmpty

/-- The set with more transformers at one stage. -/
def register (set : TransformerSet) (stage : Stage) (hooks : Hooks) : TransformerSet :=
  match stage with
  | .preEmit => { set with preEmit := set.preEmit.append hooks }
  | .emit => { set with emit := set.emit.append hooks }
  | .postEmit => { set with postEmit := set.postEmit.append hooks }

end TransformerSet

/-- Runs transformers one after the other. -/
def applyAll (transformers : List Transformer) (tree : Tree) : Journaled Tree :=
  transformers.foldlM (fun tree transformer => transformer tree) tree

/-- Runs all stages; types are erased inside the middle one. -/
def TransformerSet.run (set : TransformerSet) (tree : Tree) : Journaled Tree := do
  let tree ← applyAll set.preEmit.before tree
  let tree ← applyAll set.preEmit.after tree
  let tree ← applyAll set.emit.before tree
  let tree ← applyAll set.emit.after (eraseTypes tree).1
  let tree ← applyAll set.postEmit.before tree
  applyAll set.postEmit.after tree

end Recast.Emit
