import Recast.Emit.Module

/-!
# Results of a pass
-/

namespace Recast.Emit

/-- What a pass over many files gives. -/
structure PassResult where
  files : List OutputFile := []
  diagnostics : List Diagnostic := []
  skipped : Bool := false
deriving Inhabited

namespace PassResult

/-- One result behind another; it is skipped when one of them is. -/
def merge (result other : PassResult) : PassResult :=
  ⟨result.files ++ other.files, result.diagnostics ++ other.diagnostics, result.skipped || other.skipped⟩

/-- The result with the emission of one more file. -/
def add (result : PassResult) (emission : Emission) : PassResult :=
  ⟨result.files ++ emission.files, result.diagnostics ++ emission.diagnostics, result.skipped || emission.skipped⟩

def errorCount (result : PassResult) : Nat :=
  result.diagnostics.countP (·.isError)

/-- The names of the files, in order. -/
def paths (result : PassResult) : List Path :=
  result.files.map (·.name)

theorem merge_assoc (a b c : PassResult) : (a.merge b).merge c = a.merge (b.merge c) := by
  simp [merge, Bool.or_assoc]

theorem empty_merge (a : PassResult) : ({} : PassResult).merge a = a := by
  simp [merge]

end PassResult

end Recast.Emit
