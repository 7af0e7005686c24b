import Mathlib.Data.List.Perm.Subperm
import Recast.Proofs.Build.Growing

/-! # Passes come to an end

A pass over root files goes on while callbacks add more of them, so there is no bound in what it
does (`Context.Sweeps`). When callbacks add root files out of a list only, it ends nevertheless, and
it has compiled each root file once, in order (`Context.sweepsOnce`).
-/

namespace Recast.Build

open Recast.Emit

namespace Session.Grows

variable {root : Path} {inputs : List Path} {a b : Session}

/-- No more root files are added than there are to add. -/
theorem length_roots_le (grows : a.Grows root (· ∈ inputs) b) :
    b.roots.length ≤ a.roots.length + inputs.length := by
  obtain ⟨added, stands, among, apart⟩ := grows.exists_added
  have once : added.Nodup := apart.imp fun apart same => by simp [same] at apart
  have listed : added ⊆ inputs.map fun input => a.workspace.system.resolve (root.join input) := by
    intro file member
    obtain ⟨input, known, rfl⟩ := among file member
    exact List.mem_map_of_mem known
  have short := (List.subperm_of_subset once listed).length_le
  rw [List.length_map] at short
  rw [stands, List.length_append]
  omega

end Session.Grows

namespace Context

/-- A sweep over root files: from an index on each is compiled, those that are added meanwhile too,
until there is none left or one fails. It comes with the files that it compiled. -/
inductive Sweeps (compileRoot : Path → Step Emission) :
    Nat → Progress → Session → List Path → EStateM.Result Failure Session Progress → Prop where
  | ends {index : Nat} {progress : Progress} {session : Session}
      (short : session.roots[index]? = none) :
      Sweeps compileRoot index progress session [] (.ok progress session)
  | fails {index : Nat} {progress : Progress} {session later : Session} {path : Path}
      {failure : Failure} (found : session.roots[index]? = some path)
      (failed : compileRoot path session = .error failure later) :
      Sweeps compileRoot index progress session [path] (.error failure later)
  | goes {index : Nat} {progress : Progress} {session middle : Session} {path : Path}
      {emission : Emission} {paths : List Path} {result : EStateM.Result Failure Session Progress}
      (found : session.roots[index]? = some path)
      (compiled : compileRoot path session = .ok emission middle)
      (rest : Sweeps compileRoot (index + 1) (progress.add path emission) middle paths result) :
      Sweeps compileRoot index progress session (path :: paths) result

variable {context : Context} {compileRoot : Path → Step Emission} {index : Nat}
  {progress last : Progress} {session later : Session} {paths : List Path}
  {result : EStateM.Result Failure Session Progress}

/-- A pass that may compile as many files as a sweep does what the sweep does. -/
theorem Sweeps.compileRootsFrom_eq (sweeps : Sweeps compileRoot index progress session paths result)
    {fuel : Nat} (enough : paths.length ≤ fuel) :
    context.compileRootsFrom compileRoot fuel index progress session = result := by
  induction sweeps generalizing fuel with
  | ends short => exact run_compileRootsFrom_of_end short
  | fails found failed =>
    obtain ⟨fuel, rfl⟩ := Nat.exists_eq_add_of_le' enough
    exact (run_compileRootsFrom_succ found).trans (run_bind_error failed)
  | goes found compiled rest ih =>
    rw [List.length_cons] at enough
    obtain ⟨fuel, rfl⟩ := Nat.exists_eq_add_of_le' (Nat.one_le_of_lt enough)
    rw [run_compileRootsFrom_succ found, run_bind_ok compiled, ih (Nat.le_of_succ_le_succ enough)]

/-- A sweep goes where compilations go. -/
theorem Sweeps.follows {R : Session → Session → Prop} [Std.Refl R] [IsTrans Session R]
    (sweeps : Sweeps compileRoot index progress session paths result)
    (each : ∀ path, Follows R (compileRoot path)) : R session (endState result) := by
  induction sweeps with
  | ends => exact refl _
  | @fails _ _ session _ path _ _ failed =>
    have first := each path session
    rwa [failed] at first
  | @goes _ _ session _ path _ _ _ _ compiled _ ih =>
    have first := each path session
    rw [compiled] at first
    exact IsTrans.trans _ _ _ first ih

/-- A sweep that succeeds compiled the root files from its index on as they stand at its end, each
in its place. -/
theorem Sweeps.paths_eq {root : Path} {P : Path → Prop}
    (sweeps : Sweeps compileRoot index progress session paths result)
    (grows : ∀ path, Follows (Session.Grows root P) (compileRoot path))
    (succeeded : result = .ok last later) :
    paths = later.roots.drop index ∧ last.compiled = progress.compiled ++ paths := by
  induction sweeps with
  | ends short =>
    cases succeeded
    exact ⟨(List.drop_eq_nil_of_le (List.getElem?_eq_none_iff.mp short)).symm,
      (List.append_nil _).symm⟩
  | fails found failed => cases succeeded
  | @goes index progress session middle path emission paths result found compiled rest ih =>
    obtain ⟨places, swept⟩ := ih succeeded
    have whole : session.roots <+: later.roots := by
      have all := (Sweeps.goes found compiled rest).follows grows
      rw [succeeded] at all
      exact all.isPrefix
    obtain ⟨bound, here⟩ := List.getElem?_eq_some_iff.mp found
    have inside := bound.trans_le whole.length_le
    have still : later.roots[index] = path := (whole.getElem bound).symm.trans here
    refine ⟨?_, ?_⟩
    · rw [List.drop_eq_getElem_cons inside, still, places]
    · rw [swept, Progress.add, List.append_assoc]
      rfl

/-- Where all compilations add root files out of a list only, a sweep comes to its end. -/
theorem exists_sweep {root : Path} {inputs : List Path} {start : Session}
    (grows : ∀ path, Follows (Session.Grows root (· ∈ inputs)) (compileRoot path))
    {remaining : Nat} (reached : start.Grows root (· ∈ inputs) session)
    (bound : index + remaining = start.roots.length + inputs.length) :
    ∃ paths result, Sweeps compileRoot index progress session paths result ∧
      paths.length ≤ remaining := by
  induction remaining generalizing index progress session with
  | zero =>
    have short : session.roots[index]? = none :=
      List.getElem?_eq_none_iff.mpr (reached.length_roots_le.trans_eq bound.symm)
    exact ⟨[], _, .ends short, Nat.le_refl _⟩
  | succ remaining ih =>
    cases found : session.roots[index]? with
    | none => exact ⟨[], _, .ends found, Nat.zero_le _⟩
    | some path =>
      have next := reached.trans (grows path session)
      cases compiled : compileRoot path session with
      | error failure later =>
        exact ⟨[path], _, .fails found compiled, Nat.le_add_left _ _⟩
      | ok emission middle =>
        rw [compiled] at next
        obtain ⟨paths, result, rest, short⟩ : ∃ paths result,
            Sweeps compileRoot (index + 1) (progress.add path emission) middle paths result ∧
              paths.length ≤ remaining := ih next (by omega)
        exact ⟨path :: paths, result, .goes found compiled rest, Nat.succ_le_succ short⟩

/-- A pass that ends, whatever more root files it may be allowed. If it gets through the root files
without a failure, it compiled them as they stand then, in order and none twice. -/
def SweepsOnce (context : Context) (bound : Nat) (force : Bool) (session : Session) : Prop :=
  ∃ paths result, Sweeps (context.compileFile · force) 0 {} session paths result ∧
    (∀ limit, bound ≤ limit → context.compileAll limit force session =
      match result with
      | .ok progress later => context.finish progress later
      | .error failure later => .error failure later) ∧
    ∀ progress later, result = .ok progress later →
      paths = later.roots ∧ progress.compiled = later.roots ∧
        later.roots.Pairwise fun a b => b.same a = false

/-- When callbacks add root files out of a list only, a pass ends and compiles each root file
once. -/
theorem sweepsOnce {inputs : List Path}
    (prepares : context.PreparesIn (Session.Grows context.projectRoot (· ∈ inputs))) (force : Bool)
    (apart : session.roots.Pairwise fun a b => b.same a = false) :
    context.SweepsOnce inputs.length force session := by
  have grows (path : Path) := follows_compileFile (overlooks_grows ..) prepares path force
  obtain ⟨paths, result, sweeps, short⟩ : ∃ paths result,
      Sweeps (context.compileFile · force) 0 {} session paths result ∧
        paths.length ≤ session.roots.length + inputs.length :=
    exists_sweep grows (.refl session) (Nat.zero_add _)
  refine ⟨paths, result, sweeps, fun limit enough => ?_, fun progress later succeeded => ?_⟩
  · unfold compileAll
    rw [run_bind_ok (run_get session), run_bind, sweeps.compileRootsFrom_eq (by omega)]
    cases result <;> rfl
  · obtain ⟨swept, compiled⟩ := sweeps.paths_eq grows succeeded
    rw [List.drop_zero] at swept
    have grown := sweeps.follows grows
    rw [succeeded] at grown
    obtain ⟨more, _, stand⟩ := grown.roots
    exact ⟨swept, compiled.trans swept, stand ▸ pairwise_foldl_pushNew _ apart⟩

end Context

end Recast.Build
