import Recast.Proofs.Build.Course
import Recast.Proofs.Build.Phases

/-! # What holds since options were set

New options drop what came of the former ones, so what is to hold of a compiler has to hold of its
life since its options were set last. Such a stretch of a life sets no options, and a regime that
contexts made under these options keep holds all along (`Grounds.over_runAll`).
-/

namespace Recast.Build

open Recast.Emit

/-- An action that sets no options. -/
def Action.Stays (action : Action) : Prop :=
  ∀ setup, action ≠ .configure setup

/-- In a life options were never set, or they were set for the last time. -/
theorem exists_last_configure (actions : List Action) :
    (∀ action ∈ actions, action.Stays) ∨ ∃ past setup since,
      actions = past ++ .configure setup :: since ∧ ∀ action ∈ since, action.Stays := by
  induction actions with
  | nil => exact .inl fun _ member => absurd member List.not_mem_nil
  | cons action actions ih =>
    rcases ih with stays | ⟨past, setup, since, rfl, stays⟩
    · by_cases sets : ∃ setup, action = .configure setup
      · obtain ⟨setup, rfl⟩ := sets
        exact .inr ⟨[], setup, actions, rfl, stays⟩
      · refine .inl fun other member => ?_
        rcases List.mem_cons.mp member with rfl | later
        · exact fun setup same => sets ⟨setup, same⟩
        · exact stays other later
    · exact .inr ⟨action :: past, setup, since, rfl, stays⟩

namespace Compiler

theorem runAll_append (actions more : List Action) (compiler : Compiler) :
    compiler.runAll (actions ++ more) = (compiler.runAll actions).runAll more :=
  List.foldl_append ..

/-- A compiler that never gets options stays bare. -/
theorem Bare.runAll {compiler : Compiler} (bare : compiler.Bare) {actions : List Action}
    (stays : ∀ action ∈ actions, action.Stays) : (compiler.runAll actions).Bare := by
  induction actions generalizing compiler with
  | nil => exact bare
  | cons action actions ih =>
    exact ih (bare.run (stays action (List.mem_cons_self ..)))
      fun other member => stays other (List.mem_cons_of_mem _ member)

theorem sturdy_under (setup : Setup) : Sturdy (Under setup) :=
  ⟨fun _ _ under => under, fun _ _ _ under => under⟩

theorem under_configure (setup : Setup) (compiler : Compiler) :
    (compiler.configure setup).Under setup :=
  ⟨setup.registry, rfl⟩

end Compiler

namespace Regime.Grounds

variable {regime : Regime} {setup : Setup} {compiler : Compiler}

/-- An action that sets no options keeps what holds under the options. -/
theorem over_run (grounds : regime.Grounds setup)
    (closed : ∀ workspace, regime.workspace workspace → regime.workspace workspace.closeWatches)
    {action : Action} (stays : action.Stays) (allowed : regime.Allows action)
    (admitted : ∀ event ∈ action.events compiler, regime.admits event)
    (lasts : regime.Over setup compiler) : regime.Over setup (action.run compiler) := by
  have made : regime.Over setup
      (if action.ensures then endState compiler.ensureContexts else compiler) := by
    split
    · exact preserves_over_ensureContexts grounds compiler lasts
    · exact lasts
  exact ⟨(run_of_made grounds.toLawful closed stays allowed made.1 admitted).1,
    (Compiler.sturdy_under setup).run stays made.2⟩

/-- So does a whole life, as long as nothing asks more of its events. -/
theorem over_runAll (grounds : regime.Grounds setup)
    (closed : ∀ workspace, regime.workspace workspace → regime.workspace workspace.closeWatches)
    (admits : ∀ event, regime.admits event) {actions : List Action}
    (stays : ∀ action ∈ actions, action.Stays) (allowed : ∀ action ∈ actions, regime.Allows action)
    (lasts : regime.Over setup compiler) : regime.Over setup (compiler.runAll actions) := by
  induction actions generalizing compiler with
  | nil => exact lasts
  | cons action actions ih =>
    exact ih (fun other member => stays other (List.mem_cons_of_mem _ member))
      (fun other member => allowed other (List.mem_cons_of_mem _ member))
      (over_run grounds closed (stays action (List.mem_cons_self ..))
        (allowed action (List.mem_cons_self ..)) (fun event _ => admits event) lasts)

end Regime.Grounds

end Recast.Build
