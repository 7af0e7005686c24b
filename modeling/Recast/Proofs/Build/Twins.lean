import Mathlib.Data.List.Forall2
import Recast.Proofs.Build.History

/-! # Two runs side by side

Two steps are twins when from related states they give related answers or the same failure, and end
in related states (`Twins`). Some steps are twins only as long as what happens in the second run is
admitted (`TwinsWhile`). Both pass through everything that steps are put together from.
-/

namespace Recast.Build

variable {ε σ α β γ δ : Type}

/-- Two results with related answers or with the same failure, in related states. -/
inductive Even (R : σ → σ → Prop) (Q : α → β → Prop) :
    EStateM.Result ε σ α → EStateM.Result ε σ β → Prop where
  | ok {a : α} {b : β} {s t : σ} (answers : Q a b) (states : R s t) : Even R Q (.ok a s) (.ok b t)
  | error (e : ε) {s t : σ} (states : R s t) : Even R Q (.error e s) (.error e t)

/-- What a step gave, without its state. -/
def given : EStateM.Result ε σ α → Except ε α
  | .ok a _ => .ok a
  | .error e _ => .error e

namespace Even

variable {R : σ → σ → Prop} {Q : α → β → Prop}

theorem states {x : EStateM.Result ε σ α} {y : EStateM.Result ε σ β} (even : Even R Q x y) :
    R (endState x) (endState y) := by
  cases even with
  | ok _ states => exact states
  | error _ states => exact states

/-- Behind steps that give even results, others that give even results from related states. -/
theorem bind {x : EStateM ε σ α} {y : EStateM ε σ β} {s t : σ} (even : Even R Q (x s) (y t))
    {Q' : γ → δ → Prop} {f : α → EStateM ε σ γ} {g : β → EStateM ε σ δ}
    (next : ∀ a b s' t', y t = .ok b t' → Q a b → R s' t' → Even R Q' (f a s') (g b t')) :
    Even R Q' ((x >>= f) s) ((y >>= g) t) := by
  rw [run_bind, run_bind]
  generalize x s = result at even
  generalize made : y t = result' at even
  cases even with
  | ok answers states => exact next _ _ _ _ made answers states
  | error e states => exact .error e states

theorem given_eq {x y : EStateM.Result ε σ α} (even : Even R Eq x y) : given x = given y := by
  cases even with
  | ok answers _ => exact congrArg Except.ok answers
  | error _ _ => rfl

end Even

/-- Steps that do the same from related states. -/
def Twins (R : σ → σ → Prop) (Q : α → β → Prop) (x : EStateM ε σ α) (y : EStateM ε σ β) : Prop :=
  ∀ s t, R s t → Even R Q (x s) (y t)

namespace Twins

variable {R : σ → σ → Prop} {Q : α → β → Prop} {Q' : γ → δ → Prop}

theorem pure {a : α} {b : β} (answers : Q a b) :
    Twins R Q (Pure.pure a : EStateM ε σ α) (Pure.pure b : EStateM ε σ β) :=
  fun _ _ states => .ok answers states

theorem throw (e : ε) : Twins R Q (throw e : EStateM ε σ α) (throw e : EStateM ε σ β) :=
  fun _ _ states => .error e states

theorem get : Twins R R (get : EStateM ε σ σ) (get : EStateM ε σ σ) :=
  fun _ _ states => .ok states states

theorem modify {f g : σ → σ} (states : ∀ s t, R s t → R (f s) (g t)) :
    Twins R Eq (modify f : EStateM ε σ PUnit) (modify g : EStateM ε σ PUnit) :=
  fun s t related => .ok rfl (states s t related)

theorem bind {x : EStateM ε σ α} {y : EStateM ε σ β} {f : α → EStateM ε σ γ} {g : β → EStateM ε σ δ}
    (first : Twins R Q x y) (next : ∀ a b, Q a b → Twins R Q' (f a) (g b)) :
    Twins R Q' (x >>= f) (y >>= g) := fun s t states =>
  (first s t states).bind fun a b s' t' _ answers states => next a b answers s' t' states

/-- Behind twins that answer the same. -/
theorem bind_same {x y : EStateM ε σ α} {f : α → EStateM ε σ γ} {g : α → EStateM ε σ δ}
    (first : Twins R Eq x y) (next : ∀ a, Twins R Q' (f a) (g a)) :
    Twins R Q' (x >>= f) (y >>= g) :=
  first.bind fun a _ same => same ▸ next a

theorem forM {xs : List γ} {ys : List δ} {f : γ → EStateM ε σ PUnit} {g : δ → EStateM ε σ PUnit}
    (each : List.Forall₂ (fun x y => Twins R Eq (f x) (g y)) xs ys) :
    Twins R Eq (xs.forM f) (ys.forM g) := by
  induction each with
  | nil => exact .pure rfl
  | cons first _ ih => exact first.bind_same fun _ => ih

theorem forM_same {xs : List γ} {f g : γ → EStateM ε σ PUnit}
    (each : ∀ x ∈ xs, Twins R Eq (f x) (g x)) : Twins R Eq (xs.forM f) (xs.forM g) :=
  .forM (List.forall₂_same.mpr each)

theorem foldlM {xs : List γ} {ys : List δ} {f : α → γ → EStateM ε σ α} {g : β → δ → EStateM ε σ β}
    (each : List.Forall₂ (fun x y => ∀ a b, Q a b → Twins R Q (f a x) (g b y)) xs ys)
    {a : α} {b : β} (answers : Q a b) : Twins R Q (xs.foldlM f a) (ys.foldlM g b) := by
  induction each generalizing a b with
  | nil => exact .pure answers
  | cons first _ ih =>
    rw [List.foldlM_cons, List.foldlM_cons]
    exact (first a b answers).bind fun a b answers => ih answers

theorem filterM {xs : List γ} {f g : γ → EStateM ε σ Bool}
    (each : ∀ x ∈ xs, Twins R Eq (f x) (g x)) : Twins R Eq (xs.filterM f) (xs.filterM g) := by
  have kept : ∀ acc, Twins R Eq (xs.filterAuxM f acc) (xs.filterAuxM g acc) := by
    induction xs with
    | nil => exact fun acc => .pure rfl
    | cons x xs ih =>
      exact fun acc => (each x (List.mem_cons_self ..)).bind_same fun _ =>
        ih (fun y member => each y (List.mem_cons_of_mem _ member)) _
  exact (kept []).bind_same fun _ => .pure rfl

end Twins

/-- Steps that do the same from related states, as long as the events of the second one are
admitted. -/
def TwinsWhile (admits : Event → Prop) (R : σ → σ → Prop) (Q : α → β → Prop)
    (events : σ → List Event) (x : EStateM ε σ α) (y : EStateM ε σ β) : Prop :=
  ∀ s t, R s t → (∀ event ∈ events t, admits event) → Even R Q (x s) (y t)

theorem Twins.while {admits : Event → Prop} {R : σ → σ → Prop} {Q : α → β → Prop}
    {x : EStateM ε σ α} {y : EStateM ε σ β} (twins : Twins R Q x y) (events : σ → List Event) :
    TwinsWhile admits R Q events x y := fun s t states _ => twins s t states

namespace TwinsWhile

variable {admits : Event → Prop} {R : σ → σ → Prop} {Q : α → β → Prop} {Q' : γ → δ → Prop}
  {events : σ → List Event} {x : EStateM ε σ α} {y : EStateM ε σ β}

/-- The events of a step come before those of the steps behind it. -/
theorem bind {later : β → σ → List Event} {f : α → EStateM ε σ γ} {g : β → EStateM ε σ δ}
    (first : TwinsWhile admits R Q events x y)
    (next : ∀ a b, Q a b → TwinsWhile admits R Q' (later b) (f a) (g b)) :
    TwinsWhile admits R Q' (fun t => events t ++ eventsBehind (y t) later) (x >>= f) (y >>= g) := by
  intro s t states admitted
  refine (first s t states fun event member => admitted event (List.mem_append_left _ member)).bind
    fun a b s' t' made answers states => next a b answers s' t' states fun event member => ?_
  have here : eventsBehind (y t) later = later b t' := by rw [made, eventsBehind]
  exact admitted event (List.mem_append_right _ (here ▸ member))

/-- Twins without events in front. -/
theorem behind {later : β → σ → List Event} {f : α → EStateM ε σ γ} {g : β → EStateM ε σ δ}
    (first : Twins R Q x y) (next : ∀ a b, Q a b → TwinsWhile admits R Q' (later b) (f a) (g b)) :
    TwinsWhile admits R Q' (fun t => eventsBehind (y t) later) (x >>= f) (y >>= g) :=
  (first.while fun _ => []).bind next

/-- Twins without events behind. -/
theorem andThen {f : α → EStateM ε σ γ} {g : β → EStateM ε σ δ}
    (first : TwinsWhile admits R Q events x y) (next : ∀ a b, Q a b → Twins R Q' (f a) (g b)) :
    TwinsWhile admits R Q' events (x >>= f) (y >>= g) := fun s t states admitted =>
  (first s t states admitted).bind fun a b s' t' _ answers states => next a b answers s' t' states

/-- The events of a loop are those of its first round, and then those of the others. -/
theorem foldlM {xs : List γ} {f : α → γ → EStateM ε σ α} {g : β → γ → EStateM ε σ β}
    {round : γ → σ → List Event} {all : List γ → σ → List Event}
    (rounds : ∀ x xs b t,
      round x t ++ eventsBehind (g b x t) (fun _ => all xs) = all (x :: xs) t)
    (each : ∀ x a b, Q a b → TwinsWhile admits R Q (round x) (f a x) (g b x)) {a : α} {b : β}
    (answers : Q a b) : TwinsWhile admits R Q (all xs) (xs.foldlM f a) (xs.foldlM g b) := by
  induction xs generalizing a b with
  | nil => exact (Twins.pure answers).while _
  | cons x xs ih =>
    intro s t states admitted
    rw [List.foldlM_cons, List.foldlM_cons]
    refine (each x a b answers).bind (fun _ _ answers => ih answers) s t states ?_
    exact fun event member => admitted event (rounds x xs b t ▸ member)

end TwinsWhile

end Recast.Build
