import Mathlib.Order.Defs.Unbundled
import Recast.Proofs.Build.Steps

/-! # Where steps lead

`Moves` says of a step that succeeds what it keeps, how the state behind it is related to the one
before it, and what it answers. `Makes` says what such a step makes true. Once a loop is known to
move, everything that its single steps make true is true at its end (`Makes.foldlM`).
-/

namespace Recast.Build

variable {ε σ α β γ : Type} {P : σ → Prop} {R : σ → σ → Prop}

/-- Where it succeeds, a step keeps an invariant, goes on to a related state, and gives one of some
answers. -/
def Moves (P : σ → Prop) (R : σ → σ → Prop) (A : α → Prop) (x : EStateM ε σ α) : Prop :=
  ∀ s a t, P s → x s = .ok a t → P t ∧ R s t ∧ A a

/-- Where it succeeds from the invariant, a step makes something true. -/
def Makes (P Q : σ → Prop) (x : EStateM ε σ α) : Prop :=
  ∀ s a t, P s → x s = .ok a t → Q t

/-- States are related as what is seen of them is. -/
instance reflInvImage {R : β → β → Prop} [Std.Refl R] (f : α → β) : Std.Refl (InvImage R f) :=
  ⟨fun a => refl (f a)⟩

instance isTransInvImage {R : β → β → Prop} [IsTrans β R] (f : α → β) :
    IsTrans α (InvImage R f) :=
  ⟨fun a b c => IsTrans.trans (f a) (f b) (f c)⟩

namespace Moves

variable {A : α → Prop} {B : β → Prop}

theorem weaken {A' : α → Prop} {x : EStateM ε σ α} (moves : Moves P R A x)
    (weaker : ∀ a, A a → A' a) : Moves P R A' x := fun s a t holds ran =>
  let ⟨kept, related, answer⟩ := moves s a t holds ran
  ⟨kept, related, weaker a answer⟩

theorem modify {f : σ → σ} (kept : ∀ s, P s → P (f s) ∧ R s (f s)) :
    Moves P R (fun _ => True) (modify f : EStateM ε σ PUnit) := by
  intro s a t holds ran
  cases ran
  exact ⟨(kept s holds).1, (kept s holds).2, trivial⟩

/-- What the invariant says of the state that is read holds of what is done with it. -/
theorem get_bind {f : σ → EStateM ε σ α} (each : ∀ s, P s → Moves P R A (f s)) :
    Moves P R A (get >>= f) := fun s a t holds ran => each s holds s a t holds ran

theorem bind [IsTrans σ R] {x : EStateM ε σ α} {f : α → EStateM ε σ β} (first : Moves P R A x)
    (next : ∀ a, A a → Moves P R B (f a)) : Moves P R B (x >>= f) := by
  intro s b t holds ran
  obtain ⟨a, m, began, ended⟩ := exists_of_bind_eq_ok ran
  obtain ⟨middle, related, answer⟩ := first s a m holds began
  obtain ⟨last, related', answer'⟩ := next a answer m b t middle ended
  exact ⟨last, IsTrans.trans s m t related related', answer'⟩

variable [Std.Refl R]

theorem pure {a : α} (answer : A a) : Moves P R A (Pure.pure a : EStateM ε σ α) := by
  intro s b t holds ran
  cases ran
  exact ⟨holds, refl s, answer⟩

variable [IsTrans σ R]

theorem forM {xs : List α} {f : α → EStateM ε σ PUnit}
    (each : ∀ x ∈ xs, Moves P R (fun _ => True) (f x)) :
    Moves P R (fun _ => True) (xs.forM f) := by
  induction xs with
  | nil => exact .pure trivial
  | cons x xs ih =>
    exact (each x (List.mem_cons_self ..)).bind fun _ _ => ih fun y member =>
      each y (List.mem_cons_of_mem _ member)

theorem filterM {xs : List α} {f : α → EStateM ε σ Bool} {keep : α → Bool}
    (each : ∀ x ∈ xs, Moves P R (· = keep x) (f x)) :
    Moves P R (· = xs.filter keep) (xs.filterM f) := by
  have kept (acc : List α) :
      Moves P R (· = (xs.filter keep).reverse ++ acc) (xs.filterAuxM f acc) := by
    induction xs generalizing acc with
    | nil => exact .pure rfl
    | cons x xs ih =>
      refine (each x (List.mem_cons_self ..)).bind fun answer same => ?_
      have rest := ih (fun y member => each y (List.mem_cons_of_mem _ member))
        (cond answer (x :: acc) acc)
      rw [same] at rest ⊢
      refine rest.weaken fun found here => ?_
      rw [here, List.filter_cons]
      cases keep x <;> simp
  exact (kept []).bind fun found same => .pure (by rw [same, List.append_nil, List.reverse_reverse])

theorem foldlM {xs : List α} {f : β → α → EStateM ε σ β}
    (each : ∀ b, B b → ∀ x ∈ xs, Moves P R B (f b x)) {b : β} (start : B b) :
    Moves P R B (xs.foldlM f b) := by
  induction xs generalizing b with
  | nil => exact .pure start
  | cons x xs ih =>
    rw [List.foldlM_cons]
    exact (each b start x (List.mem_cons_self ..)).bind fun c next =>
      ih (fun b fits y member => each b fits y (List.mem_cons_of_mem _ member)) next

end Moves

namespace Makes

variable {Q : σ → Prop} {A : α → Prop} {B : β → Prop}

/-- What the second step makes true. -/
theorem bind {x : EStateM ε σ α} {f : α → EStateM ε σ β} (first : Moves P R A x)
    (next : ∀ a, A a → Makes P Q (f a)) : Makes P Q (x >>= f) := by
  intro s b t holds ran
  obtain ⟨a, m, began, ended⟩ := exists_of_bind_eq_ok ran
  obtain ⟨middle, _, answer⟩ := first s a m holds began
  exact next a answer m b t middle ended

theorem get_bind {f : σ → EStateM ε σ α} (each : ∀ s, P s → Makes P Q (f s)) :
    Makes P Q (get >>= f) := fun s a t holds ran => each s holds s a t holds ran

/-- What the first step makes true and the second one keeps. -/
theorem bind_left {x : EStateM ε σ α} {f : α → EStateM ε σ β} (first : Moves P R A x)
    (makes : Makes P Q x) (next : ∀ a, A a → Moves P R B (f a))
    (kept : ∀ s t, P s → R s t → Q s → Q t) : Makes P Q (x >>= f) := by
  intro s b t holds ran
  obtain ⟨a, m, began, ended⟩ := exists_of_bind_eq_ok ran
  obtain ⟨middle, _, answer⟩ := first s a m holds began
  obtain ⟨_, related, _⟩ := next a answer m b t middle ended
  exact kept m t middle related (makes s a m holds began)

variable [Std.Refl R] [IsTrans σ R] {Q : γ → σ → Prop}

/-- A loop makes true what its steps make true for their elements. -/
theorem foldlM {xs : List γ} {f : β → γ → EStateM ε σ β}
    (each : ∀ b, B b → ∀ x ∈ xs, Moves P R B (f b x))
    (makes : ∀ b, B b → ∀ x ∈ xs, Makes P (Q x) (f b x))
    (kept : ∀ x s t, P s → R s t → Q x s → Q x t) {b : β} (start : B b) :
    Makes P (fun s => ∀ x ∈ xs, Q x s) (xs.foldlM f b) := by
  induction xs generalizing b with
  | nil => exact fun _ _ _ _ _ _ none => absurd none List.not_mem_nil
  | cons x xs ih =>
    rw [List.foldlM_cons]
    have later (b : β) (fits : B b) (y : γ) (member : y ∈ xs) :=
      each b fits y (List.mem_cons_of_mem _ member)
    intro s c t holds ran y member
    rcases List.mem_cons.mp member with rfl | member
    · exact bind_left (each b start y (List.mem_cons_self ..))
        (makes b start y (List.mem_cons_self ..)) (fun c fits => .foldlM later fits) (kept y)
        s c t holds ran
    · exact bind (each b start x (List.mem_cons_self ..))
        (fun c fits => ih later (fun b fits y member => makes b fits y
          (List.mem_cons_of_mem _ member)) fits) s c t holds ran y member

theorem forM {xs : List γ} {f : γ → EStateM ε σ PUnit}
    (each : ∀ x ∈ xs, Moves P R (fun _ => True) (f x)) (makes : ∀ x ∈ xs, Makes P (Q x) (f x))
    (kept : ∀ x s t, P s → R s t → Q x s → Q x t) :
    Makes P (fun s => ∀ x ∈ xs, Q x s) (xs.forM f) := by
  induction xs with
  | nil => exact fun _ _ _ _ _ _ none => absurd none List.not_mem_nil
  | cons x xs ih =>
    have later (y : γ) (member : y ∈ xs) := each y (List.mem_cons_of_mem _ member)
    intro s u t holds ran y member
    rcases List.mem_cons.mp member with rfl | member
    · exact bind_left (each y (List.mem_cons_self ..)) (makes y (List.mem_cons_self ..))
        (fun _ _ => .forM later) (kept y) s u t holds ran
    · exact bind (each x (List.mem_cons_self ..))
        (fun _ _ => ih later fun y member => makes y (List.mem_cons_of_mem _ member))
        s u t holds ran y member

end Makes

/-- A step leads to a related state, whether it fails or not. -/
def Follows (R : σ → σ → Prop) (x : EStateM ε σ α) : Prop :=
  ∀ s, R s (endState (x s))

namespace Follows

theorem discard {x : EStateM ε σ α} (follows : Follows R x) : Follows R (discard x) := by
  intro s
  have led := follows s
  rw [run_discard]
  cases ran : x s <;> rwa [ran] at led

variable [Std.Refl R]

theorem pure (a : α) : Follows R (Pure.pure a : EStateM ε σ α) := fun s => refl s

variable [IsTrans σ R]

/-- Following a relation is staying related to every state from which one may have started. -/
theorem iff_preserves {x : EStateM ε σ α} : Follows R x ↔ ∀ start, Preserves (R start) x :=
  ⟨fun follows start s holds => IsTrans.trans start s _ holds (follows s),
    fun preserves s => preserves s s (refl s)⟩

theorem bind {x : EStateM ε σ α} {f : α → EStateM ε σ β} (first : Follows R x)
    (next : ∀ a, Follows R (f a)) : Follows R (x >>= f) :=
  iff_preserves.mpr fun start => (iff_preserves.mp first start).bind fun a =>
    iff_preserves.mp (next a) start

theorem forM {xs : List α} {f : α → EStateM ε σ PUnit} (each : ∀ x ∈ xs, Follows R (f x)) :
    Follows R (xs.forM f) :=
  iff_preserves.mpr fun start => Preserves.forM fun x member =>
    iff_preserves.mp (each x member) start

theorem foldlM {xs : List α} {f : β → α → EStateM ε σ β}
    (each : ∀ b, ∀ x ∈ xs, Follows R (f b x)) (b : β) : Follows R (xs.foldlM f b) :=
  iff_preserves.mpr fun start => Preserves.foldlM (fun b x member =>
    iff_preserves.mp (each b x member) start) b

end Follows

/-- Leaving an observation alone is going on to a state in which the same is seen. -/
theorem leaves_iff_follows {observe : σ → γ} {x : EStateM ε σ α} :
    Leaves observe x ↔ Follows (InvImage Eq observe) x :=
  ⟨fun leaves s => (leaves s).symm, fun follows s => (follows s).symm⟩

end Recast.Build
