import Recast.Build.Watch

/-! # What steps leave behind

A step ends in a state whether it fails or not. `Preserves` says that an invariant survives a step,
and `Leaves` that an observation does not change. Both pass through everything steps are put
together from, so that what a pass leaves alone follows from what its single steps leave alone.
-/

namespace Recast.Build

open Recast.Emit

section Running

variable {ε σ α β : Type}

@[simp] theorem run_pure (a : α) (s : σ) : (pure a : EStateM ε σ α) s = .ok a s := rfl

@[simp] theorem run_get (s : σ) : (get : EStateM ε σ σ) s = .ok s s := rfl

@[simp] theorem run_modify (f : σ → σ) (s : σ) : (modify f : EStateM ε σ PUnit) s = .ok ⟨⟩ (f s) :=
  rfl

@[simp] theorem run_throw (e : ε) (s : σ) : (throw e : EStateM ε σ α) s = .error e s := rfl

/-- A step goes on only from an answer. -/
theorem run_bind (x : EStateM ε σ α) (f : α → EStateM ε σ β) (s : σ) :
    (x >>= f) s = match x s with
      | .ok a t => f a t
      | .error e t => .error e t := rfl

theorem run_bind_ok {x : EStateM ε σ α} {f : α → EStateM ε σ β} {s t : σ} {a : α}
    (first : x s = .ok a t) :
    (x >>= f) s = f a t := by
  rw [run_bind, first]

theorem run_bind_error {x : EStateM ε σ α} {f : α → EStateM ε σ β} {s t : σ} {e : ε}
    (first : x s = .error e t) :
    (x >>= f) s = .error e t := by
  rw [run_bind, first]

/-- A sequence that succeeds went through an answer of its first step. -/
theorem exists_of_bind_eq_ok {x : EStateM ε σ α} {f : α → EStateM ε σ β} {s t : σ} {b : β}
    (ran : (x >>= f) s = .ok b t) : ∃ a m, x s = .ok a m ∧ f a m = .ok b t := by
  rw [run_bind] at ran
  cases first : x s with
  | ok a m =>
    rw [first] at ran
    exact ⟨a, m, rfl, ran⟩
  | error e m =>
    rw [first] at ran
    cases ran

theorem run_discard (x : EStateM ε σ α) (s : σ) :
    discard x s = match x s with
      | .ok _ t => .ok ⟨⟩ t
      | .error e t => .error e t := by
  change EStateM.map (fun _ => PUnit.unit) x s = _
  unfold EStateM.map
  cases x s <;> rfl

theorem exists_of_discard_eq_ok {x : EStateM ε σ α} {s t : σ} {u : PUnit}
    (ran : discard x s = .ok u t) : ∃ a, x s = .ok a t := by
  rw [run_discard] at ran
  cases first : x s with
  | ok a m =>
    rw [first] at ran
    cases ran
    exact ⟨a, rfl⟩
  | error e m =>
    rw [first] at ran
    cases ran

/-- A failure is handled in the state that it left. -/
theorem run_tryCatch (x : EStateM ε σ α) (handle : ε → EStateM ε σ α) (s : σ) :
    (tryCatch x handle) s = match x s with
      | .ok a t => .ok a t
      | .error e t => handle e t := by
  change EStateM.tryCatch x handle s = _
  unfold EStateM.tryCatch
  cases x s <;> rfl

/-- The state in which a step ends, whether it fails or not. -/
def endState : EStateM.Result ε σ α → σ
  | .ok _ s => s
  | .error _ s => s

@[simp] theorem endState_ok (a : α) (s : σ) : endState (.ok a s : EStateM.Result ε σ α) = s := rfl

end Running

section Invariants

variable {ε σ α β γ : Type} {P : σ → Prop}

/-- A step that begins in the invariant ends in it. -/
def Preserves (P : σ → Prop) (x : EStateM ε σ α) : Prop :=
  ∀ s, P s → P (endState (x s))

namespace Preserves

theorem pure (a : α) : Preserves P (Pure.pure a : EStateM ε σ α) := fun _ holds => holds

theorem get : Preserves P (get : EStateM ε σ σ) := fun _ holds => holds

theorem modify {f : σ → σ} (kept : ∀ s, P s → P (f s)) :
    Preserves P (modify f : EStateM ε σ PUnit) := kept

/-- What the first step of a sequence ends in, the steps behind it keep. -/
theorem behind {x : EStateM ε σ α} {f : α → EStateM ε σ β} {s : σ} (first : P (endState (x s)))
    (next : ∀ a, Preserves P (f a)) : P (endState ((x >>= f) s)) := by
  rw [run_bind]
  cases ran : x s with
  | ok a t =>
    rw [ran] at first
    exact next a t first
  | error e t =>
    rw [ran] at first
    exact first

theorem bind {x : EStateM ε σ α} {f : α → EStateM ε σ β} (first : Preserves P x)
    (next : ∀ a, Preserves P (f a)) : Preserves P (x >>= f) :=
  fun s holds => behind (first s holds) next

theorem map {x : EStateM ε σ α} {f : α → β} (first : Preserves P x) : Preserves P (f <$> x) :=
  first.bind fun a => Preserves.pure (f a)

theorem forM {xs : List α} {f : α → EStateM ε σ PUnit} (each : ∀ x ∈ xs, Preserves P (f x)) :
    Preserves P (xs.forM f) := by
  induction xs with
  | nil => exact Preserves.pure _
  | cons x xs ih =>
    exact (each x (List.mem_cons_self ..)).bind fun _ => ih fun y member =>
      each y (List.mem_cons_of_mem _ member)

theorem foldlM {xs : List α} {f : β → α → EStateM ε σ β} (each : ∀ b, ∀ x ∈ xs, Preserves P (f b x))
    (b : β) :
    Preserves P (xs.foldlM f b) := by
  induction xs generalizing b with
  | nil => exact Preserves.pure _
  | cons x xs ih =>
    rw [List.foldlM_cons]
    exact (each b x (List.mem_cons_self ..)).bind fun c =>
      ih (fun b y member => each b y (List.mem_cons_of_mem _ member)) c

theorem filterM {xs : List α} {f : α → EStateM ε σ Bool} (each : ∀ x ∈ xs, Preserves P (f x)) :
    Preserves P (xs.filterM f) := by
  have kept : ∀ acc, Preserves P (xs.filterAuxM f acc) := by
    induction xs with
    | nil => exact fun acc => Preserves.pure acc
    | cons x xs ih =>
      exact fun acc => (each x (List.mem_cons_self ..)).bind fun _ =>
        ih (fun y member => each y (List.mem_cons_of_mem _ member)) _
  exact (kept []).bind fun _ => Preserves.pure _

theorem tryCatch {x : EStateM ε σ α} {handle : ε → EStateM ε σ α} (tried : Preserves P x)
    (handled : ∀ e, Preserves P (handle e)) : Preserves P (tryCatch x handle) := by
  intro s holds
  have middle := tried s holds
  rw [run_tryCatch]
  cases ran : x s with
  | ok a t =>
    rw [ran] at middle
    exact middle
  | error e t =>
    rw [ran] at middle
    exact handled e t middle

end Preserves

/-- A step that does not change what is observed. -/
def Leaves (observe : σ → γ) (x : EStateM ε σ α) : Prop :=
  ∀ s, observe (endState (x s)) = observe s

/-- Leaving an observation alone is keeping every invariant of the observation. -/
theorem leaves_iff_preserves {observe : σ → γ} {x : EStateM ε σ α} :
    Leaves observe x ↔ ∀ value, Preserves (fun s => observe s = value) x :=
  ⟨fun leaves _ s holds => (leaves s).trans holds, fun preserves s => preserves _ s rfl⟩

namespace Leaves

variable {observe : σ → γ}

theorem pure (a : α) : Leaves observe (Pure.pure a : EStateM ε σ α) := fun _ => rfl

theorem bind {x : EStateM ε σ α} {f : α → EStateM ε σ β} (first : Leaves observe x)
    (next : ∀ a, Leaves observe (f a)) : Leaves observe (x >>= f) :=
  leaves_iff_preserves.mpr fun value =>
    (leaves_iff_preserves.mp first value).bind fun a => leaves_iff_preserves.mp (next a) value

theorem forM {xs : List α} {f : α → EStateM ε σ PUnit} (each : ∀ x ∈ xs, Leaves observe (f x)) :
    Leaves observe (xs.forM f) :=
  leaves_iff_preserves.mpr fun value => Preserves.forM fun x member =>
    leaves_iff_preserves.mp (each x member) value

end Leaves

end Invariants

end Recast.Build
