import Recast.Proofs.Path.Sameness

/-! # The meaning of a path

Read from left to right, a step back takes back the last name. Where no name is left, it leads
nowhere from a root, and stays in front of a path that does not begin there. The normal form keeps
this meaning as long as it need not remember two steps back that found no name: of these each second
one takes back the one before it. How many they are is counted beside the names (`remains`), and both
forms are told from the count.
-/

namespace Recast.Path

/-- Takes one step as it is meant, on the reversed steps so far. -/
def referenceStep (rooted : Bool) (done : List String) : Component → List String
  | .root => done
  | .current => done
  | .parent =>
    match done with
    | [] => if rooted then [] else [".."]
    | last :: before => if last = ".." then ".." :: last :: before else before
  | .normal name => name :: done

/-- The path without dots, idle segments, and names that are taken back. -/
def reference (p : Path) : Path :=
  ⟨p.rooted, (p.components.foldl (referenceStep p.rooted) []).reverse⟩

/-- What is left of steps: the names that were not taken back, the last one first, and the number of
steps back that found no name. -/
structure Remains where
  names : List String
  surplus : Nat

namespace Remains

/-- Takes one step. -/
def step (left : Remains) : Component → Remains
  | .root => left
  | .current => left
  | .parent =>
    match left.names with
    | [] => { left with surplus := left.surplus + 1 }
    | _ :: before => { left with names := before }
  | .normal name => { left with names := name :: left.names }

/-- The steps of the normal form. -/
def folded (left : Remains) : List String :=
  left.names ++ List.replicate (left.surplus % 2) ".."

/-- The steps of the reference form. -/
def meant (rooted : Bool) (left : Remains) : List String :=
  left.names ++ if rooted then [] else List.replicate left.surplus ".."

theorem foldStep_folded (left : Remains) (component : Component) :
    foldStep left.folded component = (left.step component).folded := by
  obtain ⟨names, surplus⟩ := left
  cases component with
  | root => rfl
  | current => rfl
  | normal name => rfl
  | parent =>
    cases names with
    | cons name before => rfl
    | nil =>
      -- a step back in front takes back the one that is there
      rcases Nat.mod_two_eq_zero_or_one surplus with even | odd
      · have next : (surplus + 1) % 2 = 1 := by omega
        simp [folded, step, foldStep, even, next]
      · have next : (surplus + 1) % 2 = 0 := by omega
        simp [folded, step, foldStep, odd, next]

theorem notMem_names_step {left : Remains} {component : Component} (proper : ".." ∉ left.names)
    (named : component ≠ .normal "..") : ".." ∉ (left.step component).names := by
  obtain ⟨names, surplus⟩ := left
  cases component with
  | root => exact proper
  | current => exact proper
  | normal name =>
    intro member
    rcases List.mem_cons.mp member with rfl | member
    · exact named rfl
    · exact proper member
  | parent =>
    cases names with
    | nil => exact proper
    | cons name before => exact fun member => proper (List.mem_cons_of_mem _ member)

theorem referenceStep_meant (rooted : Bool) {left : Remains} (proper : ".." ∉ left.names)
    (component : Component) :
    referenceStep rooted (left.meant rooted) component = (left.step component).meant rooted := by
  obtain ⟨names, surplus⟩ := left
  cases component with
  | root => rfl
  | current => rfl
  | normal name => rfl
  | parent =>
    cases names with
    | cons name before =>
      have other : name ≠ ".." := fun same => proper (same ▸ List.mem_cons_self ..)
      simp [meant, step, referenceStep, other]
    | nil =>
      cases rooted with
      | true => rfl
      | false => cases surplus <;> simp [meant, step, referenceStep, List.replicate_succ]

variable {steps : List Component}

theorem foldl_foldStep (left : Remains) :
    steps.foldl foldStep left.folded = (steps.foldl step left).folded := by
  induction steps generalizing left with
  | nil => rfl
  | cons component steps ih => rw [List.foldl_cons, List.foldl_cons, foldStep_folded, ih]

theorem notMem_names_foldl {left : Remains} (proper : ".." ∉ left.names)
    (named : Component.normal ".." ∉ steps) : ".." ∉ (steps.foldl step left).names := by
  induction steps generalizing left with
  | nil => exact proper
  | cons component steps ih =>
    rw [List.mem_cons, not_or] at named
    exact ih (notMem_names_step proper (Ne.symm named.1)) named.2

theorem foldl_referenceStep (rooted : Bool) {left : Remains} (proper : ".." ∉ left.names)
    (named : Component.normal ".." ∉ steps) :
    steps.foldl (referenceStep rooted) (left.meant rooted) = (steps.foldl step left).meant rooted := by
  induction steps generalizing left with
  | nil => rfl
  | cons component steps ih =>
    rw [List.mem_cons, not_or] at named
    rw [List.foldl_cons, List.foldl_cons, referenceStep_meant rooted proper,
      ih (notMem_names_step proper (Ne.symm named.1)) named.2]

end Remains

/-- What is left of the steps of a path. -/
def remains (p : Path) : Remains :=
  p.components.foldl Remains.step ⟨[], 0⟩

variable {p q : Path}

/-- No name is spelled like a step back. -/
private theorem back_notMem_components (p : Path) : Component.normal ".." ∉ p.components := by
  have inner (segments : List String) : Component.normal ".." ∉ innerComponents segments := by
    simp only [innerComponents, List.mem_map, not_exists, not_and]
    intro segment _ same
    by_cases back : segment = ".."
    · simp [stepOf, back] at same
    · rw [stepOf, if_neg back, Component.normal.injEq] at same
      exact back same
  unfold components
  split
  · simp [inner]
  · split <;> simp [inner]

theorem back_notMem_names (p : Path) : ".." ∉ p.remains.names :=
  Remains.notMem_names_foldl List.not_mem_nil (back_notMem_components p)

theorem normalize_eq (p : Path) : p.normalize = ⟨p.rooted, p.remains.folded.reverse⟩ := by
  rw [remains, ← Remains.foldl_foldStep]
  rfl

theorem reference_eq (p : Path) : p.reference = ⟨p.rooted, (p.remains.meant p.rooted).reverse⟩ := by
  rw [remains, ← Remains.foldl_referenceStep p.rooted List.not_mem_nil (back_notMem_components p)]
  simp [Remains.meant, reference]

/-- How often the normal form steps back is whether the number of steps back without a name is odd;
how often it should is the number itself, and never at a root. -/
private theorem normalize_eq_reference_iff_count :
    p.normalize = p.reference ↔
      p.remains.surplus % 2 = if p.rooted then 0 else p.remains.surplus := by
  have replicates (n : Nat) : List.replicate (p.remains.surplus % 2) ".." = List.replicate n ".." ↔
      p.remains.surplus % 2 = n :=
    ⟨fun same => by simpa using congrArg List.length same, fun same => by rw [same]⟩
  rw [normalize_eq, reference_eq, Path.mk.injEq, eq_self, true_and, List.reverse_inj,
    Remains.folded, Remains.meant, List.append_cancel_left_eq]
  cases p.rooted with
  | true => exact replicates 0
  | false => exact replicates _

/-- The normal form of a path from the root leads back nowhere exactly when the steps back that found no
name are even in number. -/
private theorem parent_notMem_normalize_iff (absolute : p.rooted = true) :
    Component.parent ∉ p.normalize.components ↔ p.remains.surplus % 2 = 0 := by
  have spelled : p.normalize.segments = p.remains.folded.reverse := by rw [normalize_eq]
  have rooted : p.normalize.rooted = true := absolute
  have back : Component.parent ∈ p.normalize.components ↔ ".." ∈ p.remains.folded := by
    rw [(isNormal_normalize p).components, rooted, if_pos rfl, spelled]
    constructor
    · intro member
      obtain ⟨segment, member, step⟩ := List.mem_map.mp ((List.mem_cons.mp member).resolve_left nofun)
      by_cases same : segment = ".."
      · exact same ▸ List.mem_reverse.mp member
      · rw [stepOf, if_neg same] at step
        cases step
    · exact fun member => List.mem_cons_of_mem _
        (List.mem_map.mpr ⟨"..", List.mem_reverse.mpr member, rfl⟩)
  rw [back, Remains.folded, List.mem_append, List.mem_replicate]
  have proper := back_notMem_names p
  simp [proper]

private theorem current_notMem_normalize (absolute : p.rooted = true) :
    Component.current ∉ p.normalize.components := by
  have rooted : p.normalize.rooted = true := absolute
  rw [(isNormal_normalize p).components, rooted, if_pos rfl]
  intro member
  obtain ⟨segment, _, step⟩ := List.mem_map.mp ((List.mem_cons.mp member).resolve_left nofun)
  unfold stepOf at step
  split at step <;> cases step

/-- A directory may be put in normal form before something is looked up in it. -/
theorem normalize_join (a : Path) {b : Path} (relative : ¬b.rooted) :
    (a.join b).normalize = (a.normalize.join b).normalize := by
  have done : a.normalize.components.foldl foldStep [] = a.components.foldl foldStep [] :=
    List.reverse_inj.mp (congrArg segments (normalize_normalize a))
  unfold normalize
  rw [rooted_join a relative, rooted_join _ relative, foldl_join a relative,
    foldl_join _ relative, ← normalize, done]
  rfl

/-- The path that is looked up for a path: relative ones lead from the current directory. -/
def located (p current : Path) : Path :=
  if p.rooted then p else current.join p

private theorem rooted_located (p : Path) {current : Path} (absolute : current.rooted = true) :
    (p.located current).rooted = true := by
  unfold located
  split
  · assumption
  · next relative => rw [rooted_join current relative, absolute]

/-- Paths from the root that mean one place have the same names left. -/
private theorem normalize_eq_normalize_iff (absolute : p.rooted = true) (absolute' : q.rooted = true)
    (meaning : p.reference = q.reference) :
    p.normalize = q.normalize ↔ p.remains.surplus % 2 = q.remains.surplus % 2 := by
  have names : p.remains.names = q.remains.names := by
    rw [reference_eq, reference_eq, Path.mk.injEq, absolute, absolute'] at meaning
    simpa [Remains.meant] using meaning.2
  rw [normalize_eq, normalize_eq, absolute, absolute', Path.mk.injEq, eq_self, true_and,
    List.reverse_inj, Remains.folded, Remains.folded, names, List.append_cancel_left_eq]
  exact ⟨fun same => by simpa using congrArg List.length same, fun same => by rw [same]⟩

/-- What the normal form keeps of the meaning of a path. It is the reference form exactly when at most
one step back finds no name (from a root: an even number of them), and then only is it free of dots
below a root. It is its own normal form, and whatever is looked up in a directory is found at one
place below the directory and below its normal form. Two spellings of one place resolve to one path
exactly when the numbers of their steps back beyond the root are both even or both odd. -/
theorem normalize_meaning (p : Path) :
    (p.normalize = p.reference ↔
      if p.rooted then p.remains.surplus % 2 = 0 else p.remains.surplus ≤ 1) ∧
    (p.rooted → ((Component.current ∉ p.normalize.components ∧
      Component.parent ∉ p.normalize.components) ↔ p.remains.surplus % 2 = 0)) ∧
    p.normalize.normalize = p.normalize ∧
    (∀ b : Path, ¬b.rooted → (p.join b).normalize = (p.normalize.join b).normalize) ∧
    (∀ q current : Path, current.rooted →
      (p.located current).reference = (q.located current).reference →
      (p.resolveFrom current = q.resolveFrom current ↔
        (p.located current).remains.surplus % 2 = (q.located current).remains.surplus % 2)) := by
  refine ⟨?_, fun absolute => ?_, normalize_normalize p, fun b relative => normalize_join p relative,
    fun q current absolute meaning => ?_⟩
  · rw [normalize_eq_reference_iff_count]
    cases p.rooted with
    | true => simp
    | false =>
      simp only [Bool.false_eq_true, ↓reduceIte]
      omega
  · rw [← parent_notMem_normalize_iff absolute]
    exact and_iff_right (current_notMem_normalize absolute)
  · exact normalize_eq_normalize_iff (rooted_located p absolute) (rooted_located q absolute) meaning

/-- A step back from the root is kept, two steps back from a relative path are forgotten, and `..` and
`.` are two places when they are looked up at the root. -/
theorem normalize_meaning_climbing :
    (ofString "/../a.ts").normalize = ofString "/../a.ts" ∧
    (ofString "/../a.ts").reference = ofString "/a.ts" ∧
    (ofString "/../a.ts").normalize ≠ (ofString "/../a.ts").reference ∧
    (ofString "../../a.ts").normalize = ofString "a.ts" ∧
    (ofString "../../a.ts").reference = ofString "../../a.ts" ∧
    (ofString "../../a.ts").normalize ≠ (ofString "../../a.ts").reference ∧
    (ofString "../a.ts").resolveFrom (ofString "/") ≠ (ofString "a.ts").resolveFrom (ofString "/") := by
  have climbs := (normalize_meaning (ofString "/../a.ts")).1
  have twice := (normalize_meaning (ofString "../../a.ts")).1
  have apart := (normalize_meaning (ofString "../a.ts")).2.2.2.2 (ofString "a.ts") (ofString "/")
    (by decide +kernel) (by decide +kernel)
  refine ⟨by decide +kernel, by decide +kernel, fun same => ?_, by decide +kernel, by decide +kernel,
    fun same => ?_, fun same => ?_⟩
  · exact absurd (climbs.mp same) (by decide +kernel)
  · exact absurd (twice.mp same) (by decide +kernel)
  · exact absurd (apart.mp same) (by decide +kernel)

end Recast.Path
