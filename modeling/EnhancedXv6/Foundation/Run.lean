import Mathlib

/-! Finite runs of a deterministic labelled step function. A label carries every
choice its step makes, so a run is determined by its first state and its labels;
`none` is a label that is not enabled. -/

namespace EnhancedXv6.Foundation

universe u v w

variable {State : Type u} {Label : Type v}

/-- The state after the labels of a run, if every one of them is enabled. -/
def exec (step : State → Label → Option State) : State → List Label → Option State
  | state, [] => some state
  | state, label :: rest => (step state label).bind fun next => exec step next rest

/-- A condition met by every step of a run, each judged in the state before it. -/
def Along (step : State → Label → Option State) (condition : State → Label → Prop) :
    State → List Label → Prop
  | _, [] => True
  | state, label :: rest =>
    condition state label ∧ ∀ next, step state label = some next → Along step condition next rest

/-- A property of every state that a run passes through, its last one included. -/
def Throughout (step : State → Label → Option State) (property : State → Prop) :
    State → List Label → Prop
  | state, [] => property state
  | state, label :: rest =>
    property state ∧ ∀ next, step state label = some next → Throughout step property next rest

variable {step : State → Label → Option State} {condition : State → Label → Prop}
  {property invariant : State → Prop}

/-- Conditions that can be tested are testable along a run. -/
instance decidableAlong [∀ state label, Decidable (condition state label)] :
    (state : State) → (labels : List Label) → Decidable (Along step condition state labels)
  | _, [] => .isTrue trivial
  | state, label :: rest =>
    match taken : step state label with
    | none => decidable_of_iff (condition state label) (by simp [Along, taken])
    | some next =>
      have := decidableAlong next rest
      decidable_of_iff (condition state label ∧ Along step condition next rest)
        (by simp [Along, taken])

theorem exec_cons (success : exec step state (label :: rest) = some finish) :
    ∃ next, step state label = some next ∧ exec step next rest = some finish :=
  Option.bind_eq_some_iff.mp success

theorem exec_append (state : State) (first second : List Label) :
    exec step state (first ++ second) =
      (exec step state first).bind fun middle => exec step middle second := by
  induction first generalizing state with
  | nil => rfl
  | cons label rest ih => simp [exec, ih, Option.bind_assoc]

theorem exec_snoc (success : exec step state labels = some finish)
    (last : step finish label = some next) : exec step state (labels ++ [label]) = some next := by
  simp [exec_append, success, exec, last]

theorem Throughout.first (holds : Throughout step property state labels) : property state := by
  cases labels with
  | nil => exact holds
  | cons label rest => exact holds.1

/-- A property of every state passed through holds of the state a run ends in. -/
theorem Throughout.final (holds : Throughout step property state labels)
    (success : exec step state labels = some finish) : property finish := by
  induction labels generalizing state with
  | nil =>
    cases success
    exact holds
  | cons label rest ih =>
    obtain ⟨next, taken, remaining⟩ := exec_cons success
    exact ih (holds.2 next taken) remaining

theorem throughout_of_along
    (preserved : ∀ state label next, invariant state → condition state label →
      step state label = some next → invariant next)
    (initial : invariant state) (met : Along step condition state labels) :
    Throughout step invariant state labels := by
  induction labels generalizing state with
  | nil => exact initial
  | cons label rest ih =>
    refine ⟨initial, fun next taken => ?_⟩
    exact ih (preserved state label next initial met.1 taken) (met.2 next taken)

theorem along_of_forall {allowed : Label → Prop} (met : ∀ label ∈ labels, allowed label) :
    Along step (fun _ label => allowed label) state labels := by
  induction labels generalizing state with
  | nil => trivial
  | cons label rest ih =>
    refine ⟨met label List.mem_cons_self, fun next _ => ?_⟩
    exact ih fun later member => met later (List.mem_cons_of_mem label member)

theorem along_trivial : Along step (fun _ _ => True) state labels := by
  induction labels generalizing state with
  | nil => trivial
  | cons label rest ih => exact ⟨trivial, fun _ _ => ih⟩

section

variable
  (preserved : ∀ state label next, invariant state → step state label = some next → invariant next)

include preserved

theorem throughout_of_preserved (initial : invariant state) :
    Throughout step invariant state labels :=
  throughout_of_along
    (fun state label next holds _ taken => preserved state label next holds taken)
    initial along_trivial

/-- Conditions that an invariant makes equal are met by the same runs. -/
theorem along_congr {other : State → Label → Prop}
    (same : ∀ state label, invariant state → (condition state label ↔ other state label))
    (initial : invariant state) :
    Along step condition state labels ↔ Along step other state labels := by
  induction labels generalizing state with
  | nil => exact Iff.rfl
  | cons label rest ih =>
    refine and_congr (same state label initial) (forall_congr' fun next => ?_)
    exact ⟨fun later taken => (ih (preserved state label next initial taken)).mp (later taken),
      fun later taken => (ih (preserved state label next initial taken)).mpr (later taken)⟩

/-- An invariant of the steps holds of every state that a run ends in. -/
theorem exec_invariant (initial : invariant state)
    (success : exec step state labels = some finish) : invariant finish :=
  (throughout_of_preserved preserved initial).final success

/-- What an invariant and a condition on a step give together, along a run. -/
theorem along_of_invariant {other : State → Label → Prop}
    (implied : ∀ state label, invariant state → condition state label → other state label)
    (initial : invariant state) (met : Along step condition state labels) :
    Along step other state labels := by
  induction labels generalizing state with
  | nil => trivial
  | cons label rest ih =>
    refine ⟨implied state label initial met.1, fun next taken => ?_⟩
    exact ih (preserved state label next initial taken) (met.2 next taken)

theorem exec_total
    (enabled : ∀ state label, invariant state → condition state label →
      ∃ next, step state label = some next)
    (initial : invariant state) (met : Along step condition state labels) :
    ∃ finish, exec step state labels = some finish := by
  induction labels generalizing state with
  | nil => exact ⟨state, rfl⟩
  | cons label rest ih =>
    obtain ⟨next, taken⟩ := enabled state label initial met.1
    obtain ⟨finish, remaining⟩ := ih (preserved state label next initial taken) (met.2 next taken)
    exact ⟨finish, by rw [exec, taken, Option.bind_some, remaining]⟩

theorem exec_simulates {Abstract : Type w} {abstractStep : Abstract → Label → Option Abstract}
    {abstraction : State → Abstract}
    (simulated : ∀ state label next, invariant state → condition state label →
      step state label = some next →
      abstractStep (abstraction state) label = some (abstraction next))
    (initial : invariant state) (met : Along step condition state labels)
    (success : exec step state labels = some finish) :
    exec abstractStep (abstraction state) labels = some (abstraction finish) := by
  induction labels generalizing state with
  | nil =>
    cases success
    rfl
  | cons label rest ih =>
    obtain ⟨next, taken, remaining⟩ := exec_cons success
    have first := simulated state label next initial met.1 taken
    have later := ih (preserved state label next initial taken) (met.2 next taken) remaining
    rw [exec, first, Option.bind_some, later]

end

theorem Throughout.mono (weaker : ∀ state, property state → invariant state)
    (holds : Throughout step property state labels) : Throughout step invariant state labels := by
  induction labels generalizing state with
  | nil => exact weaker _ holds
  | cons label rest ih => exact ⟨weaker _ holds.1, fun next taken => ih (holds.2 next taken)⟩

theorem Throughout.along (met : ∀ state label, property state → condition state label)
    (holds : Throughout step property state labels) : Along step condition state labels := by
  induction labels generalizing state with
  | nil => trivial
  | cons label rest ih => exact ⟨met _ _ holds.1, fun next taken => ih (holds.2 next taken)⟩

/-- A condition that every bad step breaks is met along every run that stays good. -/
theorem along_of_throughout
    (judged : ∀ state label next, property state → property next →
      step state label = some next → condition state label)
    (refused : ∀ state label, step state label = none → condition state label)
    (holds : Throughout step property state labels) :
    Along step condition state labels := by
  induction labels generalizing state with
  | nil => trivial
  | cons label rest ih =>
    refine ⟨?_, fun next taken => ih (holds.2 next taken)⟩
    cases taken : step state label with
    | none => exact refused state label taken
    | some next => exact judged state label next holds.1 (holds.2 next taken).first taken

end EnhancedXv6.Foundation
