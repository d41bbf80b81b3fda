import Mathlib.Logic.Basic

/-
This file is a library of fallible computations that follow each other until one of them stops.
-/

namespace Stopping

variable {E A A' B B' : Type} {stop fault : E} {R : A → B → Prop} {R' : A' → B' → Prop}

/-- Either the first computation stops, or both fail alike, or both return related values. -/
inductive Follows (stop : E) (R : A → B → Prop) : Except E A → Except E B → Prop where
  | stops (second : Except E B) : Follows stop R (.error stop) second
  | fails (fault : E) : Follows stop R (.error fault) (.error fault)
  | returns {value : A} {value' : B} (related : R value value') : Follows stop R (.ok value) (.ok value')

/-- A computation follows itself. -/
theorem Follows.refl (outcome : Except E A) : Follows stop Eq outcome outcome := by
  cases outcome with
  | error fault => exact .fails fault
  | ok value => exact .returns rfl

/-- Related continuations keep the relation of the computations. -/
theorem Follows.bind {first : Except E A} {second : Except E B} {next : A → Except E A'} {next' : B → Except E B'}
    (follows : Follows stop R first second)
    (rest : ∀ value value', R value value' → Follows stop R' (next value) (next' value')) :
    Follows stop R' (first >>= next) (second >>= next') := by
  cases follows with
  | stops second => exact .stops _
  | fails fault => exact .fails fault
  | returns related => exact rest _ _ related

/-- Both computations take the same branch. -/
theorem Follows.ite {condition : Prop} [Decidable condition] {first first' : Except E A} {second second' : Except E B}
    (holds : Follows stop R first second) (fails : Follows stop R first' second') :
    Follows stop R (if condition then first else first') (if condition then second else second') := by
  by_cases case : condition
  · rw [if_pos case, if_pos case]
    exact holds
  · rw [if_neg case, if_neg case]
    exact fails

theorem Follows.map {first : Except E A} {second : Except E B} {f : A → A'} {g : B → B'}
    (follows : Follows stop R first second) (keeps : ∀ value value', R value value' → R' (f value) (g value')) :
    Follows stop R' (first.map f) (second.map g) := by
  cases follows with
  | stops second => exact .stops _
  | fails fault => exact .fails fault
  | returns related => exact .returns (keeps _ _ related)

/-- A value of the first computation is a value of the second. -/
theorem Follows.of_ok {first : Except E A} {second : Except E B} (follows : Follows stop R first second) {value : A}
    (returned : first = .ok value) : ∃ value', second = .ok value' ∧ R value value' := by
  cases follows with
  | stops second => cases returned
  | fails fault => cases returned
  | returns related =>
      obtain rfl := Except.ok.inj returned
      exact ⟨_, rfl, related⟩

/-- A value of the second computation is a value of the first, unless the first one stops. -/
theorem Follows.of_ok_right {first : Except E A} {second : Except E B} (follows : Follows stop R first second)
    (runs : first ≠ .error stop) {value' : B} (returned : second = .ok value') :
    ∃ value, first = .ok value ∧ R value value' := by
  cases follows with
  | stops second => exact absurd rfl runs
  | fails fault => cases returned
  | returns related =>
      obtain rfl := Except.ok.inj returned
      exact ⟨_, rfl, related⟩

/-- When the first computation does not stop, the second one fails in another way or returns. -/
theorem Follows.ne_stop {first : Except E A} {second : Except E B} (follows : Follows stop R first second)
    (runs : first ≠ .error stop) : second ≠ .error stop := by
  cases follows with
  | stops second => exact absurd rfl runs
  | fails fault => exact fun same => runs (by rw [Except.error.inj same])
  | returns related => simp

/-- Two results have the same answer and related states. -/
inductive Answers {C : Type} (R : A → B → Prop) : C × A → C × B → Prop where
  | mk (answer : C) (state : A) (state' : B) (related : R state state') : Answers R (answer, state) (answer, state')

end Stopping
