import Mathlib.Logic.Basic

/-
This file is a library of runs, which are lists of calls that step between states.
-/

namespace Runs

variable {S C : Type*}

/-- A property holds before each call of a run, whatever the earlier calls ended in. -/
def Along (step : C → S → S → Prop) (property : C → S → Prop) : List C → S → Prop
  | [], _ => True
  | call :: calls, state => property call state ∧
      ∀ state', step call state state' → Along step property calls state'

/-- A call with one result is followed by the rest of the run from this result. -/
theorem along_cons {step : C → S → S → Prop} {property : C → S → Prop} {call : C} {calls : List C} {state next : S}
    (result : ∀ state', step call state state' ↔ next = state') :
    Along step property (call :: calls) state ↔ property call state ∧ Along step property calls next := by
  rw [Along]
  exact and_congr_right fun _ =>
    ⟨fun all => all next ((result next).mpr rfl), fun rest state' steps => (result state').mp steps ▸ rest⟩

theorem along_of_forall {step : C → S → S → Prop} {property : C → S → Prop} (holds : ∀ call state, property call state)
    (calls : List C) (state : S) : Along step property calls state := by
  induction calls generalizing state with
  | nil => trivial
  | cons call calls ih => exact ⟨holds call state, fun state' _ => ih state'⟩

/-- A run keeps an invariant that each of its calls keeps. -/
theorem Along.of_invariant {step : C → S → S → Prop} {invariant : S → Prop}
    {condition property : C → S → Prop}
    (gives : ∀ call state, invariant state → condition call state → property call state)
    (keeps : ∀ call state state', invariant state → condition call state →
      step call state state' → invariant state')
    {calls : List C} {state : S} (start : invariant state)
    (along : Along step condition calls state) : Along step property calls state := by
  induction calls generalizing state with
  | nil => trivial
  | cons call calls ih =>
      refine ⟨gives call state start along.1, ?_⟩
      intro state' steps
      exact ih (keeps call state state' start along.1 steps) (along.2 state' steps)

/-- Two properties that agree on the states of an invariant hold along the same runs. -/
theorem along_congr {step : C → S → S → Prop} {invariant : S → Prop}
    {valid first second : C → S → Prop}
    (agree : ∀ call state, invariant state → valid call state → (first call state ↔ second call state))
    (keeps : ∀ call state state', invariant state → valid call state →
      step call state state' → invariant state')
    {calls : List C} {state : S} (start : invariant state)
    (along : Along step valid calls state) :
    Along step first calls state ↔ Along step second calls state := by
  induction calls generalizing state with
  | nil => exact Iff.rfl
  | cons call calls ih =>
      have here := agree call state start along.1
      have later : ∀ state', step call state state' →
          (Along step first calls state' ↔ Along step second calls state') := fun state' steps =>
        ih (keeps call state state' start along.1 steps) (along.2 state' steps)
      constructor
      · rintro ⟨now, rest⟩
        exact ⟨here.mp now, fun state' steps => (later state' steps).mp (rest state' steps)⟩
      · rintro ⟨now, rest⟩
        exact ⟨here.mpr now, fun state' steps => (later state' steps).mpr (rest state' steps)⟩

/-- A list of calls leads from one state to another. -/
def Path (step : C → S → S → Prop) : List C → S → S → Prop
  | [], state, final => state = final
  | call :: calls, state, final => ∃ state', step call state state' ∧ Path step calls state' final

/-- A property of a sequence of two runs holds along both. -/
theorem along_append {step : C → S → S → Prop} {property : C → S → Prop} {calls rest : List C} {state : S} :
    Along step property (calls ++ rest) state ↔ Along step property calls state ∧
      ∀ final, Path step calls state final → Along step property rest final := by
  induction calls generalizing state with
  | nil => simp [Along, Path]
  | cons call calls ih =>
      simp only [List.cons_append, Along, Path, ih]
      constructor
      · rintro ⟨here, later⟩
        refine ⟨⟨here, fun state' steps => (later state' steps).1⟩, ?_⟩
        rintro final ⟨state', steps, path⟩
        exact (later state' steps).2 final path
      · rintro ⟨⟨here, first⟩, second⟩
        exact ⟨here, fun state' steps =>
          ⟨first state' steps, fun final path => second final ⟨state', steps, path⟩⟩⟩

/-- A relation to the start that each call keeps holds at the end of a path. -/
theorem Path.keeps {step : C → S → S → Prop} {valid : C → S → Prop} {kept : S → Prop}
    (keeps : ∀ call state state', kept state → valid call state → step call state state' → kept state')
    {calls : List C} {state final : S} (start : kept state) (along : Along step valid calls state)
    (path : Path step calls state final) : kept final := by
  induction calls generalizing state with
  | nil => exact path ▸ start
  | cons call calls ih =>
      obtain ⟨state', steps, rest⟩ := path
      exact ih (keeps call state state' start along.1 steps) (along.2 state' steps) rest

end Runs
