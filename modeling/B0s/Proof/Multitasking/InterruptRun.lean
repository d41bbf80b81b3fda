import B0s.Library.Runs
import B0s.Construction.Multitasking.Interrupt

/-
This file settles in which runs every timer interrupt is acknowledged before control leaves the kernel.
-/

namespace B0s
open Runs

/-- A timer interrupt arrives, or the idle loop looks for work. -/
inductive InterruptStep where
  | timer (cur next : Nat)
  | idle (cur next : Nat)

def InterruptStep.run : InterruptStep → Processor → Option Processor
  | .timer cur next, cpu => timerInterrupt cur next cpu
  | .idle cur next, cpu => schleeeeep cur next cpu

def InterruptStep.Steps (step : InterruptStep) (cpu cpu' : Processor) : Prop := step.run cpu = some cpu'

/-- As many interrupts were accepted as were acknowledged. -/
def Balanced (trace : List Action) : Prop := trace.count .accept = trace.count .eoi

/-- At every `iretq`, each interrupt accepted so far was acknowledged once. -/
def Acknowledged (trace : List Action) : Prop :=
  ∀ before after, trace = before ++ .iretq :: after → Balanced before

/-- A switch inside a timer interrupt resumes an execution that was switched out inside one, and a switch
of the idle loop resumes one that is new or was switched out by the idle loop. -/
def InterruptStep.Matches : InterruptStep → Processor → Prop
  | .timer cur next, cpu => cur = next ∨ ∃ idling, cpu.contexts next = .handler idling
  | .idle cur next, cpu => cur = next ∨ cpu.contexts next = .firstRun ∨ cpu.contexts next = .schleeeeep

/-- The trace is acknowledged at each `iretq` and balanced at its end. -/
structure Processor.Settled (cpu : Processor) : Prop where
  acknowledged : Acknowledged cpu.trace
  balanced : Balanced cpu.trace

/-- Only an `iretq` has to be balanced. -/
theorem Acknowledged.concat {trace : List Action} (acknowledged : Acknowledged trace) {action : Action}
    (here : action = .iretq → Balanced trace) : Acknowledged (trace ++ [action]) := by
  intro before after split
  rcases List.append_eq_append_iff.mp split with ⟨middle, rfl, tail⟩ | ⟨middle, rfl, tail⟩
  · cases middle with
    | nil =>
        have same : action = .iretq := by
          have heads := congrArg List.head? tail
          simpa using heads
        simpa using here same
    | cons first middle => simp at tail
  · cases middle with
    | nil =>
        have same : action = .iretq := by
          have heads := congrArg List.head? tail
          simpa using heads.symm
        simpa using here same
    | cons first middle =>
        obtain ⟨rfl, rest⟩ := List.cons.inj tail
        exact acknowledged before middle rfl

theorem balanced_concat {trace : List Action} {action : Action} (neither : action ≠ .accept ∧ action ≠ .eoi) :
    Balanced (trace ++ [action]) ↔ Balanced trace := by
  simp [Balanced, List.count_append, neither.1, neither.2]

section
variable {cpu cpu' : Processor}

/-- A return from the handler of the last interrupt settles the trace. -/
theorem Processor.Settled.handled (settled : cpu.Settled) {idling : Bool} {contexts : Nat → Continuation}
    (runs : (Continuation.handler idling).run
      { cpu with contexts := contexts, trace := cpu.trace ++ [.accept] } = some cpu') : cpu'.Settled := by
  obtain rfl := Option.some.inj runs
  have balanced : Balanced (cpu.trace ++ [.accept] ++ [.eoi]) := by
    have before := settled.balanced
    simp only [Balanced, List.count_append] at before ⊢
    simpa using before
  have accepted : Acknowledged (cpu.trace ++ [.accept]) := settled.acknowledged.concat (by simp)
  have acknowledged : Acknowledged (cpu.trace ++ [.accept] ++ [.eoi]) := accepted.concat (by simp)
  have returned : cpu.trace ++ [.accept] ++ [.eoi, .iretq] =
      cpu.trace ++ [.accept] ++ [.eoi] ++ [Action.iretq] := by
    simp
  constructor
  · show Acknowledged (cpu.trace ++ [.accept] ++ [.eoi, .iretq])
    rw [returned]
    exact acknowledged.concat fun _ => balanced
  · show Balanced (cpu.trace ++ [.accept] ++ [.eoi, .iretq])
    rw [returned, balanced_concat (by decide)]
    exact balanced

/-- An execution that no timer interrupt suspended settles a settled trace. -/
theorem Processor.Settled.entered (settled : cpu.Settled) {rest : Continuation}
    (outside : rest = .firstRun ∨ rest = .schleeeeep) {contexts : Nat → Continuation}
    (runs : rest.run { cpu with contexts := contexts } = some cpu') : cpu'.Settled := by
  rcases outside with rfl | rfl
  · obtain rfl := Option.some.inj runs
    exact ⟨settled.acknowledged.concat fun _ => settled.balanced,
      (balanced_concat (by decide)).mpr settled.balanced⟩
  · obtain rfl := Option.some.inj runs
    exact ⟨settled.acknowledged.concat (by simp), (balanced_concat (by decide)).mpr settled.balanced⟩

/-- A step that matches settles a settled trace. -/
theorem Processor.Settled.step (settled : cpu.Settled) {step : InterruptStep} (fits : step.Matches cpu)
    (runs : step.run cpu = some cpu') : cpu'.Settled := by
  cases step with
  | timer cur next =>
      have switched : switchContext cur next (.handler cpu.idling)
          { cpu with trace := cpu.trace ++ [.accept] } = some cpu' := runs
      rw [switchContext] at switched
      split_ifs at switched with same
      · exact settled.handled switched
      · obtain ⟨idling, suspended⟩ := fits.resolve_left same
        dsimp only at switched
        rw [suspended] at switched
        exact settled.handled switched
  | idle cur next =>
      have called : schleeeeep cur next cpu = some cpu' := runs
      rw [schleeeeep] at called
      split_ifs at called with idling
      rw [switchContext] at called
      split_ifs at called with same
      · exact settled.entered (Or.inr rfl) called
      · exact settled.entered (fits.resolve_left same) called

end

/-- In every run whose switches match, every `iretq` finds each accepted timer interrupt acknowledged
once. -/
theorem interruptRun_acknowledged (steps : List InterruptStep) (cpu cpu' : Processor)
    (start : cpu.trace = []) (fits : Runs.Along InterruptStep.Steps InterruptStep.Matches steps cpu)
    (path : Path InterruptStep.Steps steps cpu cpu') : Acknowledged cpu'.trace := by
  have settled : cpu.Settled := by
    constructor
    · intro before after split
      rw [start] at split
      simp at split
    · rw [start]
      rfl
  have final : cpu'.Settled := Path.keeps (fun _ _ _ settled fits runs => settled.step fits runs) settled fits path
  exact final.acknowledged

/-- The idle loop starts a new process, and a timer interrupt that stays in it is acknowledged. -/
theorem interruptRun_acknowledged_idle :
    ∃ cpu', Path InterruptStep.Steps [.idle 0 1, .timer 1 1] ⟨fun _ => .firstRun, true, []⟩ cpu' ∧
      Acknowledged cpu'.trace := by
  have first : (InterruptStep.idle 0 1).run ⟨fun _ => .firstRun, true, []⟩ = some
      ⟨Function.update (Function.update (fun _ => .firstRun) 0 .schleeeeep) 1 .popped, false, [.iretq]⟩ := rfl
  have path : Path InterruptStep.Steps [.idle 0 1, .timer 1 1] ⟨fun _ => .firstRun, true, []⟩
      ⟨Function.update (Function.update (fun _ => .firstRun) 0 .schleeeeep) 1 .popped, false,
        [.iretq, .accept, .eoi, .iretq]⟩ := ⟨_, first, _, rfl, rfl⟩
  refine ⟨_, path, interruptRun_acknowledged _ _ _ rfl ?_ path⟩
  exact ⟨Or.inr (Or.inl rfl), fun _ _ => ⟨Or.inl rfl, fun _ _ => trivial⟩⟩

/-- A timer interrupt of the idle loop that starts a new process is not acknowledged at the `iretq`. -/
theorem interruptRun_first_run :
    ∃ cpu', Path InterruptStep.Steps [.timer 0 1] ⟨fun _ => .firstRun, true, []⟩ cpu' ∧
      ¬Acknowledged cpu'.trace := by
  refine ⟨_, ⟨_, rfl, rfl⟩, ?_⟩
  intro acknowledged
  have balanced := acknowledged [.accept] [] rfl
  cases balanced

end B0s
