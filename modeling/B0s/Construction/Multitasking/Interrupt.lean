import B0s.Construction.Machine

/-
This file models the control flow of `interrupt_handler`, `trap_ret`, and the idle loop across
`process_switch`, as far as it acknowledges timer interrupts.
-/

namespace B0s

/-- These actions of the processor are visible to the local APIC or leave the kernel. -/
inductive Action where
  | accept
  | eoi
  | iretq
  | halt
  deriving DecidableEq, Repr

/-- A saved context continues in `process_first_run`, behind `sched_switch` in `interrupt_handler`, or
behind `sched_switch` in `schleeeeep`. A context that was popped is overwritten until it is saved again.
The handler interrupted the idle loop or a user program. -/
inductive Continuation where
  | firstRun
  | handler (idling : Bool)
  | schleeeeep
  | popped
  deriving DecidableEq, Repr

/-- Each process has a context, the processor runs the idle loop or a user program, and its actions
are recorded in order. -/
structure Processor where
  contexts : Nat → Continuation
  idling : Bool
  trace : List Action

/-- The execution continues up to the `iretq` or the `hlt` that ends its kernel code. A return from
`interrupt_handler` acknowledges the interrupt first. -/
def Continuation.run : Continuation → Processor → Option Processor
  | .firstRun, cpu => some { cpu with idling := false, trace := cpu.trace ++ [.iretq] }
  | .handler idling, cpu => some { cpu with idling := idling, trace := cpu.trace ++ [.eoi, .iretq] }
  | .schleeeeep, cpu => some { cpu with idling := true, trace := cpu.trace ++ [.halt] }
  | .popped, _ => none

/-- The execution with this continuation calls `process_switch` from `sched_switch`. -/
def switchContext (cur next : Nat) (rest : Continuation) (cpu : Processor) : Option Processor :=
  if cur = next then rest.run cpu
  else
    let contexts := Function.update cpu.contexts cur rest
    (cpu.contexts next).run { cpu with contexts := Function.update contexts next .popped }

/-- A timer interrupt is accepted, and `interrupt_handler` calls `sched_switch`. -/
def timerInterrupt (cur next : Nat) (cpu : Processor) : Option Processor :=
  switchContext cur next (.handler cpu.idling) { cpu with trace := cpu.trace ++ [.accept] }

/-- The idle loop calls `sched_switch`. -/
def schleeeeep (cur next : Nat) (cpu : Processor) : Option Processor :=
  if cpu.idling then switchContext cur next .schleeeeep cpu else none

end B0s
