import B0s.Construction.Machine

/-
This file models the process records, the signals of `signal.c`, and `process_switch`.
-/

namespace B0s

/-- The state of a record is an enumerator or a bit pattern that is none. -/
inductive ProcessState where
  | running
  | ready
  | stopped
  | zombie
  | other (code : Nat)
  deriving DecidableEq, Repr

def processNsig : Nat := 64

def processKernelStackSize : Nat := 16384

/-- The signal handlers are entered through these registers of the trap frame. -/
structure TrapFrame where
  rip : Nat
  rdi : Nat
  deriving DecidableEq, Repr

namespace ProcessRecord

/-! The addresses of the fields of `struct process`. -/

def pid (proc : Nat) : Nat := proc

def name (proc : Nat) : Nat := proc + 2

def state (proc : Nat) : Nat := proc + 68

def space (proc : Nat) : Nat := proc + 72

def schedList (proc : Nat) : Nat := proc + 80

def siblingsList (proc : Nat) : Nat := proc + 96

def parent (proc : Nat) : Nat := proc + 112

def child (proc : Nat) : Nat := proc + 120

/-- The 256 descriptors of `fds` lie in front of the bitmap. -/
def fdbitmap (proc : Nat) : Nat := proc + 4224

def maskedSignals (proc : Nat) : Nat := proc + 4280

def pendingSignals (proc : Nat) : Nat := proc + 4288

def signalsHandlers (proc : Nat) : Nat := proc + 4296

def kstack (proc : Nat) : Nat := proc + 4808

/-- The field `saved_tf` lies between `tf` and `context`. -/
def tf (proc : Nat) : Nat := proc + 4816

def context (proc : Nat) : Nat := proc + 5000

end ProcessRecord

/-- A process record keeps the fields that scheduling and signals read. -/
structure Process where
  state : ProcessState
  space : Nat
  maskedSignals : Nat
  pendingSignals : Nat
  signalsHandlers : Nat → Nat
  kstack : Nat
  tf : TrapFrame
  savedTf : TrapFrame
  context : Nat

def sigkill : Nat := 0

def sigstop : Nat := 2

def sigcont : Nat := 3

section
variable (undefined : Nat → Nat)

/-- This is the `SIGNAL_IS_SET` macro. -/
def signalIsSet (signals signum : Nat) : Prop := signals &&& intShift undefined signum ≠ 0

instance (signals signum : Nat) : Decidable (signalIsSet undefined signals signum) :=
  inferInstanceAs (Decidable (_ ≠ _))

/-- This is the `SIGNAL_SET` macro. -/
def signalSet (signals signum : Nat) : Nat := signals ||| intShift undefined signum

/-- This is the `SIGNAL_UNSET` macro. -/
def signalUnset (signals signum : Nat) : Nat := signals &&& notU64 (intShift undefined signum)

/-- An invalid signal number is refused and changes nothing. -/
def signalSend (signum : Nat) (proc : Process) : Process :=
  if signum ≥ processNsig then proc
  else if signalIsSet undefined proc.maskedSignals signum then proc
  else { proc with pendingSignals := signalSet undefined proc.pendingSignals signum }

/-- The search loop of `signal_deliver` ends at the first pending signal or at the limit. -/
def signalDeliverSearch (pending : Nat) : Nat → Nat → Nat
  | 0, signum => signum
  | count + 1, signum =>
      if signalIsSet undefined pending signum then signum
      else signalDeliverSearch pending count (signum + 1)

def signalDeliver (proc : Process) : Process :=
  if proc.pendingSignals = 0 then proc
  else
    let signum := signalDeliverSearch undefined proc.pendingSignals processNsig 0
    let proc := { proc with pendingSignals := signalUnset undefined proc.pendingSignals signum }
    let handler := proc.signalsHandlers signum
    if handler = NULL ∨ signum = sigkill then
      if signum = sigstop then { proc with state := .stopped }
      else if signum = sigcont then
        if proc.state = .stopped then { proc with state := .ready } else proc
      else proc
    else { proc with savedTf := proc.tf, tf := { rip := handler, rdi := signum } }

end

/-- The processor holds a stack pointer, the stack for interrupts, and an address space. The ghost
field `executing` names the process whose execution is on the processor. -/
structure Cpu where
  rsp : Nat
  tssRsp0 : Nat
  space : Nat
  executing : Nat
  deriving DecidableEq, Repr

/-- Six callee-saved registers lie on a suspended stack below the return address. -/
def savedRegisters : Nat := 48

/-- The switch pushes six registers, stores the stack pointer in `cur`, and returns on the stack of
`next` after it has popped the registers saved there. -/
def processSwitch (cur next : Nat) (procs : Nat → Process) (cpu : Cpu) : (Nat → Process) × Cpu :=
  if cur = next then (procs, cpu)
  else
    (Function.update procs cur { procs cur with context := subU64 cpu.rsp savedRegisters },
      { rsp := u64 ((procs next).context + savedRegisters + 8)
        tssRsp0 := subU64 (u64 ((procs next).kstack + processKernelStackSize)) 1
        space := (procs next).space
        executing := next })

end B0s
