import B0s.Library.PagedMemory
import B0s.Construction.Multitasking.Process

/-
This file models the machine code of `switch.asm` and `idt.asm`, and the arch part of `process.c`.
Every access of the machine goes through the tables that `cr3` selects.
-/

namespace B0s
open ByteMemory

structure Regs where
  rax : BitVec 64
  rbx : BitVec 64
  rcx : BitVec 64
  rdx : BitVec 64
  rsi : BitVec 64
  rdi : BitVec 64
  rbp : BitVec 64
  r8 : BitVec 64
  r9 : BitVec 64
  r10 : BitVec 64
  r11 : BitVec 64
  r12 : BitVec 64
  r13 : BitVec 64
  r14 : BitVec 64
  r15 : BitVec 64
  rsp : BitVec 64
  rip : BitVec 64
  cs : BitVec 64
  rflags : BitVec 64
  ss : BitVec 64
  deriving DecidableEq, Repr

/-- The machine has registers, the physical memory, the tables of every space, the stack pointer in the TSS, and `cr3`. -/
structure Machine where
  regs : Regs
  mem : Memory
  tables : BitVec 64 → Translation
  tssRsp0 : BitVec 64
  cr3 : BitVec 64

/-- A page fault in the kernel does not return. -/
def Machine.load (addr : BitVec 64) (m : Machine) : Option (BitVec 64) :=
  if Translates (m.tables m.cr3) addr.toNat 8 then some (loadWord (seen (m.tables m.cr3) m.mem) addr.toNat) else none

def Machine.put (base size : Nat) (bytes : Memory → Memory) (m : Machine) : Option Machine :=
  let tables := m.tables m.cr3
  if Translates tables base size then
    some { m with mem := putBytes tables base size (bytes (seen tables m.mem)) m.mem }
  else none

def Machine.store (addr value : BitVec 64) (m : Machine) : Option Machine :=
  m.put addr.toNat 8 fun mem => storeWord mem addr.toNat value

/-- A `memset` with zero. -/
def Machine.clear (addr : BitVec 64) (size : Nat) (m : Machine) : Option Machine :=
  m.put addr.toNat size fun mem => fill mem addr.toNat 0 size

def Machine.push (value : BitVec 64) (m : Machine) : Option Machine := do
  let rsp := m.regs.rsp - 8
  let m ← m.store rsp value
  some { m with regs := { m.regs with rsp := rsp } }

/-- The values are pushed one after the other. -/
def Machine.pushAll : List (BitVec 64) → Machine → Option Machine
  | [], m => some m
  | value :: values, m => do
      let m ← m.push value
      m.pushAll values

/-- The popped word goes to the register that `set` assigns. -/
def Machine.pop (set : BitVec 64 → Regs → Regs) (m : Machine) : Option Machine := do
  let value ← m.load m.regs.rsp
  some { m with regs := set value { m.regs with rsp := m.regs.rsp + 8 } }

def Machine.popAll : List (BitVec 64 → Regs → Regs) → Machine → Option Machine
  | [], m => some m
  | set :: sets, m => do
      let m ← m.pop set
      m.popAll sets

/-- A `ret` pops the instruction pointer. -/
def Machine.ret (m : Machine) : Option Machine := m.pop fun value regs => { regs with rip := value }

/-- The pushes of `process_switch_asm` come before the current context is set to `rsp`. -/
def Machine.pushContext (m : Machine) : Option Machine :=
  m.pushAll [m.regs.rbx, m.regs.rbp, m.regs.r15, m.regs.r14, m.regs.r13, m.regs.r12]

/-- The pops of `process_switch_asm` come after the load of the new `rsp`. -/
def Machine.popContext (m : Machine) : Option Machine := do
  let m ← m.popAll [
    fun value regs => { regs with r12 := value },
    fun value regs => { regs with r13 := value },
    fun value regs => { regs with r14 := value },
    fun value regs => { regs with r15 := value },
    fun value regs => { regs with rbp := value },
    fun value regs => { regs with rbx := value }]
  m.ret

def processSwitchAsm (cur next : BitVec 64) (m : Machine) : Option Machine := do
  let m ← m.pushContext
  let m ← m.store cur m.regs.rsp
  Machine.popContext { m with regs := { m.regs with rsp := next } }

/-- The linker places these instructions. The call in `process_switch` returns to `switchReturn`. -/
structure KernelText where
  trapRet : BitVec 64
  processFirstRun : BitVec 64
  switchReturn : BitVec 64

/-- These fields of `struct process` are read under the tables of the process that runs. The field `context` is a word of
memory, as it is read and written under the tables of the next one. -/
structure Task where
  kstack : BitVec 64
  tf : BitVec 64
  space : BitVec 64
  deriving DecidableEq, Repr

/-- The address of the field `context`. -/
def contextField (proc : Nat) : BitVec 64 := BitVec.ofNat 64 (ProcessRecord.context proc)

def sizeofTrapFrame : Nat := 176

def sizeofContext : Nat := 56

def gdtUserCodeIndex : Nat := 3

def gdtUserDataIndex : Nat := 4

def dplUser : Nat := 3

section
variable (text : KernelText)

def processArchInit (proc : Nat) (uentry ustack : BitVec 64) (task : Task) (m : Machine) :
    Option (Task × Machine) := do
  let sp := task.kstack + BitVec.ofNat 64 processKernelStackSize
  let sp := sp - BitVec.ofNat 64 sizeofTrapFrame
  let tf := sp
  let m ← m.clear tf sizeofTrapFrame
  let m ← m.store (tf + 160) ustack
  let m ← m.store (tf + 168) (BitVec.ofNat 64 (gdtUserDataIndex * 8 ||| dplUser))
  let m ← m.store (tf + 144) (BitVec.ofNat 64 (gdtUserCodeIndex * 8 ||| dplUser))
  let m ← m.store (tf + 152) 0x202
  let m ← m.store (tf + 136) uentry
  let sp := sp - 8
  let m ← m.store sp text.trapRet
  let sp := sp - BitVec.ofNat 64 sizeofContext
  let m ← m.store (contextField proc) sp
  let m ← m.clear sp sizeofContext
  let m ← m.store (sp + 48) text.processFirstRun
  some ({ task with tf := tf }, m)

/-- The tasks share one machine, and the ghost field names the one whose execution is on it. A task is named by the
address of its record. -/
structure Tasks where
  tasks : Nat → Task
  machine : Machine
  executing : Nat

/-- The TSS gets the stack of the next process, and `mmu_switch_space` loads its tables. -/
def Tasks.enterSpace (next : Nat) (state : Tasks) : Machine :=
  { state.machine with
    tssRsp0 := (state.tasks next).kstack + BitVec.ofNat 64 processKernelStackSize - 1
    cr3 := (state.tasks next).space }

/-- The tables of the next process are loaded before `next->context` is read, and before the call of
`process_switch_asm` pushes its return address. -/
def Tasks.processSwitch (cur next : Nat) (state : Tasks) : Option Tasks :=
  if cur = next then some state
  else do
    let m := state.enterSpace next
    let context ← m.load (contextField next)
    let m ← m.push text.switchReturn
    let m ← processSwitchAsm (contextField cur) context m
    some { state with machine := m, executing := next }

end

/-- The body of `process_first_run` only returns. -/
def processFirstRun (m : Machine) : Option Machine := m.ret

/-- An `iretq` loads the five words on top of the stack. -/
def Machine.iretq (m : Machine) : Option Machine := do
  let rip ← m.load m.regs.rsp
  let cs ← m.load (m.regs.rsp + 8)
  let rflags ← m.load (m.regs.rsp + 16)
  let rsp ← m.load (m.regs.rsp + 24)
  let ss ← m.load (m.regs.rsp + 32)
  some { m with regs := { m.regs with rip := rip, cs := cs, rflags := rflags, rsp := rsp, ss := ss } }

def trapRet (m : Machine) : Option Machine := do
  let m ← m.popAll [
    fun value regs => { regs with r15 := value },
    fun value regs => { regs with r14 := value },
    fun value regs => { regs with r13 := value },
    fun value regs => { regs with r12 := value },
    fun value regs => { regs with r11 := value },
    fun value regs => { regs with r10 := value },
    fun value regs => { regs with r9 := value },
    fun value regs => { regs with r8 := value },
    fun value regs => { regs with rbp := value },
    fun value regs => { regs with rdi := value },
    fun value regs => { regs with rsi := value },
    fun value regs => { regs with rdx := value },
    fun value regs => { regs with rcx := value },
    fun value regs => { regs with rbx := value },
    fun value regs => { regs with rax := value }]
  Machine.iretq { m with regs := { m.regs with rsp := m.regs.rsp + 16 } }

/-- These vectors have the stub `INTERRUPT_WITH_ERROR`. -/
def stubWithError (vector : Nat) : Bool := vector ∈ [8, 10, 11, 12, 13, 14, 17, 30]

/-- The processor takes an interrupt from user mode on the stack of the TSS, aligned down to 16 bytes.
It pushes an error code for the vectors that `pushesError` names. -/
def interruptUser (pushesError : Nat → Bool) (error : BitVec 64) (vector : Nat) (m : Machine) : Option Machine :=
  let user := m.regs
  let m := { m with regs := { m.regs with rsp := m.tssRsp0 &&& 0xfffffffffffffff0 } }
  m.pushAll ([user.ss, user.rsp, user.rflags, user.cs, user.rip] ++ if pushesError vector then [error] else [])

/-- The stub of a vector pushes the words that the processor has not pushed. -/
def interruptStub (vector : Nat) (m : Machine) : Option Machine :=
  m.pushAll ((if stubWithError vector then [] else [0]) ++ [BitVec.ofNat 64 vector])

/-- The pushes of `_general_handler_asm` end with `rdi` at the frame. -/
def generalHandlerAsm (m : Machine) : Option Machine := do
  let m ← m.pushAll [m.regs.rax, m.regs.rbx, m.regs.rcx, m.regs.rdx, m.regs.rsi, m.regs.rdi, m.regs.rbp, m.regs.r8,
    m.regs.r9, m.regs.r10, m.regs.r11, m.regs.r12, m.regs.r13, m.regs.r14, m.regs.r15]
  some { m with regs := { m.regs with rdi := m.regs.rsp } }

end B0s
