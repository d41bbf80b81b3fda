import B0s.Library.Runs
import B0s.Proof.Multitasking.MachineAccess

/-
This file proves when a process resumes with the registers and the stack that it was suspended with, and when a new
process reaches user mode with the frame that was built for it.
-/

namespace B0s
open ByteMemory Runs

/-- The words of a context, from its lowest address on. -/
def Regs.context (regs : Regs) (rip : BitVec 64) : List (BitVec 64) :=
  [regs.r12, regs.r13, regs.r14, regs.r15, regs.rbp, regs.rbx, rip]

section
variable {m : Machine} {place : Nat → Nat} {area whole : Nat → Prop} {shown : Memory}

/-- The call of `process_switch_asm` and its pushes leave the context on the stack. -/
theorem Machine.Reaches.pushContext (reaches : m.Reaches place area whole shown)
    (small : ∀ addr, whole addr → addr < 2 ^ 64) (ret : BitVec 64) (room : 56 ≤ m.regs.rsp.toNat)
    (inside : ∀ addr, m.regs.rsp.toNat - 56 ≤ addr → addr < m.regs.rsp.toNat → area addr) :
    ∃ mem', (m.push ret >>= Machine.pushContext) =
        some { m with mem := mem', regs := { m.regs with rsp := m.regs.rsp - 56 } } ∧
      Machine.Reaches { m with mem := mem', regs := { m.regs with rsp := m.regs.rsp - 56 } } place area whole
        (pushWords shown m.regs.rsp.toNat (m.regs.context ret).reverse) := by
  have words : (m.regs.context ret).reverse =
      [ret, m.regs.rbx, m.regs.rbp, m.regs.r15, m.regs.r14, m.regs.r13, m.regs.r12] := rfl
  have count : BitVec.ofNat 64 (8 * 7) = 56 := rfl
  obtain ⟨pushed, called, -⟩ := reaches.push small ret (by omega) fun addr low high => inside addr (by omega) high
  obtain ⟨mem', done, result⟩ := @Machine.Reaches.pushAll m place area whole shown reaches small
    [ret, m.regs.rbx, m.regs.rbp, m.regs.r15, m.regs.r14, m.regs.r13, m.regs.r12]
    (by simpa using room) (by simpa using inside)
  simp only [List.length_cons, List.length_nil, Nat.zero_add, Nat.reduceAdd, count] at done result
  rw [words]
  refine ⟨mem', ?_, result⟩
  rw [← done, Machine.pushAll, called]
  simp only [bind, Option.bind, Machine.pushContext]

/-- The pops load the words of a context and return. -/
theorem Machine.Reaches.popContext (reaches : m.Reaches place area whole shown) {regs : Regs} {rip : BitVec 64}
    (room : m.regs.rsp.toNat + 56 ≤ 2 ^ 64)
    (inside : ∀ addr, m.regs.rsp.toNat ≤ addr → addr < m.regs.rsp.toNat + 56 → area addr)
    (saved : OnStack shown m.regs.rsp.toNat (regs.context rip)) :
    m.popContext = some { m with regs := { m.regs with
      r12 := regs.r12, r13 := regs.r13, r14 := regs.r14, r15 := regs.r15, rbp := regs.rbp,
      rbx := regs.rbx, rip := rip, rsp := m.regs.rsp + 56 } } := by
  obtain ⟨r12, r13, r14, r15, rbp, rbx, ret, -⟩ := saved
  have sum : m.regs.rsp + 8 + 8 + 8 + 8 + 8 + 8 + 8 = m.regs.rsp + 56 := by bv_omega
  have popped := @Machine.Reaches.popAll m place area whole shown reaches [
    fun value regs => { regs with r12 := value }, fun value regs => { regs with r13 := value },
    fun value regs => { regs with r14 := value }, fun value regs => { regs with r15 := value },
    fun value regs => { regs with rbp := value }, fun value regs => { regs with rbx := value },
    fun value regs => { regs with rip := value }] (by simp) (by simpa using room) (by simpa using inside)
  simp only [loadAll, r12, r13, r14, r15, rbp, rbx, ret, sum] at popped
  rw [← popped, Machine.popContext]
  simp only [Machine.ret, Machine.popAll, bind, Option.bind_assoc, Option.bind_fun_some]

end

/-- The stack of a new process returns to `process_first_run`, then to `trap_ret`, and then to user
mode. -/
structure Prepared (text : KernelText) (uentry ustack : BitVec 64) (proc : Nat) (task : Task) (shown : Memory) :
    Prop where
  kernel : OnStack shown (task.kstack.toNat + 16192) [text.processFirstRun, text.trapRet]
  user : OnStack shown (task.kstack.toNat + 16344) [uentry, 27, 0x202, ustack, 35]
  context : loadWord shown (ProcessRecord.context proc) = task.kstack + 16144
  tf : task.tf = task.kstack + 16208

/-- The bytes that `process_arch_init` writes to the kernel stack and to the field `context`. -/
def archInitBytes (text : KernelText) (uentry ustack : BitVec 64) (base field : Nat) (shown : Memory) : Memory :=
  let shown := fill shown (base + 16208) 0 sizeofTrapFrame
  let shown := storeWord shown (base + 16368) ustack
  let shown := storeWord shown (base + 16376) 35
  let shown := storeWord shown (base + 16352) 27
  let shown := storeWord shown (base + 16360) 0x202
  let shown := storeWord shown (base + 16344) uentry
  let shown := storeWord shown (base + 16200) text.trapRet
  let shown := storeWord shown field (BitVec.ofNat 64 (base + 16144))
  let shown := fill shown (base + 16144) 0 sizeofContext
  storeWord shown (base + 16192) text.processFirstRun

section
variable {text : KernelText} {uentry ustack : BitVec 64} {task : Task} {shown : Memory} {proc base field : Nat}

/-- The addresses inside a kernel stack do not wrap. -/
theorem kstack_add {kstack : BitVec 64} {n : Nat} (room : kstack.toNat + 16384 ≤ 2 ^ 64) (small : n < 16384) :
    (kstack + BitVec.ofNat 64 n).toNat = kstack.toNat + n := by
  bv_omega

/-- The stores of `process_arch_init` reach the stack and the record. -/
theorem Machine.Reaches.archInit {m : Machine} {place : Nat → Nat} {area whole : Nat → Prop}
    (reaches : m.Reaches place area whole shown) (small : ∀ addr, whole addr → addr < 2 ^ 64)
    (room : task.kstack.toNat + 16384 ≤ 2 ^ 64) (fits : ProcessRecord.context proc + 8 ≤ 2 ^ 64)
    (stack : ∀ addr, task.kstack.toNat ≤ addr → addr < task.kstack.toNat + 16384 → area addr)
    (record : ∀ addr, ProcessRecord.context proc ≤ addr → addr < ProcessRecord.context proc + 8 → area addr) :
    ∃ mem', processArchInit text proc uentry ustack task m =
        some ({ task with tf := task.kstack + 16208 }, { m with mem := mem' }) ∧
      Machine.Reaches { m with mem := mem' } place area whole
        (archInitBytes text uentry ustack task.kstack.toNat (ProcessRecord.context proc) shown) := by
  have tf : task.kstack + BitVec.ofNat 64 processKernelStackSize - BitVec.ofNat 64 sizeofTrapFrame =
      task.kstack + 16208 := by
    unfold processKernelStackSize sizeofTrapFrame
    bv_omega
  have slot : task.kstack + 16208 - 8 = task.kstack + 16200 := by bv_omega
  have context : task.kstack + 16200 - BitVec.ofNat 64 sizeofContext = task.kstack + 16144 := by
    unfold sizeofContext
    bv_omega
  have named : BitVec.ofNat 64 (task.kstack.toNat + 16144) = task.kstack + 16144 := by bv_omega
  have data : BitVec.ofNat 64 (gdtUserDataIndex * 8 ||| dplUser) = 35 := by decide
  have code : BitVec.ofNat 64 (gdtUserCodeIndex * 8 ||| dplUser) = 27 := by decide
  have at160 : (task.kstack + 16208 + 160).toNat = task.kstack.toNat + 16368 := by bv_omega
  have at168 : (task.kstack + 16208 + 168).toNat = task.kstack.toNat + 16376 := by bv_omega
  have at144 : (task.kstack + 16208 + 144).toNat = task.kstack.toNat + 16352 := by bv_omega
  have at152 : (task.kstack + 16208 + 152).toNat = task.kstack.toNat + 16360 := by bv_omega
  have at136 : (task.kstack + 16208 + 136).toNat = task.kstack.toNat + 16344 := by bv_omega
  have at48 : (task.kstack + 16144 + 48).toNat = task.kstack.toNat + 16192 := by bv_omega
  have frameAt : (task.kstack + 16208).toNat = task.kstack.toNat + 16208 := kstack_add room (by decide)
  have slotAt : (task.kstack + 16200).toNat = task.kstack.toNat + 16200 := kstack_add room (by decide)
  have contextAt : (task.kstack + 16144).toNat = task.kstack.toNat + 16144 := kstack_add room (by decide)
  have fieldAt : (contextField proc).toNat = ProcessRecord.context proc := by
    unfold contextField
    rw [BitVec.toNat_ofNat, Nat.mod_eq_of_lt (by omega)]
  have frame : sizeofTrapFrame = 176 := rfl
  have saved : sizeofContext = 56 := rfl
  have inside : ∀ {low size : Nat}, low + size ≤ 16384 → ∀ addr, task.kstack.toNat + low ≤ addr →
      addr < task.kstack.toNat + low + size → area addr := fun bound addr lower upper => stack addr (by omega) (by omega)
  obtain ⟨mem1, done1, reaches⟩ := reaches.clear small sizeofTrapFrame frameAt (by omega) (inside (by omega))
  obtain ⟨mem2, done2, reaches⟩ := reaches.store small ustack at160 (by omega) (inside (by omega))
  obtain ⟨mem3, done3, reaches⟩ := reaches.store small 35 at168 (by omega) (inside (by omega))
  obtain ⟨mem4, done4, reaches⟩ := reaches.store small 27 at144 (by omega) (inside (by omega))
  obtain ⟨mem5, done5, reaches⟩ := reaches.store small 0x202 at152 (by omega) (inside (by omega))
  obtain ⟨mem6, done6, reaches⟩ := reaches.store small uentry at136 (by omega) (inside (by omega))
  obtain ⟨mem7, done7, reaches⟩ := reaches.store small text.trapRet slotAt (by omega) (inside (by omega))
  obtain ⟨mem8, done8, reaches⟩ := reaches.store small (task.kstack + 16144) fieldAt fits record
  obtain ⟨mem9, done9, reaches⟩ := reaches.clear small sizeofContext contextAt (by omega) (inside (by omega))
  obtain ⟨mem', done, reaches⟩ := reaches.store small text.processFirstRun at48 (by omega) (inside (by omega))
  refine ⟨mem', ?_, ?_⟩
  · simp only [processArchInit, tf, slot, context, data, code, done1, done2, done3, done4, done5, done6, done7, done8,
      done9, done, bind, Option.bind]
  · rw [archInitBytes, named]
    exact reaches

theorem archInitBytes_prepared (room : task.kstack.toNat + 16384 ≤ 2 ^ 64)
    (fits : ProcessRecord.context proc + 8 ≤ 2 ^ 64)
    (apart : task.kstack.toNat + 16384 ≤ ProcessRecord.context proc ∨ ProcessRecord.context proc + 8 ≤ task.kstack.toNat) :
    Prepared text uentry ustack proc { task with tf := task.kstack + 16208 }
      (archInitBytes text uentry ustack task.kstack.toNat (ProcessRecord.context proc) shown) := by
  have named : BitVec.ofNat 64 (task.kstack.toNat + 16144) = task.kstack + 16144 := by bv_omega
  unfold archInitBytes sizeofTrapFrame sizeofContext
  rw [named]
  refine ⟨⟨?_, ?_, trivial⟩, ⟨?_, ?_, ?_, ?_, ?_, trivial⟩, ?_, rfl⟩
  all_goals
    dsimp only
    generalize task.kstack.toNat = base at room apart ⊢
    generalize ProcessRecord.context proc = field at fits apart ⊢
    simp (disch := omega) only [Nat.add_assoc, Nat.reduceAdd, loadWord_storeWord, loadWord_storeWord_apart,
      loadWord_fill_apart]

theorem archInitBytes_frame (room : base + 16384 ≤ 2 ^ 64) (fits : field + 8 ≤ 2 ^ 64) {addr : Nat}
    (small : addr < 2 ^ 64) (stack : addr < base ∨ base + 16384 ≤ addr) (record : addr < field ∨ field + 8 ≤ addr) :
    archInitBytes text uentry ustack base field shown addr = shown addr := by
  unfold archInitBytes sizeofTrapFrame sizeofContext
  simp (disch := omega) only [storeWord_outside, fill_outside]

end

/-- The executing process works, sets up another process, or switches to one. -/
inductive TaskStep where
  | work (machine : Machine)
  | init (proc : Nat) (uentry ustack : BitVec 64)
  | switch (next : Nat)

def TaskStep.run (text : KernelText) : TaskStep → Tasks → Option Tasks
  | .work machine, state => some { state with machine := machine }
  | .init proc uentry ustack, state => do
      let (task, machine) ← processArchInit text proc uentry ustack (state.tasks proc) state.machine
      some { state with tasks := Function.update state.tasks proc task, machine := machine }
  | .switch next, state => state.processSwitch text state.executing next

/-- A step that returns leads to its result. -/
def TaskStep.Steps (text : KernelText) (step : TaskStep) (state state' : Tasks) : Prop :=
  step.run text state = some state'

/-- A kernel stack and the field `context` of a record. -/
def StackArea (low high proc addr : Nat) : Prop :=
  low ≤ addr ∧ addr < high ∨ ProcessRecord.context proc ≤ addr ∧ addr < ProcessRecord.context proc + 8

/-- The kernel stacks of the processes and their records are pairwise disjoint ranges of the kernel space, which maps
each byte of them to a place of its own. -/
structure KernelStacks where
  procs : Nat → Prop
  low : Nat → Nat
  high : Nat → Nat
  place : Nat → Nat
  bounded : ∀ proc, procs proc → high proc ≤ 2 ^ 64 ∧ ProcessRecord.context proc + 8 ≤ 2 ^ 64
  apart : ∀ proc, procs proc → high proc ≤ ProcessRecord.context proc ∨ ProcessRecord.context proc + 8 ≤ low proc
  disjoint : ∀ proc other, procs proc → procs other → proc ≠ other → ∀ addr,
    StackArea (low proc) (high proc) proc addr → ¬StackArea (low other) (high other) other addr
  placed : PlacedApart place fun addr => ∃ proc, procs proc ∧ StackArea (low proc) (high proc) proc addr

section
variable (kstacks : KernelStacks)

/-- The address belongs to the kernel stack of the process, or to the field `context` of its record. -/
def KernelStacks.Owns (proc addr : Nat) : Prop :=
  kstacks.procs proc ∧ StackArea (kstacks.low proc) (kstacks.high proc) proc addr

def KernelStacks.Whole (addr : Nat) : Prop := ∃ proc, kstacks.Owns proc addr

/-- The bytes that the kernel space shows. -/
def KernelStacks.shown (state : Tasks) : Memory := fun addr => state.machine.mem (kstacks.place addr)

/-- The executing process writes to no other kernel stack, sets up only other processes on a stack
from `process_create`, and switches with room for a context on its own stack. -/
def TaskStep.Valid : TaskStep → Tasks → Prop
  | .work machine, state => ∀ other, other ≠ state.executing → ∀ addr, kstacks.Owns other addr →
      machine.mem (kstacks.place addr) = state.machine.mem (kstacks.place addr)
  | .init proc _ _, state => kstacks.procs proc ∧ proc ≠ state.executing ∧
      (state.tasks proc).kstack.toNat = kstacks.low proc ∧
      kstacks.low proc + processKernelStackSize = kstacks.high proc
  | .switch next, state => kstacks.procs state.executing ∧ kstacks.procs next ∧ (next ≠ state.executing →
      kstacks.low state.executing + sizeofContext ≤ state.machine.regs.rsp.toNat ∧
      state.machine.regs.rsp.toNat ≤ kstacks.high state.executing)

/-- The tables that are loaded for a step map the stacks and records that it touches as the kernel space does: for a
switch these are the tables of the next process, and the stacks and records of both. -/
def TaskStep.Maps : TaskStep → Tasks → Prop
  | .work _, _ => True
  | .init proc _ _, state => Places (state.machine.tables state.machine.cr3) kstacks.place (kstacks.Owns proc)
  | .switch next, state => next ≠ state.executing →
      Places (state.machine.tables (state.tasks next).space) kstacks.place fun addr =>
        kstacks.Owns state.executing addr ∨ kstacks.Owns next addr

end

/-- The step neither resumes the process nor sets it up. -/
def TaskStep.Spares (proc : Nat) : TaskStep → Prop
  | .work _ => True
  | .init other _ _ => other ≠ proc
  | .switch next => next ≠ proc

section
variable {text : KernelText} {kstacks : KernelStacks} {state state' : Tasks}

theorem KernelStacks.small {addr : Nat} (whole : kstacks.Whole addr) : addr < 2 ^ 64 := by
  obtain ⟨proc, listed, area⟩ := whole
  obtain ⟨stack, record⟩ := kstacks.bounded proc listed
  unfold StackArea at area
  omega

theorem KernelStacks.owns_apart {proc other addr : Nat} (different : proc ≠ other) (owned : kstacks.Owns proc addr) :
    ¬kstacks.Owns other addr := fun owned' =>
  kstacks.disjoint proc other owned.1 owned'.1 different addr owned.2 owned'.2

/-- Tables that map an area as the kernel space does give access to the shown bytes. -/
theorem KernelStacks.reaches {m : Machine} {area : Nat → Prop} (places : Places (m.tables m.cr3) kstacks.place area)
    (part : ∀ addr, area addr → kstacks.Whole addr) :
    m.Reaches kstacks.place area kstacks.Whole fun addr => m.mem (kstacks.place addr) :=
  ⟨places, part, kstacks.placed, fun _ _ => rfl⟩

/-- The bytes that a switch leaves, with the context of the executing process on its stack and its place in the record. -/
def KernelStacks.switched (kstacks : KernelStacks) (text : KernelText) (state : Tasks) : Memory :=
  storeWord (pushWords (kstacks.shown state) state.machine.regs.rsp.toNat
    (state.machine.regs.context text.switchReturn).reverse) (ProcessRecord.context state.executing)
    (state.machine.regs.rsp - 56)

/-- A switch pushes the context of the executing process, stores its place in the record, and pops the context of the
next one. -/
theorem processSwitch_spec {next : Nat} (different : next ≠ state.executing)
    (valid : (TaskStep.switch next).Valid kstacks state) (maps : (TaskStep.switch next).Maps kstacks state) :
    ∃ mem', state.processSwitch text state.executing next =
        (Machine.popContext { state.enterSpace next with
          mem := mem'
          regs := { state.machine.regs with
            rsp := loadWord (kstacks.shown state) (ProcessRecord.context next) } }).map
          (fun machine => { state with machine := machine, executing := next }) ∧
      Machine.Reaches { state.enterSpace next with mem := mem' } kstacks.place
        (fun addr => kstacks.Owns state.executing addr ∨ kstacks.Owns next addr) kstacks.Whole
        (kstacks.switched text state) := by
  obtain ⟨listed, listed', room⟩ := valid
  obtain ⟨low, high⟩ := room different
  obtain ⟨bounded, fits⟩ := kstacks.bounded _ listed
  obtain ⟨-, fits'⟩ := kstacks.bounded _ listed'
  unfold sizeofContext at low
  have fieldAt : ∀ {proc}, ProcessRecord.context proc + 8 ≤ 2 ^ 64 →
      (contextField proc).toNat = ProcessRecord.context proc := by
    intro proc fits
    unfold contextField
    rw [BitVec.toNat_ofNat, Nat.mod_eq_of_lt (by omega)]
  have start := @KernelStacks.reaches kstacks (state.enterSpace next) _ (maps different)
    (fun addr owned => owned.elim (fun here => ⟨_, here⟩) fun here => ⟨_, here⟩)
  rw [Tasks.processSwitch, if_neg (Ne.symm different)]
  have regs : (state.enterSpace next).regs = state.machine.regs := by rw [Tasks.enterSpace]
  have shown : (fun addr => (state.enterSpace next).mem (kstacks.place addr)) = kstacks.shown state := by
    rw [Tasks.enterSpace]
    rfl
  rw [shown] at start
  unfold KernelStacks.switched
  generalize state.enterSpace next = m at *
  rw [← regs] at low high ⊢
  have context := start.load (fieldAt fits') fits' fun addr lower upper =>
    Or.inr ⟨listed', Or.inr ⟨lower, upper⟩⟩
  obtain ⟨pushed, done, reaches⟩ := start.pushContext (fun _ whole => kstacks.small whole) text.switchReturn
    (by omega) fun addr lower upper => Or.inl ⟨listed, Or.inl ⟨by omega, by omega⟩⟩
  obtain ⟨mem', stored, reaches⟩ := reaches.store (fun _ whole => kstacks.small whole) (m.regs.rsp - 56)
    (fieldAt fits) fits fun addr lower upper => Or.inl ⟨listed, Or.inr ⟨lower, upper⟩⟩
  refine ⟨mem', ?_, reaches.regs m.regs⟩
  obtain ⟨called, pushes, rest⟩ := Option.bind_eq_some_iff.mp done
  simp only [context, pushes, processSwitchAsm, rest, stored, bind, Option.bind_some]
  rw [Option.map_eq_bind]
  rfl

/-- The result of a switch has the bytes that the switch leaves. -/
theorem processSwitch_bytes {next : Nat} (different : next ≠ state.executing)
    (valid : (TaskStep.switch next).Valid kstacks state) (maps : (TaskStep.switch next).Maps kstacks state)
    (done : state.processSwitch text state.executing next = some state') :
    state'.tasks = state.tasks ∧ state'.executing = next ∧ state'.machine.tables = state.machine.tables ∧
      ∀ addr, kstacks.Whole addr → kstacks.shown state' addr = kstacks.switched text state addr := by
  obtain ⟨mem', returned, reaches⟩ := @processSwitch_spec text kstacks state next different valid maps
  rw [returned] at done
  obtain ⟨machine, popped, rfl⟩ := Option.map_eq_some_iff.mp done
  obtain ⟨before, pops, ret⟩ := Option.bind_eq_some_iff.mp popped
  obtain ⟨regs, rfl⟩ := Machine.popAll_keeps pops
  obtain ⟨value, -, same⟩ := Option.bind_eq_some_iff.mp ret
  obtain rfl := Option.some.inj same
  exact ⟨rfl, rfl, by rw [Tasks.enterSpace], reaches.shows⟩

/-- A switch changes no byte of a process that was not executing. -/
theorem KernelStacks.switched_spares {proc next addr : Nat} (valid : (TaskStep.switch next).Valid kstacks state)
    (different : next ≠ state.executing) (foreign : proc ≠ state.executing) (owned : kstacks.Owns proc addr) :
    kstacks.switched text state addr = kstacks.shown state addr := by
  obtain ⟨listed, -, room⟩ := valid
  obtain ⟨low, high⟩ := room different
  obtain ⟨bounded, fits⟩ := kstacks.bounded _ listed
  have small := kstacks.small ⟨proc, owned⟩
  have outside := kstacks.owns_apart foreign owned
  have length : (state.machine.regs.context text.switchReturn).reverse.length = 7 := rfl
  unfold sizeofContext at low
  have stack : ¬(kstacks.low state.executing ≤ addr ∧ addr < kstacks.high state.executing) := fun inside =>
    outside ⟨listed, Or.inl inside⟩
  have record : ¬(ProcessRecord.context state.executing ≤ addr ∧ addr < ProcessRecord.context state.executing + 8) :=
    fun inside => outside ⟨listed, Or.inr inside⟩
  rw [KernelStacks.switched, storeWord_outside _ _ fits small (by omega)]
  apply pushWords_outside
  · omega
  · omega
  · exact small
  · omega

/-- A process is not executing, and its record and its kernel stack are as they were. -/
structure Suspended (kstacks : KernelStacks) (proc : Nat) (task : Task) (bytes : Memory) (state : Tasks) :
    Prop where
  waits : state.executing ≠ proc
  task : state.tasks proc = task
  bytes : ∀ addr, kstacks.Owns proc addr → kstacks.shown state addr = bytes addr

/-- The setup of a process writes to its own stack and record. -/
theorem processArchInit_bytes {proc : Nat} {uentry ustack : BitVec 64}
    (valid : (TaskStep.init proc uentry ustack).Valid kstacks state)
    (maps : (TaskStep.init proc uentry ustack).Maps kstacks state)
    (done : (TaskStep.init proc uentry ustack).Steps text state state') :
    state'.tasks = Function.update state.tasks proc
        { state.tasks proc with tf := (state.tasks proc).kstack + 16208 } ∧ state'.executing = state.executing ∧
      state'.machine.tables = state.machine.tables ∧ ∀ addr, kstacks.Whole addr → kstacks.shown state' addr =
        archInitBytes text uentry ustack (state.tasks proc).kstack.toNat (ProcessRecord.context proc)
          (kstacks.shown state) addr := by
  obtain ⟨listed, -, place, size⟩ := valid
  obtain ⟨bounded, fits⟩ := kstacks.bounded _ listed
  unfold processKernelStackSize at size
  have start := @KernelStacks.reaches kstacks state.machine _ maps fun addr owned => ⟨proc, owned⟩
  obtain ⟨mem', returned, reaches⟩ := @Machine.Reaches.archInit text uentry ustack (state.tasks proc) _ proc _ _ _ _ start
    (fun _ whole => kstacks.small whole) (by omega) fits
    (fun addr low high => ⟨listed, Or.inl ⟨by omega, by omega⟩⟩) fun addr low high => ⟨listed, Or.inr ⟨low, high⟩⟩
  change (processArchInit text proc uentry ustack (state.tasks proc) state.machine >>= _) = some state' at done
  rw [returned] at done
  obtain rfl := Option.some.inj done
  exact ⟨rfl, rfl, rfl, reaches.shows⟩

/-- A step that does not resume a suspended process leaves it suspended. -/
theorem Suspended.step {proc : Nat} {task : Task} {bytes : Memory} (suspended : Suspended kstacks proc task bytes state)
    {step : TaskStep} (valid : step.Valid kstacks state) (maps : step.Maps kstacks state) (spares : step.Spares proc)
    (done : step.Steps text state state') : Suspended kstacks proc task bytes state' := by
  obtain ⟨waits, record, same⟩ := suspended
  cases step with
  | work machine =>
      obtain rfl := Option.some.inj done
      refine ⟨waits, record, fun addr owned => ?_⟩
      rw [← same addr owned]
      exact valid proc (Ne.symm waits) addr owned
  | init other uentry ustack =>
      have different : proc ≠ other := Ne.symm spares
      obtain ⟨tasks, executing, -, shown⟩ := processArchInit_bytes valid maps done
      obtain ⟨listed, -, place, size⟩ := valid
      obtain ⟨bounded, fits⟩ := kstacks.bounded _ listed
      refine ⟨executing ▸ waits, ?_, fun addr owned => ?_⟩
      · rw [tasks, Function.update_of_ne different]
        exact record
      · have outside := kstacks.owns_apart different owned
        have stack : ¬(kstacks.low other ≤ addr ∧ addr < kstacks.high other) := fun inside =>
          outside ⟨listed, Or.inl inside⟩
        have field : ¬(ProcessRecord.context other ≤ addr ∧ addr < ProcessRecord.context other + 8) := fun inside =>
          outside ⟨listed, Or.inr inside⟩
        have small := kstacks.small ⟨proc, owned⟩
        unfold processKernelStackSize at size
        rw [shown addr ⟨proc, owned⟩, archInitBytes_frame (by omega) fits small (by omega) (by omega)]
        exact same addr owned
  | switch next =>
      by_cases stays : next = state.executing
      · change state.processSwitch text state.executing next = some state' at done
        rw [Tasks.processSwitch, if_pos stays.symm] at done
        obtain rfl := Option.some.inj done
        exact ⟨waits, record, same⟩
      · obtain ⟨tasks, executing, -, shown⟩ := processSwitch_bytes stays valid maps done
        refine ⟨executing ▸ spares, tasks ▸ record, fun addr owned => ?_⟩
        rw [shown addr ⟨proc, owned⟩, kstacks.switched_spares valid stays (Ne.symm waits) owned]
        exact same addr owned

/-- Steps that do not resume a suspended process leave it suspended. -/
theorem Suspended.path {proc : Nat} {task : Task} {bytes : Memory} {steps : List TaskStep} {final : Tasks}
    (suspended : Suspended kstacks proc task bytes state)
    (valid : Runs.Along (TaskStep.Steps text) (fun step state => step.Valid kstacks state ∧ step.Maps kstacks state) steps
      state)
    (spares : ∀ step ∈ steps, step.Spares proc) (path : Runs.Path (TaskStep.Steps text) steps state final) :
    Suspended kstacks proc task bytes final := by
  induction steps generalizing state with
  | nil => exact path ▸ suspended
  | cons step steps ih =>
      obtain ⟨state', steps', rest⟩ := path
      have here := suspended.step valid.1.1 valid.1.2 (spares step (by simp)) steps'
      exact ih here (valid.2 state' steps') (fun other member => spares other (by simp [member])) rest

/-- A switch to a suspended process loads the context from its stack. -/
theorem Suspended.resume {proc : Nat} {task : Task} {bytes : Memory} {regs : Regs} {rip slot : BitVec 64}
    (suspended : Suspended kstacks proc task bytes state) (valid : (TaskStep.switch proc).Valid kstacks state)
    (maps : (TaskStep.switch proc).Maps kstacks state) (context : loadWord bytes (ProcessRecord.context proc) = slot)
    (saved : OnStack bytes slot.toNat (regs.context rip)) (low : kstacks.low proc ≤ slot.toNat)
    (high : slot.toNat + 56 ≤ kstacks.high proc) :
    ∃ after, state.processSwitch text state.executing proc = some after ∧
      after.machine.regs = { state.machine.regs with
        r12 := regs.r12, r13 := regs.r13, r14 := regs.r14, r15 := regs.r15, rbp := regs.rbp,
        rbx := regs.rbx, rip := rip, rsp := slot + 56 } ∧
      after.executing = proc ∧ after.tasks proc = task ∧
      after.machine.Reaches kstacks.place (kstacks.Owns proc) kstacks.Whole (kstacks.shown after) ∧
      ∀ addr, kstacks.Owns proc addr → kstacks.shown after addr = bytes addr := by
  have different : proc ≠ state.executing := Ne.symm suspended.waits
  have listed := valid.2.1
  obtain ⟨bounded, fits⟩ := kstacks.bounded proc listed
  obtain ⟨mem', returned, reaches⟩ := @processSwitch_spec text kstacks state proc different valid maps
  have left : ∀ addr, kstacks.Owns proc addr → kstacks.switched text state addr = bytes addr := fun addr owned =>
    (kstacks.switched_spares valid different different owned).trans (suspended.bytes addr owned)
  have here : loadWord (kstacks.shown state) (ProcessRecord.context proc) = slot := by
    rw [← context]
    apply loadWord_congr
    intro offset small
    rw [byteAt, byteAt, Nat.mod_eq_of_lt (by omega)]
    exact suspended.bytes _ ⟨listed, Or.inr ⟨by omega, by omega⟩⟩
  rw [here] at returned
  have stack : ∀ addr, slot.toNat ≤ addr → addr < slot.toNat + 56 → kstacks.Owns proc addr := fun addr lower upper =>
    ⟨listed, Or.inl ⟨by omega, by omega⟩⟩
  have loaded : OnStack (kstacks.switched text state) slot.toNat (regs.context rip) :=
    saved.transport (by simp only [Regs.context, List.length_cons, List.length_nil]; omega) fun addr lower upper =>
      left addr (stack addr lower (by simpa only [Regs.context, List.length_cons, List.length_nil] using upper))
  have popped := (reaches.regs { state.machine.regs with rsp := slot }).popContext (by dsimp only; omega)
    (fun addr lower upper => Or.inr (stack addr lower upper)) loaded
  dsimp only at popped
  rw [popped] at returned
  refine ⟨_, returned, rfl, rfl, suspended.task, ?_, ?_⟩
  · exact ⟨reaches.places.mono fun _ owned => Or.inr owned, fun _ owned => ⟨proc, owned⟩, reaches.apart, fun _ _ => rfl⟩
  · exact fun addr owned => (reaches.shows addr ⟨proc, owned⟩).trans (left addr owned)

end
/-- A resumed process continues behind its own call of `process_switch_asm` with the registers and
the stack that it had there. Only the words that the call itself pushed are new on the stack. -/
structure ResumesAs (text : KernelText) (kstacks : KernelStacks) (before after : Tasks) : Prop where
  executing : after.executing = before.executing
  rip : after.machine.regs.rip = text.switchReturn
  rsp : after.machine.regs.rsp = before.machine.regs.rsp
  rbx : after.machine.regs.rbx = before.machine.regs.rbx
  rbp : after.machine.regs.rbp = before.machine.regs.rbp
  r12 : after.machine.regs.r12 = before.machine.regs.r12
  r13 : after.machine.regs.r13 = before.machine.regs.r13
  r14 : after.machine.regs.r14 = before.machine.regs.r14
  r15 : after.machine.regs.r15 = before.machine.regs.r15
  loaded : Places (after.machine.tables after.machine.cr3) kstacks.place (kstacks.Owns before.executing)
  stack : ∀ addr, kstacks.low before.executing ≤ addr → addr < kstacks.high before.executing →
    addr + sizeofContext < before.machine.regs.rsp.toNat ∨ before.machine.regs.rsp.toNat ≤ addr →
    kstacks.shown after addr = kstacks.shown before addr

/-- A new process runs `process_first_run`, returns to `trap_ret` with its trap frame on top of the
stack, and enters user mode at its entry with its user stack. -/
structure StartsAs (text : KernelText) (proc : Nat) (uentry ustack : BitVec 64) (after : Tasks) : Prop where
  executing : after.executing = proc
  first : after.machine.regs.rip = text.processFirstRun
  enters : ∃ trap user, processFirstRun after.machine = some trap ∧ trap.regs.rip = text.trapRet ∧
    trap.regs.rsp = (after.tasks proc).tf ∧ trapRet trap = some user ∧ user.regs.rip = uentry ∧
    user.regs.rsp = ustack ∧ user.regs.cs = BitVec.ofNat 64 (gdtUserCodeIndex * 8 ||| dplUser) ∧
    user.regs.ss = BitVec.ofNat 64 (gdtUserDataIndex * 8 ||| dplUser)

/-- The pops of `trap_ret` reach the five words of `iretq`. -/
theorem Machine.Reaches.trapRet {m : Machine} {place : Nat → Nat} {area whole : Nat → Prop} {shown : Memory}
    (reaches : m.Reaches place area whole shown) {rip cs rflags rsp ss : BitVec 64}
    (room : m.regs.rsp.toNat + 176 ≤ 2 ^ 64)
    (inside : ∀ addr, m.regs.rsp.toNat ≤ addr → addr < m.regs.rsp.toNat + 176 → area addr)
    (words : OnStack shown (m.regs.rsp.toNat + 136) [rip, cs, rflags, rsp, ss]) :
    ∃ user, trapRet m = some user ∧ user.regs.rip = rip ∧ user.regs.rsp = rsp ∧ user.regs.cs = cs ∧
      user.regs.ss = ss := by
  obtain ⟨ripAt, csAt, flagsAt, rspAt, ssAt, -⟩ := words
  rw [B0s.trapRet]
  generalize sets : [fun (value : BitVec 64) (regs : Regs) => { regs with r15 := value },
    fun value regs => { regs with r14 := value }, fun value regs => { regs with r13 := value },
    fun value regs => { regs with r12 := value }, fun value regs => { regs with r11 := value },
    fun value regs => { regs with r10 := value }, fun value regs => { regs with r9 := value },
    fun value regs => { regs with r8 := value }, fun value regs => { regs with rbp := value },
    fun value regs => { regs with rdi := value }, fun value regs => { regs with rsi := value },
    fun value regs => { regs with rdx := value }, fun value regs => { regs with rcx := value },
    fun value regs => { regs with rbx := value }, fun value regs => { regs with rax := value }] = pops
  have keeps : ∀ set ∈ pops, ∀ value regs, (set value regs).rsp = regs.rsp := by
    rw [← sets]
    simp
  have count : pops.length = 15 := by
    rw [← sets]
    rfl
  have popped := reaches.popAll keeps (by omega) fun addr low high => inside addr low (by omega)
  have top := @loadAll_rsp shown m.regs.rsp.toNat pops m.regs keeps
  rw [count] at top
  simp only [popped, bind, Option.bind_some]
  generalize loadAll shown pops m.regs.rsp.toNat m.regs = regs at top ⊢
  have frame : regs.rsp + 16 = m.regs.rsp + 136 := by
    rw [top]
    bv_omega
  have after := reaches.regs { regs with rsp := regs.rsp + 16 }
  have first := @Machine.Reaches.load _ _ _ _ _ (m.regs.rsp.toNat + 136) after (regs.rsp + 16) (by rw [frame]; bv_omega)
    (by omega) fun addr low high => inside addr (by omega) (by omega)
  have second := @Machine.Reaches.load _ _ _ _ _ (m.regs.rsp.toNat + 136 + 8) after (regs.rsp + 16 + 8)
    (by rw [frame]; bv_omega) (by omega) fun addr low high => inside addr (by omega) (by omega)
  have third := @Machine.Reaches.load _ _ _ _ _ (m.regs.rsp.toNat + 136 + 8 + 8) after (regs.rsp + 16 + 16)
    (by rw [frame]; bv_omega) (by omega) fun addr low high => inside addr (by omega) (by omega)
  have fourth := @Machine.Reaches.load _ _ _ _ _ (m.regs.rsp.toNat + 136 + 8 + 8 + 8) after (regs.rsp + 16 + 24)
    (by rw [frame]; bv_omega) (by omega) fun addr low high => inside addr (by omega) (by omega)
  have fifth := @Machine.Reaches.load _ _ _ _ _ (m.regs.rsp.toNat + 136 + 8 + 8 + 8 + 8) after (regs.rsp + 16 + 32)
    (by rw [frame]; bv_omega) (by omega) fun addr low high => inside addr (by omega) (by omega)
  rw [ripAt] at first
  rw [csAt] at second
  rw [flagsAt] at third
  rw [rspAt] at fourth
  rw [ssAt] at fifth
  simp only [Machine.iretq, first, second, third, fourth, fifth, bind, Option.bind_some, Option.some.injEq,
    exists_eq_left', and_self]

section
variable {text : KernelText} {kstacks : KernelStacks} {state : Tasks}

/-- A process that switches away and is switched to again resumes as it was. -/
theorem switch_resumes {next : Nat} {middle : List TaskStep} {suspended : Tasks}
    (different : next ≠ state.executing) (spares : ∀ step ∈ middle, step.Spares state.executing)
    (valid : Runs.Along (TaskStep.Steps text) (fun step state => step.Valid kstacks state ∧ step.Maps kstacks state)
      (.switch next :: middle ++ [.switch state.executing]) state)
    (path : Runs.Path (TaskStep.Steps text) (.switch next :: middle) state suspended) :
    ∃ after, (TaskStep.switch state.executing).run text suspended = some after ∧
      ResumesAs text kstacks state after := by
  have parts := Runs.along_append.mp valid
  have last := (parts.2 suspended path).1
  obtain ⟨listed, listed', room⟩ := parts.1.1.1
  obtain ⟨low, high⟩ := room different
  obtain ⟨bounded, fits⟩ := kstacks.bounded _ listed
  have apart := kstacks.apart _ listed
  unfold sizeofContext at low
  obtain ⟨first, switched, rest⟩ := path
  obtain ⟨tasks, executing, -, shown⟩ := processSwitch_bytes different parts.1.1.1 parts.1.1.2 switched
  have start : Suspended kstacks state.executing (state.tasks state.executing) (kstacks.switched text state) first :=
    ⟨executing ▸ different, by rw [tasks], fun addr owned => shown addr ⟨_, owned⟩⟩
  have kept := start.path (parts.1.2 _ switched) spares rest
  have base : (state.machine.regs.rsp - 56).toNat = state.machine.regs.rsp.toNat - 56 := by bv_omega
  have length : (state.machine.regs.context text.switchReturn).reverse.length = 7 := rfl
  have saved : OnStack (kstacks.switched text state) (state.machine.regs.rsp - 56).toNat
      (state.machine.regs.context text.switchReturn) := by
    have pushed := @onStack_pushWords (kstacks.shown state) state.machine.regs.rsp.toNat
      (state.machine.regs.context text.switchReturn).reverse (by omega) (by omega)
    rw [length, List.reverse_reverse, ← base] at pushed
    apply pushed.transport
    · simp only [Regs.context, List.length_cons, List.length_nil]
      omega
    · intro addr lower upper
      simp only [Regs.context, List.length_cons, List.length_nil] at upper
      exact storeWord_outside _ _ fits (by omega) (by omega)
  obtain ⟨after, returned, regs, here, -, reaches, bytes⟩ := @Suspended.resume text kstacks suspended _ _ _ _ _ _ kept
    last.1 last.2 (loadWord_storeWord _ _ _) saved (by omega) (by omega)
  have rsp : state.machine.regs.rsp - 56 + 56 = state.machine.regs.rsp := by bv_omega
  rw [rsp] at regs
  refine ⟨after, returned, here, ?_, ?_, ?_, ?_, ?_, ?_, ?_, ?_, reaches.places, ?_⟩
  · rw [regs]
  · rw [regs]
  · rw [regs]
  · rw [regs]
  · rw [regs]
  · rw [regs]
  · rw [regs]
  · rw [regs]
  · intro addr lower upper outside
    unfold sizeofContext at outside
    rw [bytes addr ⟨listed, Or.inl ⟨lower, upper⟩⟩, KernelStacks.switched,
      storeWord_outside _ _ fits (by omega) (by omega)]
    apply pushWords_outside
    · omega
    · omega
    · omega
    · omega

/-- A process that was set up and is then switched to starts as it was set up. -/
theorem switch_starts {proc : Nat} {uentry ustack : BitVec 64} {middle : List TaskStep} {suspended : Tasks}
    (spares : ∀ step ∈ middle, step.Spares proc)
    (valid : Runs.Along (TaskStep.Steps text) (fun step state => step.Valid kstacks state ∧ step.Maps kstacks state)
      (.init proc uentry ustack :: middle ++ [.switch proc]) state)
    (path : Runs.Path (TaskStep.Steps text) (.init proc uentry ustack :: middle) state suspended) :
    ∃ after, (TaskStep.switch proc).run text suspended = some after ∧ StartsAs text proc uentry ustack after := by
  have parts := Runs.along_append.mp valid
  have last := (parts.2 suspended path).1
  obtain ⟨listed, foreign, place, size⟩ := parts.1.1.1
  obtain ⟨bounded, fits⟩ := kstacks.bounded _ listed
  have apart := kstacks.apart _ listed
  unfold processKernelStackSize at size
  obtain ⟨first, ready, rest⟩ := path
  obtain ⟨tasks, executing, -, shown⟩ := processArchInit_bytes parts.1.1.1 parts.1.1.2 ready
  have prepared := @archInitBytes_prepared text uentry ustack (state.tasks proc) (kstacks.shown state) proc (by omega)
    fits (by omega)
  have start : Suspended kstacks proc { state.tasks proc with tf := (state.tasks proc).kstack + 16208 }
      (archInitBytes text uentry ustack (state.tasks proc).kstack.toNat (ProcessRecord.context proc)
        (kstacks.shown state)) first :=
    ⟨executing ▸ Ne.symm foreign, by rw [tasks, Function.update_self], fun addr owned => shown addr ⟨_, owned⟩⟩
  have kept := start.path (parts.1.2 _ ready) spares rest
  generalize archInitBytes text uentry ustack (state.tasks proc).kstack.toNat (ProcessRecord.context proc)
    (kstacks.shown state) = bytes at *
  obtain ⟨kernel, user, context, -⟩ := prepared
  dsimp only at kernel user context
  have contextAt : ((state.tasks proc).kstack + 16144).toNat = (state.tasks proc).kstack.toNat + 16144 := by bv_omega
  have words : OnStack bytes ((state.tasks proc).kstack + 16144).toNat (Regs.context
      { suspended.machine.regs with
        r12 := loadWord bytes ((state.tasks proc).kstack + 16144).toNat
        r13 := loadWord bytes (((state.tasks proc).kstack + 16144).toNat + 8)
        r14 := loadWord bytes (((state.tasks proc).kstack + 16144).toNat + 8 + 8)
        r15 := loadWord bytes (((state.tasks proc).kstack + 16144).toNat + 8 + 8 + 8)
        rbp := loadWord bytes (((state.tasks proc).kstack + 16144).toNat + 8 + 8 + 8 + 8)
        rbx := loadWord bytes (((state.tasks proc).kstack + 16144).toNat + 8 + 8 + 8 + 8 + 8) }
      text.processFirstRun) := by
    refine ⟨rfl, rfl, rfl, rfl, rfl, rfl, ?_, trivial⟩
    rw [contextAt]
    exact kernel.1
  obtain ⟨after, returned, regs, here, record, reaches, same⟩ := @Suspended.resume text kstacks suspended _ _ _ _ _ _ kept
    last.1 last.2 context words (by omega) (by omega)
  have stack : ∀ addr, (state.tasks proc).kstack.toNat ≤ addr → addr < (state.tasks proc).kstack.toNat + 16384 →
      kstacks.Owns proc addr := fun addr low high => ⟨listed, Or.inl ⟨by omega, by omega⟩⟩
  have shows : ∀ {base : Nat} {words : List (BitVec 64)}, (state.tasks proc).kstack.toNat ≤ base →
      base + 8 * words.length ≤ (state.tasks proc).kstack.toNat + 16384 → OnStack bytes base words →
      OnStack (kstacks.shown after) base words := fun low high stored =>
    stored.transport (by omega) fun addr lower upper => same addr (stack addr (by omega) (by omega))
  have slot : after.machine.regs.rsp = (state.tasks proc).kstack + 16200 := by
    rw [regs]
    bv_omega
  have slotAt : after.machine.regs.rsp.toNat = (state.tasks proc).kstack.toNat + 16200 := by
    rw [slot]
    bv_omega
  have kernel' := shows (by omega) (by simp only [List.length_cons, List.length_nil]; omega) kernel
  have user' := shows (by omega) (by simp only [List.length_cons, List.length_nil]; omega) user
  have returns := reaches.load slotAt (by omega) fun addr low high => stack addr (by omega) (by omega)
  have target : loadWord (kstacks.shown after) ((state.tasks proc).kstack.toNat + 16200) = text.trapRet := kernel'.2.1
  rw [target] at returns
  have frameAt : (after.machine.regs.rsp + 8).toNat = (state.tasks proc).kstack.toNat + 16208 := by
    rw [slot]
    bv_omega
  obtain ⟨entered, popped, entry, pointer, code, data⟩ := (reaches.regs { after.machine.regs with
      rsp := after.machine.regs.rsp + 8, rip := text.trapRet }).trapRet (by dsimp only; omega)
    (fun addr low high => stack addr (by dsimp only at low; omega) (by dsimp only at high; omega))
    (by dsimp only; rw [frameAt]; exact user')
  refine ⟨after, returned, here, by rw [regs], _, entered, ?_, ?_, ?_, popped, entry, pointer, code, data⟩
  · rw [processFirstRun, Machine.ret, Machine.pop]
    simp only [returns, bind, Option.bind_some]
  · rfl
  · rw [record]
    dsimp only
    rw [slot]
    bv_omega

end

/-- Context switching restores what it saved over runs whose steps are allowed. A process that switches away resumes as
it was when it is switched to again, and a process that was only set up starts as it was set up. -/
def Restores (text : KernelText) (kstacks : KernelStacks) (allows : TaskStep → Tasks → Prop) (state : Tasks) : Prop :=
  (∀ next middle suspended, next ≠ state.executing →
    (∀ step ∈ middle, TaskStep.Spares state.executing step) →
    Runs.Along (TaskStep.Steps text) allows (.switch next :: middle ++ [.switch state.executing]) state →
    Runs.Path (TaskStep.Steps text) (.switch next :: middle) state suspended →
    ∃ after, (TaskStep.switch state.executing).run text suspended = some after ∧
      ResumesAs text kstacks state after) ∧
  ∀ proc uentry ustack middle suspended,
    (∀ step ∈ middle, TaskStep.Spares proc step) →
    Runs.Along (TaskStep.Steps text) allows (.init proc uentry ustack :: middle ++ [.switch proc]) state →
    Runs.Path (TaskStep.Steps text) (.init proc uentry ustack :: middle) state suspended →
    ∃ after, (TaskStep.switch proc).run text suspended = some after ∧ StartsAs text proc uentry ustack after

section
variable {text : KernelText} {kstacks : KernelStacks} {state state' : Tasks}

/-- No step but work changes the tables of a space, the space of a process, or its kernel stack. -/
theorem TaskStep.keeps_tables {step : TaskStep} (valid : step.Valid kstacks state) (maps : step.Maps kstacks state)
    (idle : ∀ machine, step ≠ .work machine) (done : step.Steps text state state') :
    state'.machine.tables = state.machine.tables ∧ ∀ proc, (state'.tasks proc).space = (state.tasks proc).space ∧
      (state'.tasks proc).kstack = (state.tasks proc).kstack := by
  cases step with
  | work machine => exact absurd rfl (idle machine)
  | init proc uentry ustack =>
      obtain ⟨tasks, -, tables, -⟩ := processArchInit_bytes valid maps done
      refine ⟨tables, fun other => ?_⟩
      rw [tasks]
      by_cases same : other = proc
      · rw [same, Function.update_self]
        exact ⟨rfl, rfl⟩
      · rw [Function.update_of_ne same]
        exact ⟨rfl, rfl⟩
  | switch next =>
      by_cases stays : next = state.executing
      · change state.processSwitch text state.executing next = some state' at done
        rw [Tasks.processSwitch, if_pos stays.symm] at done
        obtain rfl := Option.some.inj done
        exact ⟨rfl, fun _ => ⟨rfl, rfl⟩⟩
      · obtain ⟨tasks, -, tables, -⟩ := processSwitch_bytes stays valid maps done
        exact ⟨tables, fun _ => tasks ▸ ⟨rfl, rfl⟩⟩

/-- Tables that map all stacks and records allow every step. -/
theorem TaskStep.maps_of_places (places : ∀ space, Places (state.machine.tables space) kstacks.place kstacks.Whole)
    (step : TaskStep) : step.Maps kstacks state := by
  cases step with
  | work machine => trivial
  | init proc uentry ustack => exact (places _).mono fun _ owned => ⟨proc, owned⟩
  | switch next =>
      refine fun _ => (places _).mono ?_
      rintro addr (owned | owned)
      · exact ⟨_, owned⟩
      · exact ⟨next, owned⟩

/-- A step that returns is followed by the rest of the run from its result. -/
theorem TaskStep.along_cons {allows : TaskStep → Tasks → Prop} {step : TaskStep} {steps : List TaskStep}
    (returned : step.run text state = some state') :
    Runs.Along (TaskStep.Steps text) allows (step :: steps) state ↔
      allows step state ∧ Runs.Along (TaskStep.Steps text) allows steps state' :=
  Runs.along_cons fun after => by rw [TaskStep.Steps, returned, Option.some.injEq]

end

/-- The records of the boot process, of an early process, and of a late one. -/
def bootTask : Nat := 0x30000

def earlyTask : Nat := 0x40000

def lateTask : Nat := 0x50000

/-- Three processes have a kernel stack, and the places are the addresses. -/
def threeStacks : KernelStacks where
  procs proc := proc = bootTask ∨ proc = earlyTask ∨ proc = lateTask
  low proc := if proc = bootTask then 0x10000 else if proc = earlyTask then 0x14000 else 0x18000
  high proc := if proc = bootTask then 0x14000 else if proc = earlyTask then 0x18000 else 0x1c000
  place addr := addr
  bounded := by
    rintro proc (rfl | rfl | rfl) <;> decide
  apart := by
    rintro proc (rfl | rfl | rfl) <;> decide
  disjoint := by
    rintro proc other (rfl | rfl | rfl) (rfl | rfl | rfl) different addr <;>
      simp [StackArea, bootTask, earlyTask, lateTask, ProcessRecord.context] at different ⊢ <;> omega
  placed := fun _ _ _ _ same => same

/-- The boot process executes. The tables map the stacks and records, but those of the early process miss the stack of
the late one when they are a copy from before it was mapped. -/
def threeTasks (copied : Bool) : Tasks where
  tasks proc :=
    if proc = bootTask then ⟨0x10000, 0, 0⟩ else if proc = earlyTask then ⟨0x14000, 0, 1⟩ else ⟨0x18000, 0, 2⟩
  machine := {
    regs := ⟨1, 2, 3, 4, 5, 6, 7, 8, 9, 10, 11, 12, 13, 14, 15, 0x11000, 16, 17, 18, 19⟩
    mem := fun _ => 0
    tables := fun space addr =>
      if space = 1 ∧ copied ∧ 0x18000 ≤ addr ∧ addr < 0x1c000 then none
      else if 0x10000 ≤ addr ∧ addr < 0x60000 then some addr else none
    tssRsp0 := 0
    cr3 := 0 }
  executing := bootTask

def sampleText : KernelText := ⟨0x100, 0x200, 0x300⟩

/-- The tables that are not copied map all stacks and records. -/
theorem threeTasks_places (space : BitVec 64) :
    Places ((threeTasks false).machine.tables space) threeStacks.place threeStacks.Whole := by
  rintro addr ⟨proc, rfl | rfl | rfl, area⟩ <;>
    simp [StackArea, threeStacks, threeTasks, bootTask, earlyTask, lateTask, ProcessRecord.context] at area ⊢ <;> omega

end B0s
