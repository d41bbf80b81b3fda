import B0s.Library.WordBits
import B0s.Proof.Multitasking.SwitchRun

/-
This file proves that no interrupt from user mode builds its trap frame where `proc->tf` points.
-/

namespace B0s
open ByteMemory Runs

/-- The frame of an interrupt from user mode starts at the stack pointer that `interrupt_handler`
gets. -/
def interruptFrame (pushesError : Nat → Bool) (error : BitVec 64) (vector : Nat) (m : Machine) :
    Option (BitVec 64) := do
  let m ← interruptUser pushesError error vector m
  let m ← interruptStub vector m
  let m ← generalHandlerAsm m
  some m.regs.rdi

section
variable {m m' : Machine}

theorem Machine.push_rsp {value : BitVec 64} (pushed : m.push value = some m') : m'.regs.rsp = m.regs.rsp - 8 := by
  obtain ⟨stored, -, result⟩ := Option.bind_eq_some_iff.mp pushed
  obtain rfl := Option.some.inj result
  rfl

/-- The pushes take eight bytes each. -/
theorem Machine.pushAll_rsp {values : List (BitVec 64)} (pushed : m.pushAll values = some m') :
    m'.regs.rsp = m.regs.rsp - BitVec.ofNat 64 (8 * values.length) := by
  induction values generalizing m with
  | nil =>
      obtain rfl := Option.some.inj pushed
      simp
  | cons value values ih =>
      obtain ⟨first, here, rest⟩ := Option.bind_eq_some_iff.mp pushed
      rw [ih rest, Machine.push_rsp here, List.length_cons]
      bv_omega

theorem generalHandlerAsm_rdi (handled : generalHandlerAsm m = some m') : m'.regs.rdi = m.regs.rsp - 120 := by
  obtain ⟨pushed, saved, result⟩ := Option.bind_eq_some_iff.mp handled
  obtain rfl := Option.some.inj result
  exact Machine.pushAll_rsp saved

/-- The stub pushes one word or two. -/
theorem interruptStub_rsp {vector : Nat} (entered : interruptStub vector m = some m') :
    m'.regs.rsp = m.regs.rsp - if stubWithError vector then 8 else 16 := by
  rw [Machine.pushAll_rsp entered]
  split_ifs <;> rfl

/-- The processor pushes five words or six below the aligned stack pointer of the TSS. -/
theorem interruptUser_rsp {pushesError : Nat → Bool} {error : BitVec 64} {vector : Nat}
    (taken : interruptUser pushesError error vector m = some m') :
    m'.regs.rsp = (m.tssRsp0 &&& 0xfffffffffffffff0) - if pushesError vector then 48 else 40 := by
  rw [Machine.pushAll_rsp taken]
  split_ifs <;> rfl

/-- A store leaves the registers and the TSS alone. -/
theorem Machine.put_keeps {base size : Nat} {bytes : Memory → Memory} (done : m.put base size bytes = some m') :
    m'.regs = m.regs ∧ m'.tssRsp0 = m.tssRsp0 := by
  rw [Machine.put] at done
  split_ifs at done
  obtain rfl := Option.some.inj done
  exact ⟨rfl, rfl⟩

theorem Machine.push_tss {value : BitVec 64} (pushed : m.push value = some m') : m'.tssRsp0 = m.tssRsp0 := by
  obtain ⟨stored, put, result⟩ := Option.bind_eq_some_iff.mp pushed
  obtain rfl := Option.some.inj result
  exact (Machine.put_keeps put).2

theorem Machine.pushAll_tss {values : List (BitVec 64)} (pushed : m.pushAll values = some m') :
    m'.tssRsp0 = m.tssRsp0 := by
  induction values generalizing m with
  | nil => exact (Option.some.inj pushed) ▸ rfl
  | cons value values ih =>
      obtain ⟨first, here, rest⟩ := Option.bind_eq_some_iff.mp pushed
      rw [ih rest, Machine.push_tss here]

theorem Machine.pop_tss {set : BitVec 64 → Regs → Regs} (popped : m.pop set = some m') : m'.tssRsp0 = m.tssRsp0 := by
  obtain ⟨value, -, result⟩ := Option.bind_eq_some_iff.mp popped
  exact (Option.some.inj result) ▸ rfl

theorem Machine.popAll_tss {sets : List (BitVec 64 → Regs → Regs)} (popped : m.popAll sets = some m') :
    m'.tssRsp0 = m.tssRsp0 := by
  induction sets generalizing m with
  | nil => exact (Option.some.inj popped) ▸ rfl
  | cons set sets ih =>
      obtain ⟨first, here, rest⟩ := Option.bind_eq_some_iff.mp popped
      rw [ih rest, Machine.pop_tss here]

/-- The switch of the stacks leaves the TSS alone. -/
theorem processSwitchAsm_tss {cur next : BitVec 64} (done : processSwitchAsm cur next m = some m') :
    m'.tssRsp0 = m.tssRsp0 := by
  obtain ⟨pushed, pushes, done⟩ := Option.bind_eq_some_iff.mp done
  obtain ⟨stored, stores, done⟩ := Option.bind_eq_some_iff.mp done
  obtain ⟨popped, pops, done⟩ := Option.bind_eq_some_iff.mp done
  rw [Machine.pop_tss done, Machine.popAll_tss pops]
  exact (Machine.put_keeps stores).2.trans (Machine.pushAll_tss pushes)

/-- The byte below the top of an aligned stack is aligned down to 16 bytes below the top. -/
theorem align_stack {kstack : BitVec 64} (aligned : kstack.toNat % 16 = 0) :
    (kstack + BitVec.ofNat 64 processKernelStackSize - 1) &&& 0xfffffffffffffff0 = kstack + 16368 := by
  have value : (kstack + BitVec.ofNat 64 processKernelStackSize - 1).toNat =
      (kstack.toNat + 16383) % 2 ^ 64 := by
    unfold processKernelStackSize
    bv_omega
  apply BitVec.eq_of_toNat_eq
  rw [BitVec.toNat_and, value]
  have masked := @WordBits.and_high_mask ((kstack.toNat + 16383) % 2 ^ 64) 64 4 (by decide)
    (Nat.mod_lt _ (by decide))
  have target : (kstack + 16368).toNat = (kstack.toNat + 16383) % 2 ^ 64 / 2 ^ 4 * 2 ^ 4 := by
    bv_omega
  rw [target, ← masked]
  rfl

/-- An interrupt from user mode builds its frame 16 or 8 bytes away from 16208 bytes above the stack. -/
theorem interruptFrame_aligned {pushesError : Nat → Bool} {error frame kstack : BitVec 64} {vector : Nat}
    (aligned : kstack.toNat % 16 = 0) (tss : m.tssRsp0 = kstack + BitVec.ofNat 64 processKernelStackSize - 1)
    (built : interruptFrame pushesError error vector m = some frame) :
    frame = kstack + 16208 - (if pushesError vector then 48 else 40) - (if stubWithError vector then 8 else 16) + 40 := by
  obtain ⟨user, taken, built⟩ := Option.bind_eq_some_iff.mp built
  obtain ⟨stub, entered, built⟩ := Option.bind_eq_some_iff.mp built
  obtain ⟨handler, handled, result⟩ := Option.bind_eq_some_iff.mp built
  obtain rfl := Option.some.inj result
  rw [generalHandlerAsm_rdi handled, interruptStub_rsp entered, interruptUser_rsp taken, tss, align_stack aligned]
  bv_omega

end

/-- The trap frame of a process lies where `process_arch_init` puts it on this kernel stack. -/
def FrameOn (proc : Nat) (kstack : BitVec 64) (state : Tasks) : Prop :=
  (state.tasks proc).kstack = kstack ∧ (state.tasks proc).tf = kstack + 16208

section
variable {text : KernelText} {proc : Nat} {kstack : BitVec 64} {state state' : Tasks}

/-- The frame of `process_arch_init` ends at the top of the stack. -/
theorem processArchInit_task {uentry ustack : BitVec 64} {task built : Task} {m m' : Machine}
    (done : processArchInit text proc uentry ustack task m = some (built, m')) :
    built = { task with tf := task.kstack + 16208 } := by
  have tf : task.kstack + BitVec.ofNat 64 processKernelStackSize - BitVec.ofNat 64 sizeofTrapFrame =
      task.kstack + 16208 := by
    unfold processKernelStackSize sizeofTrapFrame
    bv_omega
  simp only [processArchInit, bind, Option.bind_eq_some_iff, Option.some.injEq, Prod.mk.injEq, tf] at done
  obtain ⟨_, _, _, _, _, _, _, _, _, _, _, _, _, _, _, _, _, _, _, _, same, _⟩ := done
  exact same.symm

/-- A set up changes one task to what `process_arch_init` returns. -/
theorem TaskStep.init_steps {uentry ustack : BitVec 64}
    (done : (TaskStep.init proc uentry ustack).Steps text state state') :
    ∃ machine, state' = { state with
      tasks := Function.update state.tasks proc
        { state.tasks proc with tf := (state.tasks proc).kstack + 16208 }
      machine := machine } := by
  change (processArchInit text proc uentry ustack (state.tasks proc) state.machine >>= fun result =>
    some { state with tasks := Function.update state.tasks proc result.1, machine := result.2 }) = some state' at done
  cases built : processArchInit text proc uentry ustack (state.tasks proc) state.machine with
  | none =>
      rw [built] at done
      cases done
  | some result =>
      rw [built] at done
      obtain rfl := Option.some.inj done
      exact ⟨result.2, by rw [processArchInit_task built]⟩

/-- A switch leaves the tasks alone. -/
theorem TaskStep.switch_steps {next : Nat} (done : (TaskStep.switch next).Steps text state state') :
    state'.tasks = state.tasks ∧ (next ≠ state.executing → state'.machine.tssRsp0 =
      (state.tasks next).kstack + BitVec.ofNat 64 processKernelStackSize - 1) := by
  rw [TaskStep.Steps, TaskStep.run, Tasks.processSwitch] at done
  split_ifs at done with stays
  · obtain rfl := Option.some.inj done
    exact ⟨rfl, fun different => absurd stays.symm different⟩
  · simp only [bind, Option.bind_eq_some_iff, Option.some.injEq] at done
    obtain ⟨context, -, called, calls, switched, switches, rfl⟩ := done
    exact ⟨rfl, fun _ => by rw [processSwitchAsm_tss switches, Machine.push_tss calls, Tasks.enterSpace]⟩

/-- A set up process has its frame on its stack. -/
theorem FrameOn.of_init {uentry ustack : BitVec 64} (stack : (state.tasks proc).kstack = kstack)
    (done : (TaskStep.init proc uentry ustack).Steps text state state') : FrameOn proc kstack state' := by
  obtain ⟨machine, rfl⟩ := TaskStep.init_steps done
  simp only [FrameOn, Function.update_self, stack, and_self]

/-- Every step leaves the frame of a process where it is. -/
theorem FrameOn.step (frame : FrameOn proc kstack state) {step : TaskStep} (done : step.Steps text state state') :
    FrameOn proc kstack state' := by
  cases step with
  | work machine =>
      obtain rfl := Option.some.inj done
      exact frame
  | init other uentry ustack =>
      by_cases same : other = proc
      · subst same
        exact FrameOn.of_init frame.1 done
      · obtain ⟨machine, rfl⟩ := TaskStep.init_steps done
        simpa only [FrameOn, Function.update_of_ne (Ne.symm same)] using frame
  | switch next =>
      rw [FrameOn, (TaskStep.switch_steps done).1]
      exact frame

end

/-- After a switch to a process that `process_arch_init` set up on an aligned kernel stack, no interrupt from user mode
builds its frame at `proc->tf`. This holds for every switch to it, whatever happened since the set up, and whichever
vectors the processor pushes an error code for. -/
theorem interruptFrame_ne_tf (text : KernelText) (pushesError : Nat → Bool) (error : BitVec 64) (vector proc : Nat)
    (uentry ustack : BitVec 64) (middle : List TaskStep) (state last after : Tasks) (user : Regs) (mem : Memory)
    (tables : BitVec 64 → Translation) (aligned : (state.tasks proc).kstack.toNat % 16 = 0)
    (path : Runs.Path (TaskStep.Steps text) (.init proc uentry ustack :: middle) state last)
    (different : proc ≠ last.executing) (switched : (TaskStep.switch proc).run text last = some after) :
    interruptFrame pushesError error vector { after.machine with regs := user, mem := mem, tables := tables } ≠
      some (after.tasks proc).tf := by
  obtain ⟨ready, setUp, rest⟩ := path
  have start : FrameOn proc (state.tasks proc).kstack ready := FrameOn.of_init rfl setUp
  have frame : FrameOn proc (state.tasks proc).kstack last :=
    rest.keeps (fun _ _ _ kept _ done => kept.step done) start (along_of_forall (fun _ _ => trivial) _ _)
  obtain ⟨tasks, tss⟩ := TaskStep.switch_steps switched
  have top := tss different
  rw [frame.1] at top
  intro built
  have place := @interruptFrame_aligned { after.machine with regs := user, mem := mem, tables := tables } _ _ _ _ _
    aligned top built
  rw [tasks, frame.2] at place
  split_ifs at place <;> bv_omega

/-- The early process was switched out before it is switched to again, and takes a page fault from user mode. -/
theorem interruptFrame_ne_tf_again :
    ∃ last after frame, Runs.Path (TaskStep.Steps sampleText) [.init earlyTask 0x1000 0xffff,
        .init lateTask 0x2000 0xffff, .switch earlyTask, .switch lateTask] (threeTasks false) last ∧
      (TaskStep.switch earlyTask).run sampleText last = some after ∧
      interruptFrame (· == 14) 4 14 after.machine = some frame ∧
      interruptFrame (· == 14) 4 14 after.machine ≠ some (after.tasks earlyTask).tf := by
  have evaluated : (do
      let first ← (TaskStep.init earlyTask 0x1000 0xffff).run sampleText (threeTasks false)
      let ready ← (TaskStep.init lateTask 0x2000 0xffff).run sampleText first
      let started ← (TaskStep.switch earlyTask).run sampleText ready
      let last ← (TaskStep.switch lateTask).run sampleText started
      let after ← (TaskStep.switch earlyTask).run sampleText last
      let frame ← interruptFrame (· == 14) 4 14 after.machine
      some (last.executing, frame)) = some (lateTask, 0x17f40) := by
    decide +kernel
  obtain ⟨first, firstInit, evaluated⟩ := Option.bind_eq_some_iff.mp evaluated
  obtain ⟨ready, secondInit, evaluated⟩ := Option.bind_eq_some_iff.mp evaluated
  obtain ⟨started, starts, evaluated⟩ := Option.bind_eq_some_iff.mp evaluated
  obtain ⟨last, leaves, evaluated⟩ := Option.bind_eq_some_iff.mp evaluated
  obtain ⟨after, returns, evaluated⟩ := Option.bind_eq_some_iff.mp evaluated
  obtain ⟨frame, built, evaluated⟩ := Option.bind_eq_some_iff.mp evaluated
  simp only [Option.some.injEq, Prod.mk.injEq] at evaluated
  have path : Runs.Path (TaskStep.Steps sampleText) [.init earlyTask 0x1000 0xffff, .init lateTask 0x2000 0xffff,
      .switch earlyTask, .switch lateTask] (threeTasks false) last :=
    ⟨first, firstInit, ready, secondInit, started, starts, last, leaves, rfl⟩
  exact ⟨last, after, frame, path, returns, built, interruptFrame_ne_tf sampleText _ 4 14 earlyTask 0x1000 0xffff _ _
    last after after.machine.regs after.machine.mem after.machine.tables (by decide) path
    (by rw [evaluated.1]; decide) returns⟩

/-- A timer interrupt of the early process builds its frame 16 bytes below `proc->tf`. -/
theorem interruptFrame_below_tf : (do
    let ready ← (TaskStep.init earlyTask 0x1000 0xffff).run sampleText (threeTasks false)
    let after ← (TaskStep.switch earlyTask).run sampleText ready
    let frame ← interruptFrame (· == 14) 0 60 after.machine
    some (((after.tasks earlyTask).kstack.toNat % 16, frame), (after.tasks earlyTask).tf)) =
      some ((0, 0x17f40), 0x17f50) := by
  decide +kernel

end B0s
