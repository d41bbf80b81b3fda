import B0s.Library.Runs
import B0s.Proof.Multitasking.SchedRun

/-
This file settles in which runs the scheduler respects stop and continue signals.
-/

namespace B0s
open DoublyLinked Runs

/-- The signal is pending, and no signal with a lower number is. -/
def LowestPending (pending signum : Nat) : Prop :=
  pending.testBit signum = true ∧ ∀ lower < signum, pending.testBit lower = false

instance (pending signum : Nat) : Decidable (LowestPending pending signum) :=
  inferInstanceAs (Decidable (_ ∧ _))

/-- The switch returns, a process that it switches to is ready after its signals were delivered, and
an examined stopped process that waits for its continue signal is ready afterwards. -/
def SwitchesReady (undefined : Nat → Nat) (sched : Sched) : Prop :=
  ∃ switch, schedSwitch undefined sched = .ok switch ∧
    (switch.next ≠ sched.running → (switch.sched.procs switch.next).state = .ready) ∧
    ∀ proc ∈ switch.examined, (sched.procs proc).state = .stopped →
      LowestPending (sched.procs proc).pendingSignals sigcont →
        (switch.sched.procs proc).state = .ready

def SchedStep.Ready (undefined : Nat → Nat) : SchedStep → Sched → Prop
  | .switch rsp, sched => SwitchesReady undefined (sched.enter rsp)
  | _, _ => True

/-- Every node between the running process and this one waits. -/
def Reached (sched : Sched) (proc : Nat) : Prop :=
  ∃ before after, sched.links.Holds sched.running (before ++ proc :: after) ∧
    ∀ node ∈ before, Waits sched.procs node

/-- The stop signal of a ready process is not the next one, and the continue signal of a stopped
process is not the next one. -/
structure Undisturbed (proc : Process) : Prop where
  stop : proc.state = .ready → proc.signalsHandlers sigstop = NULL →
    ¬LowestPending proc.pendingSignals sigstop
  cont : proc.state = .stopped → ¬LowestPending proc.pendingSignals sigcont

/-- A switch reaches no process whose next signal would stop or continue it. -/
def SchedStep.Avoids : SchedStep → Sched → Prop
  | .switch _, sched => ∀ proc, Reached sched proc → Undisturbed (sched.procs proc)
  | _, _ => True

section
variable {undefined : Nat → Nat}

theorem signalIsSet_iff {pending signum : Nat} (small : signum < 31) :
    signalIsSet undefined pending signum ↔ pending.testBit signum = true := by
  rw [signalIsSet, intShift, if_pos small, Nat.and_two_pow]
  cases pending.testBit signum <;> simp

/-- The search stops at a low signal exactly when it is the lowest pending one. -/
theorem signalDeliverSearch_eq_iff {pending signum : Nat} {count start : Nat} (small : signum < 31)
    (enough : signum < start + count) (fromStart : start ≤ signum) :
    signalDeliverSearch undefined pending count start = signum ↔
      pending.testBit signum = true ∧ ∀ lower < signum, start ≤ lower → pending.testBit lower = false := by
  induction count generalizing start with
  | zero => omega
  | succ count ih =>
      have set := @signalIsSet_iff undefined pending start (by omega)
      rw [signalDeliverSearch]
      by_cases here : pending.testBit start = true
      · rw [if_pos (set.mpr here)]
        constructor
        · rintro rfl
          exact ⟨here, fun lower below above => by omega⟩
        · rintro ⟨-, clear⟩
          by_contra different
          have cleared := clear start (by omega) (by omega)
          rw [here] at cleared
          cases cleared
      · rw [if_neg fun now => here (set.mp now)]
        by_cases same : start = signum
        · subst same
          constructor
          · intro found
            have bound : ∀ (count start : Nat), start ≤ signalDeliverSearch undefined pending count start := by
              intro count
              induction count with
              | zero => exact fun start => le_rfl
              | succ count ih =>
                  intro start
                  rw [signalDeliverSearch]
                  split_ifs
                  · exact le_rfl
                  · exact le_trans (Nat.le_succ start) (ih (start + 1))
            have above := bound count (start + 1)
            omega
          · rintro ⟨now, -⟩
            exact absurd now here
        · rw [ih (by omega) (by omega)]
          constructor
          · rintro ⟨now, clear⟩
            refine ⟨now, fun lower below above => ?_⟩
            by_cases first : lower = start
            · subst first
              simpa using here
            · exact clear lower below (by omega)
          · rintro ⟨now, clear⟩
            exact ⟨now, fun lower below above => clear lower below (by omega)⟩

theorem signalDeliverSearch_lowest {pending signum : Nat} (small : signum < 31) :
    signalDeliverSearch undefined pending processNsig 0 = signum ↔ LowestPending pending signum := by
  have limit : signum < 0 + processNsig := by
    unfold processNsig
    omega
  rw [signalDeliverSearch_eq_iff small limit (Nat.zero_le _), LowestPending]
  simp

/-- A ready process stays ready unless the delivered signal is a stop signal without a handler. -/
theorem signalDeliver_ready {proc : Process} (ready : proc.state = .ready) :
    (signalDeliver undefined proc).state = .ready ↔
      (proc.signalsHandlers sigstop = NULL → ¬LowestPending proc.pendingSignals sigstop) := by
  have lowest := @signalDeliverSearch_lowest undefined proc.pendingSignals sigstop (by decide)
  unfold signalDeliver
  by_cases none : proc.pendingSignals = 0
  · rw [if_pos none]
    have nothing : ¬LowestPending proc.pendingSignals sigstop := by
      rw [none]
      decide
    exact ⟨fun _ _ => nothing, fun _ => ready⟩
  · rw [if_neg none]
    dsimp only
    generalize signalDeliverSearch undefined proc.pendingSignals processNsig 0 = signum at lowest ⊢
    by_cases stop : signum = sigstop
    · subst stop
      have notKill : sigstop ≠ sigkill := by decide
      have pending := lowest.mp rfl
      by_cases handler : proc.signalsHandlers sigstop = NULL
      · simp [handler, pending]
      · simp [handler, notKill, ready]
    · have other : ¬LowestPending proc.pendingSignals sigstop := fun now => stop (lowest.mpr now)
      have kept : ∀ cond : Prop, ∀ _ : Decidable cond, ∀ first second : Process,
          first.state = .ready → second.state = .ready → (if cond then first else second).state = .ready := by
        intro cond decidable first second firstReady secondReady
        split_ifs
        · exact firstReady
        · exact secondReady
      refine ⟨fun _ _ => other, fun _ => ?_⟩
      apply kept
      · rw [if_neg stop]
        simp [ready]
      · exact ready

theorem processSwitch_state (cur next : Nat) (procs : Nat → Process) (cpu : Cpu) (node : Nat) :
    ((processSwitch cur next procs cpu).1 node).state = (procs node).state := by
  unfold processSwitch
  split_ifs
  · rfl
  · by_cases same : node = cur
    · rw [same]
      dsimp only
      rw [Function.update_self]
    · dsimp only
      rw [Function.update_of_ne same]

section
variable {sched : Sched} {passed rest : List Nat}

/-- The reached nodes are those up to the first ready one. -/
theorem reached_iff (holds : sched.links.Holds sched.running (passed ++ rest))
    (waits : ∀ node ∈ passed, Waits sched.procs node)
    (found : ∀ node, rest.head? = some node → (sched.procs node).state = .ready) (proc : Nat) :
    Reached sched proc ↔ proc ∈ passed ∨ rest.head? = some proc := by
  constructor
  · rintro ⟨before, after, ring, waiting⟩
    have same := holds.unique ring
    rcases List.append_eq_append_iff.mp same with ⟨middle, split, tail⟩ | ⟨middle, split, tail⟩
    · cases middle with
      | nil =>
          right
          rw [tail]
          rfl
      | cons first middle =>
          have here : rest.head? = some first := by
            rw [tail]
            rfl
          exact absurd (found first here) (waiting first (by simp [split]))
    · cases middle with
      | nil =>
          right
          have start : rest = proc :: after := by simpa using tail.symm
          rw [start]
          rfl
      | cons first middle =>
          left
          have head : first = proc := by
            have equal := congrArg List.head? tail
            simpa using equal.symm
          rw [split, head]
          simp
  · rintro (inside | head)
    · obtain ⟨before, after, split⟩ := List.append_of_mem inside
      refine ⟨before, after ++ rest, ?_, ?_⟩
      · rw [split] at holds
        simpa using holds
      · intro node member
        exact waits node (by simp [split, member])
    · obtain ⟨tail, split⟩ : ∃ tail, rest = proc :: tail := by
        cases rest with
        | nil => cases head
        | cons first tail => exact ⟨tail, by simpa using head⟩
      exact ⟨passed, tail, split ▸ holds, waits⟩

end

/-- On a ring, a switch respects the signals exactly when it reaches no process whose next signal
would stop or continue it. -/
theorem SchedRing.ready_iff {sched : Sched} {nodes : List Nat} (ring : SchedRing sched nodes) :
    SwitchesReady undefined sched ↔ ∀ proc, Reached sched proc → Undisturbed (sched.procs proc) := by
  obtain ⟨passed, rest, rfl, waits, found⟩ := split_at_ready sched.procs nodes
  obtain ⟨switch, switched, spec⟩ := schedSwitch_spec undefined ring.holds ring.bounded waits found
  have reached := reached_iff ring.holds waits found
  have apart := List.nodup_cons.mp ring.holds.distinct
  have procsAre := congrArg Prod.fst spec.switched
  dsimp only at procsAre
  have passedState : ∀ node ∈ passed, (switch.sched.procs node).state = (sched.procs node).state := by
    intro node member
    rw [procsAre, processSwitch_state]
    cases rest with
    | nil => rfl
    | cons first rest =>
        have different : node ≠ first := by
          rintro rfl
          exact (List.nodup_append.mp apart.2).2.2 node member node (by simp) rfl
        show (Function.update sched.procs first _ node).state = _
        rw [Function.update_of_ne different]
  have headState : ∀ node, rest.head? = some node →
      (switch.sched.procs node).state = (signalDeliver undefined (sched.procs node)).state := by
    intro node head
    rw [procsAre, processSwitch_state, head]
    show (Function.update sched.procs node _ node).state = _
    rw [Function.update_self]
  constructor
  · rintro ⟨switch', switched', readies, continues⟩ proc near
    obtain rfl := Except.ok.inj (switched.symm.trans switched')
    constructor
    · intro ready
      rcases (reached proc).mp near with inside | head
      · exact absurd ready (waits proc inside)
      · rw [← @signalDeliver_ready undefined _ ready, ← headState proc head]
        have next : switch.next = proc := by
          rw [spec.next, head]
          rfl
        rw [← next]
        apply readies
        rw [next]
        rintro rfl
        exact apart.1 (List.mem_append_right _ (List.mem_of_mem_head? head))
    · intro stopped lowest
      rcases (reached proc).mp near with inside | head
      · have now := continues proc (by simp [spec.examined, inside]) stopped lowest
        rw [passedState proc inside, stopped] at now
        cases now
      · have ready := found proc head
        rw [stopped] at ready
        cases ready
  · intro undisturbed
    refine ⟨switch, switched, ?_, ?_⟩
    · intro moved
      cases head : rest.head? with
      | none =>
          exfalso
          apply moved
          rw [spec.next, head]
          exact ring.sleeper
      | some proc =>
          have next : switch.next = proc := by
            rw [spec.next, head]
            rfl
          have ready := found proc head
          rw [next, headState proc head, signalDeliver_ready ready]
          exact (undisturbed proc ((reached proc).mpr (Or.inr head))).stop ready
    · intro proc examined stopped lowest
      have near : Reached sched proc := by
        rw [reached]
        rw [spec.examined] at examined
        simpa using examined
      exact absurd lowest ((undisturbed proc near).cont stopped)

end

/-- A step of the run returns with this scheduler. -/
def SchedStep.Steps (undefined : Nat → Nat) (step : SchedStep) (sched sched' : Sched) : Prop :=
  step.run undefined sched = .ok sched'

/-- The running process lies in a ring. -/
def Sched.HasRing (sched : Sched) : Prop := ∃ nodes, SchedRing sched nodes

/-- In every run after the initialisation, every switch respects the stop and continue signals exactly
when no switch reaches a process whose next signal would stop or continue it. -/
theorem schedRun_ready_iff (undefined : Nat → Nat) (steps : List SchedStep) (start sched : Sched)
    (boot : Nat) (empty : ListHeadInit start.links start.scheduledProcs)
    (valid : AddOrder start.scheduledProcs [boot]) (started : schedInit boot start = .ok sched)
    (validRun : Runs.Along (SchedStep.Steps undefined) (fun step sched => step.Valid sched) steps sched) :
    Runs.Along (SchedStep.Steps undefined) (SchedStep.Ready undefined) steps sched ↔
      Runs.Along (SchedStep.Steps undefined) SchedStep.Avoids steps sched := by
  obtain ⟨ring, -, -⟩ := schedInit_ring empty valid started
  have start : sched.HasRing := ⟨_, ring⟩
  apply along_congr _ _ start validRun
  · rintro step sched ⟨nodes, ring⟩ -
    cases step with
    | add proc => exact Iff.rfl
    | rmv proc => exact Iff.rfl
    | signal proc signum => exact Iff.rfl
    | switch rsp =>
        have entered : SchedRing (sched.enter rsp) nodes :=
          ⟨ring.holds, ring.bounded, ring.head, ring.headNonnull, ring.sleeper⟩
        exact entered.ready_iff
  · rintro step sched sched' ⟨nodes, ring⟩ here runs
    by_cases switching : step.IsSwitch
    · cases step with
      | add proc => exact absurd switching id
      | rmv proc => exact absurd switching id
      | signal proc signum => exact absurd switching id
      | switch rsp =>
          obtain ⟨other, runs', ring', -⟩ := ring.switch_step undefined rsp
          obtain rfl := Except.ok.inj (runs'.symm.trans runs)
          exact ring'
    · exact (ring.step here switching runs).1

/-- A process that is only told to continue is switched to and ready. -/
theorem schedRun_ready_iff_continued :
    ∃ sched, schedInit 16 bootSched = .ok sched ∧
      Runs.Along (SchedStep.Steps fun _ => 0) (SchedStep.Ready fun _ => 0)
        [.add 32, .signal 32 sigcont, .switch 0x9000] sched := by
  have empty : ListHeadInit bootSched.links bootSched.scheduledProcs := ⟨rfl, rfl⟩
  have valid : AddOrder bootSched.scheduledProcs [16] := ⟨by decide, by decide, by decide⟩
  obtain ⟨links, started, -⟩ := @schedAdd_holds bootSched 16 [] (empty.holds (by decide))
    (by decide) (by decide)
  obtain ⟨ring, -, -⟩ := schedInit_ring empty valid started
  have outside : (SchedStep.add 32).Valid { bootSched with links := links } := by
    have apart : 32 ≠ bootSched.scheduledProcs := by decide
    have foreign : 32 ∉ [bootSched.running, bootSched.scheduledProcs] := by decide
    refine ⟨by decide, by decide, apart, ?_⟩
    intro nodes holds
    rw [holds.unique ring.holds]
    exact foreign
  refine ⟨_, started, (schedRun_ready_iff _ _ bootSched _ 16 empty valid started ?_).mpr ?_⟩
  · exact ⟨outside, fun _ _ => ⟨trivial, fun _ _ => ⟨trivial, fun _ _ => trivial⟩⟩⟩
  · refine ⟨trivial, fun joined added => ⟨trivial, fun signalled sent => ⟨?_, fun _ _ => trivial⟩⟩⟩
    obtain ⟨-, -, -, procs⟩ := ring.add outside added
    obtain rfl := Except.ok.inj sent
    intro proc _
    have told : Undisturbed (signalSend (fun _ => 0) sigcont (bootSched.procs 32)) :=
      ⟨by decide, by decide⟩
    have idle : Undisturbed (idleProcess .running) := ⟨by decide, by decide⟩
    have each : Undisturbed (Function.update bootSched.procs 32
        (signalSend (fun _ => 0) sigcont (bootSched.procs 32)) proc) := by
      by_cases same : proc = 32
      · rw [same, Function.update_self]
        exact told
      · rw [Function.update_of_ne same]
        show Undisturbed (idleProcess (if proc = 32 then .ready else .running))
        rw [if_neg same]
        exact idle
    rw [procs]
    exact each

/-- A process without handlers and masked signals is switched to although its stop signal was just
delivered, and it is not continued when it is examined with a pending continue signal. -/
theorem schedRun_switches_stopped :
    ∃ sched, schedInit 16 bootSched = .ok sched ∧
      (∀ proc, (sched.procs proc).maskedSignals = 0 ∧ ∀ signum, (sched.procs proc).signalsHandlers signum = NULL) ∧
      ¬Runs.Along (SchedStep.Steps fun _ => 0) (SchedStep.Ready fun _ => 0)
        [.add 32, .signal 32 sigstop, .switch 0x9000] sched ∧
      ∃ sched', (do
          let sched ← (SchedStep.add 32).run (fun _ => 0) sched
          let sched ← (SchedStep.signal 32 sigstop).run (fun _ => 0) sched
          let sched ← (SchedStep.switch 0x9000).run (fun _ => 0) sched
          (SchedStep.signal 32 sigcont).run (fun _ => 0) sched) = .ok sched' ∧
        ¬(SchedStep.switch 0x8000).Ready (fun _ => 0) sched' := by
  have evaluated : (do
      let sched ← schedInit 16 bootSched
      let sched ← (SchedStep.add 32).run (fun _ => 0) sched
      let told ← (SchedStep.signal 32 sigstop).run (fun _ => 0) sched
      let first ← schedSwitch (fun _ => 0) (told.enter 0x9000)
      let sched ← (SchedStep.switch 0x9000).run (fun _ => 0) told
      let sched ← (SchedStep.signal 32 sigcont).run (fun _ => 0) sched
      let second ← schedSwitch (fun _ => 0) (sched.enter 0x8000)
      Except.ok ((first.next, told.running, (first.sched.procs 32).state),
        decide (32 ∈ second.examined), (sched.procs 32).state,
        decide (LowestPending (sched.procs 32).pendingSignals sigcont), (second.sched.procs 32).state) :
        Outcome ((Nat × Nat × ProcessState) × Bool × ProcessState × Bool × ProcessState)) =
      .ok ((32, 16, .stopped), true, .stopped, true, .stopped) := by
    decide +kernel
  have empty : ListHeadInit bootSched.links bootSched.scheduledProcs := ⟨rfl, rfl⟩
  obtain ⟨links, initial, -⟩ := @schedAdd_holds bootSched 16 [] (empty.holds (by decide))
    (by decide) (by decide)
  obtain ⟨booted, started, rest⟩ := Outcome.bind_eq_ok.mp evaluated
  obtain ⟨joined, added, rest⟩ := Outcome.bind_eq_ok.mp rest
  obtain ⟨told, sent, rest⟩ := Outcome.bind_eq_ok.mp rest
  obtain ⟨first, firstSwitch, rest⟩ := Outcome.bind_eq_ok.mp rest
  obtain ⟨stopped, switched, rest⟩ := Outcome.bind_eq_ok.mp rest
  obtain ⟨waiting, sent', rest⟩ := Outcome.bind_eq_ok.mp rest
  obtain ⟨second, secondSwitch, rest⟩ := Outcome.bind_eq_ok.mp rest
  have facts := Except.ok.inj rest
  simp only [Prod.mk.injEq, decide_eq_true_eq] at facts
  obtain ⟨⟨next, running, state⟩, examined, before, lowest, after⟩ := facts
  have same : booted = { bootSched with links := links } := Except.ok.inj (started.symm.trans initial)
  refine ⟨booted, started, ?_, ?_, waiting, ?_, ?_⟩
  · intro proc
    rw [same]
    exact ⟨rfl, fun _ => rfl⟩
  · intro along
    obtain ⟨switch, switches, readies, -⟩ := ((along.2 joined added).2 told sent).1
    obtain rfl := Except.ok.inj (firstSwitch.symm.trans switches)
    have moved : first.next ≠ (told.enter 0x9000).running := by
      show first.next ≠ told.running
      rw [next, running]
      decide
    have ready := readies moved
    rw [next, state] at ready
    cases ready
  · have later := Outcome.bind_eq_ok.mpr ⟨stopped, switched, sent'⟩
    exact Outcome.bind_eq_ok.mpr ⟨joined, added, Outcome.bind_eq_ok.mpr ⟨told, sent, later⟩⟩
  · rintro ⟨switch, switches, -, continues⟩
    obtain rfl := Except.ok.inj (secondSwitch.symm.trans switches)
    have ready := continues 32 examined before lowest
    rw [after] at ready
    cases ready

end B0s
