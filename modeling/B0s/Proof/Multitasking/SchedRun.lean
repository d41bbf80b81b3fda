import B0s.Proof.Multitasking.SchedSwitch

/-
This file settles in which runs of the scheduler every switch suspends the executing process.
-/

namespace B0s
open DoublyLinked

/-- The kernel adds or removes a process, sends a signal, or switches from a stack pointer. -/
inductive SchedStep where
  | add (proc : Nat)
  | rmv (proc : Nat)
  | signal (proc signum : Nat)
  | switch (rsp : Nat)
  deriving DecidableEq, Repr

/-- The processor enters the switch with this stack pointer. -/
def Sched.enter (sched : Sched) (rsp : Nat) : Sched :=
  { sched with cpu := { sched.cpu with rsp := rsp } }

def SchedStep.run (undefined : Nat → Nat) : SchedStep → Sched → Outcome Sched
  | .add proc, sched => schedAdd proc sched
  | .rmv proc, sched => .ok (schedRmv proc sched)
  | .signal proc signum, sched => .ok { sched with
      procs := Function.update sched.procs proc (signalSend undefined signum (sched.procs proc)) }
  | .switch rsp, sched => (schedSwitch undefined (sched.enter rsp)).map Switch.sched

/-- Only a process outside the ring joins it. -/
def SchedStep.Valid (sched : Sched) : SchedStep → Prop
  | .add proc => proc ≠ NULL ∧ proc < 2 ^ 64 ∧ proc ≠ sched.scheduledProcs ∧
      ∀ nodes, sched.links.Holds sched.running nodes → proc ∉ sched.running :: nodes
  | _ => True

def ValidSchedRun (undefined : Nat → Nat) : List SchedStep → Sched → Prop
  | [], _ => True
  | step :: steps, sched => step.Valid sched ∧
      ∀ sched', step.run undefined sched = .ok sched' → ValidSchedRun undefined steps sched'

/-- The switch passes the executing process as `cur`, saves its stack pointer in its own record, and
overwrites no other context. -/
def SuspendsOwn (undefined : Nat → Nat) (sched : Sched) : Prop :=
  ∀ switch, schedSwitch undefined sched = .ok switch →
    sched.running = sched.cpu.executing ∧
    (switch.next ≠ sched.running →
      (switch.sched.procs sched.cpu.executing).context = subU64 sched.cpu.rsp savedRegisters) ∧
    ∀ other, other ≠ sched.cpu.executing →
      (switch.sched.procs other).context = (sched.procs other).context

def SchedStep.Own (undefined : Nat → Nat) (sched : Sched) : SchedStep → Prop
  | .switch rsp => SuspendsOwn undefined (sched.enter rsp)
  | _ => True

/-- Every switch of the run suspends the executing process. -/
def SwitchesOwn (undefined : Nat → Nat) : List SchedStep → Sched → Prop
  | [], _ => True
  | step :: steps, sched => step.Own undefined sched ∧
      ∀ sched', step.run undefined sched = .ok sched' → SwitchesOwn undefined steps sched'

def SchedStep.IsSwitch : SchedStep → Prop
  | .switch _ => True
  | _ => False

/-- The run reaches a switch that returns. -/
def SwitchReached (undefined : Nat → Nat) : List SchedStep → Sched → Prop
  | [], _ => False
  | step :: steps, sched => ∃ sched', step.run undefined sched = .ok sched' ∧
      (step.IsSwitch ∨ SwitchReached undefined steps sched')

/-- Some node of the ring other than the running one is ready. -/
def RingReady (sched : Sched) : Prop :=
  ∃ nodes, sched.links.Holds sched.running nodes ∧
    ∃ node ∈ nodes, (sched.procs node).state = .ready

/-- A switch that meets a ready node is the last one that the run reaches. -/
def ReadyOnlyLast (undefined : Nat → Nat) : List SchedStep → Sched → Prop
  | [], _ => True
  | step :: steps, sched => ∀ sched', step.run undefined sched = .ok sched' →
      (step.IsSwitch → RingReady sched → ¬SwitchReached undefined steps sched') ∧
        ReadyOnlyLast undefined steps sched'

/-- The ring of the running process holds the head, or the head is unlinked for good. -/
structure SchedRing (sched : Sched) (nodes : List Nat) : Prop where
  holds : sched.links.Holds sched.running nodes
  bounded : ∀ node ∈ nodes, node < 2 ^ 64
  head : sched.scheduledProcs ∈ nodes ∨
    sched.scheduledProcs ∉ sched.running :: nodes ∧ sched.links.next sched.scheduledProcs = NULL
  headNonnull : sched.scheduledProcs ≠ NULL
  sleeper : sched.schedSchleeper = sched.running

theorem signalDeliver_context (undefined : Nat → Nat) (proc : Process) :
    (signalDeliver undefined proc).context = proc.context := by
  unfold signalDeliver
  dsimp only
  split_ifs <;> rfl

section
variable {cur next : Nat} {procs : Nat → Process} {cpu : Cpu}

/-- A switch between two processes saves the stack pointer in the first one. -/
theorem processSwitch_context (different : cur ≠ next) :
    ((processSwitch cur next procs cpu).1 cur).context = subU64 cpu.rsp savedRegisters := by
  rw [processSwitch, if_neg different]
  dsimp only
  rw [Function.update_self]

theorem processSwitch_other {other : Nat} (foreign : other ≠ cur) :
    (processSwitch cur next procs cpu).1 other = procs other := by
  unfold processSwitch
  split_ifs
  · rfl
  · exact Function.update_of_ne foreign _ _

theorem processSwitch_executing :
    (processSwitch cur next procs cpu).2.executing = if cur = next then cpu.executing else next := by
  unfold processSwitch
  split_ifs <;> rfl

end

section
variable {undefined : Nat → Nat} {sched sched' : Sched} {nodes : List Nat}

/-- A valid addition that returns keeps the ring. -/
theorem SchedRing.add (ring : SchedRing sched nodes) {proc : Nat}
    (valid : (SchedStep.add proc).Valid sched) (done : schedAdd proc sched = .ok sched') :
    (∃ nodes', SchedRing sched' nodes') ∧ sched'.running = sched.running ∧
      sched'.cpu = sched.cpu ∧ sched'.procs = sched.procs := by
  obtain ⟨nonnull, small, notHead, outside⟩ := valid
  rcases ring.head with member | ⟨-, unlinked⟩
  · obtain ⟨first, second, rfl⟩ := List.append_of_mem member
    have fresh : proc ∉ sched.scheduledProcs :: (second ++ sched.running :: first) := by
      have apart := outside _ ring.holds
      simp only [List.mem_cons, List.mem_append] at apart ⊢
      tauto
    obtain ⟨links, added, holds⟩ := schedAdd_holds ring.holds.rotate fresh nonnull
    obtain rfl := Except.ok.inj (done.symm.trans added)
    rw [← List.cons_append] at holds
    refine ⟨⟨_, holds.rotate, ?_, Or.inl (by simp), ring.headNonnull, ring.sleeper⟩, rfl, rfl, rfl⟩
    intro node inside
    by_cases same : node = proc
    · rw [same]
      exact small
    · apply ring.bounded
      simp only [List.mem_append, List.mem_cons] at inside ⊢
      tauto
  · simp [schedAdd, listAdd, listInsert, Links.readNext, Links.setPrev, ring.headNonnull, unlinked,
      bind, Except.bind] at done

/-- A switch keeps the ring, and it passes on a ready node exactly when the ring has one. -/
theorem SchedRing.switch (ring : SchedRing sched nodes) (undefined : Nat → Nat) :
    ∃ switch, schedSwitch undefined sched = .ok switch ∧
      (∃ nodes', SchedRing switch.sched nodes') ∧ switch.sched.running = sched.running ∧
      (RingReady sched ↔ switch.next ≠ sched.running) ∧
      ∃ procs, (switch.sched.procs, switch.sched.cpu) =
          processSwitch sched.running switch.next procs sched.cpu ∧
        ∀ node, (procs node).context = (sched.procs node).context := by
  obtain ⟨passed, rest, rfl, waits, found⟩ := split_at_ready sched.procs nodes
  obtain ⟨switch, switched, spec⟩ :=
    schedSwitch_spec undefined ring.holds ring.bounded waits found
  have apart := List.nodup_cons.mp ring.holds.distinct
  have kept : ∀ node ∈ survivors sched.procs passed ++ rest, node ∈ passed ++ rest := by
    intro node member
    rcases List.mem_append.mp member with inside | inside
    · exact List.mem_append_left _ (List.mem_filter.mp inside).1
    · exact List.mem_append_right _ inside
  refine ⟨switch, switched, ⟨_, ⟨spec.running.symm ▸ spec.ring, ?_, ?_, ?_, ?_⟩⟩, spec.running, ?_, ?_⟩
  · intro node member
    exact ring.bounded node (kept node member)
  · rw [spec.head, spec.running]
    rcases ring.head with member | ⟨outside, unlinked⟩
    · by_cases stays : sched.scheduledProcs ∈ survivors sched.procs passed ++ rest
      · exact Or.inl stays
      · right
        have gone : sched.scheduledProcs ∈ passed ∧
            (sched.procs sched.scheduledProcs).state = .zombie := by
          simp only [survivors, List.mem_append, List.mem_filter, ne_eq, decide_eq_true_eq, not_or,
            not_and, not_not] at stays
          rcases List.mem_append.mp member with inside | inside
          · exact ⟨inside, stays.1 inside⟩
          · exact absurd inside stays.2
        refine ⟨?_, (spec.cleared _ gone.1 gone.2).1⟩
        simp only [List.mem_cons, not_or]
        refine ⟨?_, stays⟩
        rintro same
        exact apart.1 (same ▸ member)
    · right
      refine ⟨?_, (spec.frame _ outside).trans unlinked⟩
      simp only [List.mem_cons, not_or] at outside ⊢
      exact ⟨outside.1, fun member => outside.2 (kept _ member)⟩
  · rw [spec.head]
    exact ring.headNonnull
  · rw [spec.schleeper, spec.running]
    exact ring.sleeper
  · rw [spec.next]
    constructor
    · rintro ⟨others, holds, node, member, ready⟩
      obtain rfl := holds.unique ring.holds
      cases rest with
      | nil =>
          rw [List.append_nil] at member
          exact absurd ready (waits node member)
      | cons first rest =>
          intro same
          have equal : first = sched.running := same
          exact apart.1 (equal ▸ by simp)
    · intro different
      cases rest with
      | nil => exact absurd ring.sleeper different
      | cons first rest => exact ⟨_, ring.holds, first, by simp, found first rfl⟩
  · refine ⟨_, spec.switched, ?_⟩
    intro node
    cases rest with
    | nil => rfl
    | cons first rest =>
        by_cases same : node = first
        · subst same
          simp [signalDeliver_context]
        · simp [same]

/-- A step other than a switch keeps the ring, the running process, and the processor. -/
theorem SchedRing.step (ring : SchedRing sched nodes) {step : SchedStep} (valid : step.Valid sched)
    (other : ¬step.IsSwitch) (done : step.run undefined sched = .ok sched') :
    (∃ nodes', SchedRing sched' nodes') ∧ sched'.running = sched.running ∧
      sched'.cpu = sched.cpu := by
  cases step with
  | add proc =>
      obtain ⟨ring', running, cpu, -⟩ := ring.add valid done
      exact ⟨ring', running, cpu⟩
  | rmv proc =>
      obtain rfl := Except.ok.inj done
      exact ⟨⟨nodes, ring.holds, ring.bounded, ring.head, ring.headNonnull, ring.sleeper⟩, rfl, rfl⟩
  | signal proc signum =>
      obtain rfl := Except.ok.inj done
      exact ⟨⟨nodes, ring.holds, ring.bounded, ring.head, ring.headNonnull, ring.sleeper⟩, rfl, rfl⟩
  | switch rsp => exact absurd trivial other

/-- A switch returns and keeps the ring, and the running process stays on the processor exactly
when no other node is ready. -/
theorem SchedRing.switch_step (ring : SchedRing sched nodes) (undefined : Nat → Nat) (rsp : Nat) :
    ∃ sched', (SchedStep.switch rsp).run undefined sched = .ok sched' ∧
      (∃ nodes', SchedRing sched' nodes') ∧ sched'.running = sched.running ∧
      (sched.cpu.executing = sched.running →
        SuspendsOwn undefined (sched.enter rsp) ∧
        (sched'.cpu.executing = sched'.running ↔ ¬RingReady sched)) := by
  have entered : SchedRing (sched.enter rsp) nodes :=
    ⟨ring.holds, ring.bounded, ring.head, ring.headNonnull, ring.sleeper⟩
  obtain ⟨switch, switched, ring', running, ready, procs, saved, contexts⟩ :=
    entered.switch undefined
  have runs : (SchedStep.switch rsp).run undefined sched = .ok switch.sched := by
    show (schedSwitch undefined (sched.enter rsp)).map Switch.sched = _
    rw [switched]
    rfl
  refine ⟨switch.sched, runs, ring', running, ?_⟩
  intro own
  have readyIff : RingReady sched ↔ switch.next ≠ sched.running := ready
  have procsAre := congrArg Prod.fst saved
  have cpuIs := congrArg Prod.snd saved
  dsimp only at procsAre cpuIs
  have entry : (sched.enter rsp).running = sched.running := rfl
  constructor
  · intro switch' switched'
    obtain rfl := Except.ok.inj (switched.symm.trans switched')
    refine ⟨own.symm, ?_, ?_⟩
    · intro moved
      have self : (sched.enter rsp).cpu.executing = (sched.enter rsp).running := own
      rw [self, procsAre, processSwitch_context (Ne.symm moved)]
    · intro other foreign
      have apart : other ≠ (sched.enter rsp).running := fun same => foreign (same.trans own.symm)
      rw [procsAre, processSwitch_other apart]
      exact contexts other
  · rw [readyIff, not_not, running, entry, cpuIs, processSwitch_executing, entry]
    split_ifs with stays
    · exact ⟨fun _ => stays.symm, fun _ => own⟩
    · exact Iff.rfl

/-- Once another process executes, every later switch suspends the wrong one. -/
theorem SchedRing.lost_iff {steps : List SchedStep} (ring : SchedRing sched nodes)
    (lost : sched.cpu.executing ≠ sched.running) (valid : ValidSchedRun undefined steps sched) :
    SwitchesOwn undefined steps sched ↔ ¬SwitchReached undefined steps sched := by
  induction steps generalizing sched nodes with
  | nil => simp [SwitchesOwn, SwitchReached]
  | cons step steps ih =>
      by_cases switching : step.IsSwitch
      · cases step with
        | switch rsp =>
            obtain ⟨sched', runs, -⟩ := ring.switch_step undefined rsp
            have entered : SchedRing (sched.enter rsp) nodes :=
              ⟨ring.holds, ring.bounded, ring.head, ring.headNonnull, ring.sleeper⟩
            obtain ⟨switch, switched, -⟩ := entered.switch undefined
            have reached : SwitchReached undefined (.switch rsp :: steps) sched :=
              ⟨sched', runs, Or.inl trivial⟩
            constructor
            · intro suspends
              exact absurd (suspends.1 switch switched).1.symm lost
            · intro never
              exact absurd reached never
        | add proc => exact absurd switching id
        | rmv proc => exact absurd switching id
        | signal proc signum => exact absurd switching id
      · have later : ∀ sched', step.run undefined sched = .ok sched' →
            (SwitchesOwn undefined steps sched' ↔ ¬SwitchReached undefined steps sched') := by
          intro sched' runs
          obtain ⟨⟨nodes', ring'⟩, running, cpu⟩ := ring.step valid.1 switching runs
          exact ih ring' (by rw [cpu, running]; exact lost) (valid.2 sched' runs)
        have own : step.Own undefined sched := by
          cases step with
          | switch rsp => exact absurd trivial switching
          | add proc => trivial
          | rmv proc => trivial
          | signal proc signum => trivial
        constructor
        · rintro ⟨-, suspends⟩ ⟨sched', runs, now | reached⟩
          · exact switching now
          · exact (later sched' runs).mp (suspends sched' runs) reached
        · intro never
          refine ⟨own, fun sched' runs => (later sched' runs).mpr ?_⟩
          intro reached
          exact never ⟨sched', runs, Or.inr reached⟩

end

/-- A run that reaches no switch has no switch before its last one. -/
theorem readyOnlyLast_of_not_reached {undefined : Nat → Nat} {steps : List SchedStep} {sched : Sched}
    (never : ¬SwitchReached undefined steps sched) : ReadyOnlyLast undefined steps sched := by
  induction steps generalizing sched with
  | nil => trivial
  | cons step steps ih =>
      intro sched' runs
      have later : ¬SwitchReached undefined steps sched' := fun reached =>
        never ⟨sched', runs, Or.inr reached⟩
      exact ⟨fun _ _ => later, ih later⟩

/-- While the running process executes, the switches suspend their own process exactly when only the
last one meets a ready node. -/
theorem SchedRing.own_iff {undefined : Nat → Nat} {steps : List SchedStep} {sched : Sched}
    {nodes : List Nat} (ring : SchedRing sched nodes) (own : sched.cpu.executing = sched.running)
    (valid : ValidSchedRun undefined steps sched) :
    SwitchesOwn undefined steps sched ↔ ReadyOnlyLast undefined steps sched := by
  induction steps generalizing sched nodes with
  | nil => simp [SwitchesOwn, ReadyOnlyLast]
  | cons step steps ih =>
      by_cases switching : step.IsSwitch
      · cases step with
        | switch rsp =>
            obtain ⟨sched', runs, ⟨nodes', ring'⟩, running, suspends⟩ :=
              ring.switch_step undefined rsp
            obtain ⟨suspended, stays⟩ := suspends own
            have only : ∀ other, (SchedStep.switch rsp).run undefined sched = .ok other →
                other = sched' := by
              intro other runs'
              exact Except.ok.inj (runs'.symm.trans runs)
            have valid' := valid.2 sched' runs
            have here : SwitchesOwn undefined (.switch rsp :: steps) sched ↔
                SwitchesOwn undefined steps sched' := by
              constructor
              · intro all
                exact all.2 sched' runs
              · intro rest
                refine ⟨suspended, fun other runs' => ?_⟩
                rw [only other runs']
                exact rest
            have there : ReadyOnlyLast undefined (.switch rsp :: steps) sched ↔
                (RingReady sched → ¬SwitchReached undefined steps sched') ∧
                  ReadyOnlyLast undefined steps sched' := by
              constructor
              · intro all
                exact ⟨(all sched' runs).1 trivial, (all sched' runs).2⟩
              · intro rest other runs'
                rw [only other runs']
                exact ⟨fun _ => rest.1, rest.2⟩
            rw [here, there]
            by_cases ready : RingReady sched
            · have lost : sched'.cpu.executing ≠ sched'.running := fun same => stays.mp same ready
              rw [ring'.lost_iff lost valid']
              exact ⟨fun never => ⟨fun _ => never, readyOnlyLast_of_not_reached never⟩,
                fun last => last.1 ready⟩
            · rw [ih ring' (stays.mpr ready) valid']
              exact ⟨fun last => ⟨fun now => absurd now ready, last⟩, fun last => last.2⟩
        | add proc => exact absurd switching id
        | rmv proc => exact absurd switching id
        | signal proc signum => exact absurd switching id
      · have later : ∀ sched', step.run undefined sched = .ok sched' →
            (SwitchesOwn undefined steps sched' ↔ ReadyOnlyLast undefined steps sched') := by
          intro sched' runs
          obtain ⟨⟨nodes', ring'⟩, running, cpu⟩ := ring.step valid.1 switching runs
          exact ih ring' (by rw [cpu, running]; exact own) (valid.2 sched' runs)
        have own' : step.Own undefined sched := by
          cases step with
          | switch rsp => exact absurd trivial switching
          | add proc => trivial
          | rmv proc => trivial
          | signal proc signum => trivial
        constructor
        · rintro ⟨-, suspends⟩ sched' runs
          exact ⟨fun now => absurd now switching, (later sched' runs).mp (suspends sched' runs)⟩
        · intro last
          exact ⟨own', fun sched' runs => (later sched' runs).mpr (last sched' runs).2⟩

/-- The boot process is alone in the ring that `sched_init` leaves. -/
theorem schedInit_ring {sched sched' : Sched} {boot : Nat}
    (empty : ListHeadInit sched.links sched.scheduledProcs)
    (valid : AddOrder sched.scheduledProcs [boot]) (started : schedInit boot sched = .ok sched') :
    SchedRing sched' [sched.scheduledProcs] ∧ sched'.running = boot ∧ sched'.cpu = sched.cpu := by
  have headNonnull : sched.scheduledProcs ≠ NULL := valid.nonnull _ (by simp)
  have fresh : boot ∉ [sched.scheduledProcs] := by
    have apart := (List.nodup_cons.mp valid.distinct).1
    simp only [List.mem_singleton] at apart ⊢
    exact fun same => apart same.symm
  obtain ⟨links, added, holds⟩ := @schedAdd_holds
    { sched with schedSchleeper := boot, running := boot } boot []
    (empty.holds headNonnull) fresh (valid.nonnull boot (by simp))
  obtain rfl := Except.ok.inj (started.symm.trans added)
  have ring : links.Holds sched.scheduledProcs ([] ++ boot :: []) := holds
  refine ⟨⟨ring.rotate, ?_, Or.inl (by simp), headNonnull, rfl⟩, rfl, rfl⟩
  intro node member
  obtain rfl := List.mem_singleton.mp member
  exact valid.bounded _ (by simp)

/-- In every run after the initialisation, every switch suspends the executing process exactly when
no switch after which another one is reached starts with a ready node in the ring. -/
theorem schedRun_own_iff (undefined : Nat → Nat) (steps : List SchedStep) (start sched : Sched)
    (boot : Nat) (empty : ListHeadInit start.links start.scheduledProcs)
    (valid : AddOrder start.scheduledProcs [boot]) (booted : start.cpu.executing = boot)
    (started : schedInit boot start = .ok sched) (validRun : ValidSchedRun undefined steps sched) :
    SwitchesOwn undefined steps sched ↔ ReadyOnlyLast undefined steps sched := by
  obtain ⟨ring, running, cpu⟩ := schedInit_ring empty valid started
  apply ring.own_iff _ validRun
  rw [cpu, running, booted]

/-- The boot process adds a ready process and switches to it once. -/
theorem schedRun_own_iff_once :
    ∃ sched, schedInit 16 bootSched = .ok sched ∧
      SwitchesOwn (fun _ => 0) [.add 32, .switch 0x9000] sched := by
  have empty : ListHeadInit bootSched.links bootSched.scheduledProcs := ⟨rfl, rfl⟩
  have valid : AddOrder bootSched.scheduledProcs [16] := ⟨by decide, by decide, by decide⟩
  obtain ⟨links, started, -⟩ := @schedAdd_holds bootSched 16 [] (empty.holds (by decide))
    (by decide) (by decide)
  obtain ⟨ring, -, -⟩ := schedInit_ring empty valid started
  have outside : (SchedStep.add 32).Valid { bootSched with links := links } := by
    have apart : 32 ≠ bootSched.scheduledProcs := by decide
    have foreign : 32 ∉ [bootSched.running, bootSched.scheduledProcs] := by decide
    refine ⟨by decide, by decide, apart, ?_⟩
    intro nodes holds
    rw [holds.unique ring.holds]
    exact foreign
  have validRun : ValidSchedRun (fun _ => 0) [.add 32, .switch 0x9000]
      { bootSched with links := links } :=
    ⟨outside, fun _ _ => ⟨trivial, fun _ _ => trivial⟩⟩
  refine ⟨_, started, (schedRun_own_iff _ _ bootSched _ 16 empty valid rfl started validRun).mpr ?_⟩
  intro sched added
  refine ⟨fun now => absurd now id, ?_⟩
  intro sched' switched
  exact ⟨fun _ _ => id, trivial⟩

/-- The second switch suspends the process at 32 under the name of the boot process. -/
theorem schedRun_suspends_other :
    ∃ sched, schedInit 16 bootSched = .ok sched ∧
      ¬SwitchesOwn (fun _ => 0) [.add 32, .switch 0x9000, .switch 0x8000] sched := by
  have evaluated : (do
      let sched ← schedInit 16 bootSched
      let sched ← (SchedStep.add 32).run (fun _ => 0) sched
      let sched ← (SchedStep.switch 0x9000).run (fun _ => 0) sched
      let _ ← schedSwitch (fun _ => 0) (sched.enter 0x8000)
      Except.ok (sched.running, sched.cpu.executing) : Outcome (Nat × Nat)) = .ok (16, 32) := by
    decide +kernel
  obtain ⟨booted, started, rest⟩ := Outcome.bind_eq_ok.mp evaluated
  obtain ⟨joined, added, rest⟩ := Outcome.bind_eq_ok.mp rest
  obtain ⟨lost, switched, rest⟩ := Outcome.bind_eq_ok.mp rest
  obtain ⟨switch, suspended, rest⟩ := Outcome.bind_eq_ok.mp rest
  have names := Prod.mk.inj (Except.ok.inj rest)
  refine ⟨booted, started, ?_⟩
  rintro ⟨-, all⟩
  have own := (((all joined added).2 lost switched).1 switch suspended).1
  have same : lost.running = lost.cpu.executing := own
  rw [names.1, names.2] at same
  cases same

end B0s
