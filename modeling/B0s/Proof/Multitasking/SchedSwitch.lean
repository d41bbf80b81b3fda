import B0s.Proof.Multitasking.SchedWalk

/-
This file settles when one switch of the scheduler treats the ring as a ring of processes.
-/

namespace B0s
open DoublyLinked

/-- These processes join the scheduler in the order of the list. -/
def schedAddAll : List Nat → Sched → Outcome Sched
  | [], sched => .ok sched
  | proc :: procs, sched => schedAdd proc sched >>= schedAddAll procs

/-- The nodes of the processes and the head of the ring are distinct addresses. -/
structure AddOrder (head : Nat) (order : List Nat) : Prop where
  distinct : (head :: order).Nodup
  nonnull : ∀ node ∈ head :: order, node ≠ NULL
  bounded : ∀ node ∈ head :: order, node < 2 ^ 64

/-- Adding a process puts it behind the head and changes nothing else. -/
theorem schedAdd_holds {sched : Sched} {proc : Nat} {nodes : List Nat}
    (holds : sched.links.Holds sched.scheduledProcs nodes)
    (fresh : proc ∉ sched.scheduledProcs :: nodes) (nonnull : proc ≠ NULL) :
    ∃ links, schedAdd proc sched = .ok { sched with links := links } ∧
      links.Holds sched.scheduledProcs (proc :: nodes) := by
  obtain ⟨links, added, holds', -⟩ := listAdd_holds holds fresh nonnull
  refine ⟨links, ?_, holds'⟩
  simp only [schedAdd, added, bind, Except.bind]

/-- The ring lists the processes in the reverse order of their addition. -/
theorem schedAddAll_holds {sched : Sched} {order nodes : List Nat}
    (holds : sched.links.Holds sched.scheduledProcs nodes)
    (distinct : (sched.scheduledProcs :: (order.reverse ++ nodes)).Nodup)
    (nonnull : ∀ node ∈ order, node ≠ NULL) :
    ∃ links, schedAddAll order sched = .ok { sched with links := links } ∧
      links.Holds sched.scheduledProcs (order.reverse ++ nodes) := by
  induction order generalizing sched nodes with
  | nil => exact ⟨sched.links, rfl, holds⟩
  | cons proc order ih =>
      rw [List.reverse_cons, List.append_assoc, List.singleton_append] at distinct ⊢
      have fresh : proc ∉ sched.scheduledProcs :: nodes := by
        have middle := @List.perm_middle _ proc (sched.scheduledProcs :: order.reverse) nodes
        have apart := (List.nodup_cons.mp (middle.nodup_iff.mp distinct)).1
        simp only [List.cons_append, List.mem_cons, List.mem_append] at apart ⊢
        tauto
      obtain ⟨links, added, holds'⟩ := schedAdd_holds holds fresh (nonnull proc (by simp))
      obtain ⟨links', rest, holds''⟩ := @ih { sched with links := links } (proc :: nodes) holds' distinct
        fun node member => nonnull node (by simp [member])
      refine ⟨links', ?_, holds''⟩
      simp only [schedAddAll, added, bind, Except.bind]
      exact rest

/-- The switch examines only added processes and each at most once, unlinks exactly the zombies
among them, and passes on the first ready process behind the running one or the sleeper. -/
def SwitchCorrect (undefined : Nat → Nat) (sched : Sched) (earlier later : List Nat) : Prop :=
  ∃ switch, schedSwitch undefined sched = .ok switch ∧
    (∀ node ∈ switch.examined, node ∈ earlier ++ sched.running :: later) ∧
    switch.examined.Nodup ∧
    switch.sched.links.Holds sched.scheduledProcs
      ((earlier ++ sched.running :: later).reverse.filter fun node =>
        ¬(node ∈ switch.examined ∧ (sched.procs node).state = .zombie)) ∧
    (∀ node ∈ switch.examined, (sched.procs node).state = .zombie →
      switch.sched.links.next node = NULL ∧ switch.sched.links.prev node = NULL) ∧
    switch.next = ((earlier.reverse ++ later.reverse).find? fun node =>
      (sched.procs node).state = .ready).getD sched.schedSchleeper

section
variable {undefined : Nat → Nat} {sched : Sched} {earlier later : List Nat}

/-- The ring behind the running process passes the earlier processes, the head, and the later ones. -/
theorem behind_running (holds : sched.links.Holds sched.scheduledProcs
      (earlier ++ sched.running :: later).reverse) :
    sched.links.Holds sched.running
      (earlier.reverse ++ sched.scheduledProcs :: later.reverse) := by
  rw [List.reverse_append, List.reverse_cons, List.append_assoc, List.singleton_append] at holds
  exact holds.rotate

/-- A ready process before the head lets the walk end before the head. -/
theorem switchCorrect_of_ready
    (holds : sched.links.Holds sched.scheduledProcs (earlier ++ sched.running :: later).reverse)
    (bounded : ∀ node ∈ sched.scheduledProcs :: (earlier ++ later), node < 2 ^ 64)
    (ready : ∃ proc ∈ earlier, (sched.procs proc).state = .ready) :
    SwitchCorrect undefined sched earlier later := by
  have behind := behind_running holds
  obtain ⟨passed, rest, split, waits, found⟩ := split_at_ready sched.procs earlier.reverse
  cases rest with
  | nil =>
      obtain ⟨proc, member, isReady⟩ := ready
      rw [List.append_nil] at split
      exact absurd isReady (waits proc (split ▸ List.mem_reverse.mpr member))
  | cons first rest =>
      have firstReady : (sched.procs first).state = .ready := found first rfl
      rw [split, List.append_assoc, List.cons_append] at behind
      have small : ∀ node ∈ passed ++ (first :: (rest ++ sched.scheduledProcs :: later.reverse)),
          node < 2 ^ 64 := by
        intro node member
        apply bounded
        have inside : node ∈ earlier.reverse ++ sched.scheduledProcs :: later.reverse := by
          rw [split]
          simpa using member
        simp only [List.mem_append, List.mem_cons, List.mem_reverse] at inside ⊢
        tauto
      obtain ⟨switch, switched, spec⟩ :=
        schedSwitch_spec undefined behind small waits fun node head => by
          obtain rfl : first = node := by simpa using head
          exact firstReady
      have seen : switch.examined = passed ++ [first] := spec.examined
      have listed : earlier.reverse = (passed ++ [first]) ++ rest := by simp [split]
      have regrouped : passed ++ first :: (rest ++ sched.scheduledProcs :: later.reverse) =
          (passed ++ [first]) ++ (rest ++ sched.scheduledProcs :: later.reverse) := by simp
      have distinct := behind.distinct
      rw [regrouped] at distinct
      have apart := List.nodup_append.mp (List.nodup_cons.mp distinct).2
      have unseen : ∀ node ∈ rest ++ sched.scheduledProcs :: later.reverse, node ∉ switch.examined := by
        intro node member inside
        rw [seen] at inside
        exact apart.2.2 node inside node member rfl
      have runningUnseen : sched.running ∉ switch.examined := by
        rw [seen]
        exact fun inside => (List.nodup_cons.mp distinct).1 (List.mem_append_left _ inside)
      refine ⟨switch, switched, ?_, ?_, ?_, ?_, ?_⟩
      · intro node member
        have inside : node ∈ earlier.reverse := by
          rw [listed, ← seen]
          exact List.mem_append_left _ member
        exact List.mem_append_left _ (List.mem_reverse.mp inside)
      · rw [seen]
        exact apart.1
      · have kept : (earlier ++ sched.running :: later).reverse.filter (fun node =>
              ¬(node ∈ switch.examined ∧ (sched.procs node).state = .zombie)) =
            later.reverse ++ sched.running :: (survivors sched.procs passed ++ first :: rest) := by
          have laterKept : later.reverse.filter (fun node =>
              ¬(node ∈ switch.examined ∧ (sched.procs node).state = .zombie)) = later.reverse := by
            rw [List.filter_eq_self]
            intro node member
            simp [unseen node (by simp [List.mem_reverse.mp member])]
          have restKept : rest.filter (fun node =>
              ¬(node ∈ switch.examined ∧ (sched.procs node).state = .zombie)) = rest := by
            rw [List.filter_eq_self]
            intro node member
            simp [unseen node (by simp [member])]
          have passedKept : passed.filter (fun node =>
              ¬(node ∈ switch.examined ∧ (sched.procs node).state = .zombie)) =
                survivors sched.procs passed := by
            apply List.filter_congr
            intro node member
            simp [seen, member]
          rw [List.reverse_append, List.reverse_cons, split, List.append_assoc,
            List.singleton_append, List.filter_append, laterKept, List.filter_cons,
            List.filter_append, passedKept, List.filter_cons, restKept]
          simp [runningUnseen, firstReady]
        rw [kept]
        have ring' : switch.sched.links.Holds sched.running
            ((survivors sched.procs passed ++ first :: rest) ++
              sched.scheduledProcs :: later.reverse) := by simpa using spec.ring
        exact ring'.rotate
      · intro node member zombie
        rw [seen] at member
        rcases List.mem_append.mp member with inside | single
        · exact spec.cleared node inside zombie
        · obtain rfl := List.mem_singleton.mp single
          rw [firstReady] at zombie
          cases zombie
      · have none : passed.find? (fun node => (sched.procs node).state = .ready) = none := by
          rw [List.find?_eq_none]
          intro node member
          have waiting : (sched.procs node).state ≠ .ready := waits node member
          simpa using waiting
        rw [spec.next, split, List.append_assoc, List.find?_append, none]
        simp [firstReady]

/-- Without a ready process before the head the walk examines the head. -/
theorem not_switchCorrect_of_waits
    (holds : sched.links.Holds sched.scheduledProcs (earlier ++ sched.running :: later).reverse)
    (bounded : ∀ node ∈ sched.scheduledProcs :: (earlier ++ later), node < 2 ^ 64)
    (waiting : ∀ proc ∈ earlier, (sched.procs proc).state ≠ .ready) :
    ¬SwitchCorrect undefined sched earlier later := by
  have behind := behind_running holds
  obtain ⟨passed, rest, split, waits, found⟩ :=
    split_at_ready sched.procs (sched.scheduledProcs :: later.reverse)
  rw [split, ← List.append_assoc] at behind
  have small : ∀ node ∈ (earlier.reverse ++ passed) ++ rest, node < 2 ^ 64 := by
    intro node member
    apply bounded
    rw [List.append_assoc, ← split] at member
    simp only [List.mem_append, List.mem_cons, List.mem_reverse] at member ⊢
    tauto
  have allWait : ∀ node ∈ earlier.reverse ++ passed, Waits sched.procs node := by
    intro node member
    rcases List.mem_append.mp member with inside | inside
    · exact waiting node (List.mem_reverse.mp inside)
    · exact waits node inside
  obtain ⟨switch, switched, spec⟩ :=
    schedSwitch_spec undefined behind small allWait found
  have headSeen : sched.scheduledProcs ∈ switch.examined := by
    rw [spec.examined]
    cases passed with
    | nil =>
        rw [List.nil_append] at split
        simp [← split]
    | cons node passed =>
        obtain rfl : sched.scheduledProcs = node := (List.cons.inj split).1
        simp
  rintro ⟨other, switched', inside, -⟩
  obtain rfl := Except.ok.inj (switched.symm.trans switched')
  have listed := inside _ headSeen
  exact (List.nodup_cons.mp holds.distinct).1 (List.mem_reverse.mpr listed)

end

/-- The head of an empty list points to itself. -/
structure ListHeadInit (links : Links) (head : Nat) : Prop where
  next : links.next head = head
  prev : links.prev head = head

theorem ListHeadInit.holds {links : Links} {head : Nat} (empty : ListHeadInit links head)
    (nonnull : head ≠ NULL) : links.Holds head [] :=
  ⟨⟨empty.next, empty.prev, trivial⟩, by simp, by simpa using nonnull⟩

/-- For every order of additions, every running process, and every states, one switch is correct
exactly when a process added before the running one is ready. -/
theorem schedSwitch_correct_iff (undefined : Nat → Nat) (sched sched' : Sched)
    (earlier later : List Nat) (current : Nat)
    (empty : ListHeadInit sched.links sched.scheduledProcs)
    (valid : AddOrder sched.scheduledProcs (earlier ++ current :: later))
    (added : schedAddAll (earlier ++ current :: later) sched = .ok sched') :
    SwitchCorrect undefined { sched' with running := current } earlier later ↔
      ∃ proc ∈ earlier, (sched.procs proc).state = .ready := by
  have start := empty.holds (valid.nonnull _ (by simp))
  have distinct : (sched.scheduledProcs ::
      ((earlier ++ current :: later).reverse ++ [])).Nodup := by
    rw [List.append_nil]
    have same : (sched.scheduledProcs :: (earlier ++ current :: later).reverse).Perm
        (sched.scheduledProcs :: (earlier ++ current :: later)) := by
      exact List.Perm.cons _ (List.reverse_perm _)
    exact same.nodup_iff.mpr valid.distinct
  obtain ⟨links, added', holds⟩ := schedAddAll_holds start distinct fun node member =>
    valid.nonnull node (by simp [member])
  obtain rfl := Except.ok.inj (added.symm.trans added')
  rw [List.append_nil] at holds
  have bounded : ∀ node ∈ sched.scheduledProcs :: (earlier ++ later), node < 2 ^ 64 := by
    intro node member
    apply valid.bounded
    simp only [List.mem_cons, List.mem_append] at member ⊢
    tauto
  constructor
  · intro correct
    by_contra waiting
    push Not at waiting
    have wrong : ¬SwitchCorrect undefined { sched with links := links, running := current } earlier later :=
      not_switchCorrect_of_waits holds bounded waiting
    exact wrong correct
  · intro ready
    have right : SwitchCorrect undefined { sched with links := links, running := current } earlier later :=
      switchCorrect_of_ready holds bounded ready
    exact right

/-- This record has no signals, no handlers, and an unused stack. -/
def idleProcess (state : ProcessState) : Process :=
  ⟨state, 0, 0, 0, fun _ => 0, 0, ⟨0, 0⟩, ⟨0, 0⟩, 0⟩

/-- Every node is alone, the process at 32 is ready, and the boot process at 16 runs. -/
def bootSched : Sched where
  links := ⟨fun node => node, fun node => node⟩
  procs node := idleProcess (if node = 32 then .ready else .running)
  scheduledProcs := 8
  running := 16
  schedSchleeper := 16
  cpu := ⟨0x9000, 0, 0, 16⟩

/-- The process at 48 runs between two others, and the one added first is ready. -/
theorem schedSwitch_correct_iff_middle :
    ∃ sched', schedAddAll [32, 48, 64] bootSched = .ok sched' ∧
      SwitchCorrect (fun _ => 0) { sched' with running := 48 } [32] [64] := by
  have empty : ListHeadInit bootSched.links bootSched.scheduledProcs := ⟨rfl, rfl⟩
  have valid : AddOrder bootSched.scheduledProcs ([32] ++ 48 :: [64]) :=
    ⟨by decide, by decide, by decide⟩
  obtain ⟨links, added, -⟩ := @schedAddAll_holds bootSched [32, 48, 64] [] (empty.holds (by decide))
    (by decide) (by decide)
  exact ⟨_, added, (schedSwitch_correct_iff _ _ _ [32] [64] 48 empty valid added).mpr
    ⟨32, by decide, by decide⟩⟩

/-- After the boot process has added one ready process, its first switch examines the head. -/
theorem schedSwitch_examines_head :
    ∃ sched', (schedInit 16 bootSched >>= schedAdd 32) = .ok sched' ∧
      ¬SwitchCorrect (fun _ => 0) sched' [] [32] := by
  have empty : ListHeadInit bootSched.links bootSched.scheduledProcs := ⟨rfl, rfl⟩
  obtain ⟨links, added, holds⟩ := @schedAddAll_holds bootSched [16, 32] [] (empty.holds (by decide))
    (by decide) (by decide)
  have bounded : ∀ node ∈ bootSched.scheduledProcs :: ([] ++ [32]), node < 2 ^ 64 := by decide
  have same : (schedInit 16 bootSched >>= schedAdd 32) = schedAddAll [16, 32] bootSched := by
    rfl
  refine ⟨_, same.trans added, not_switchCorrect_of_waits holds bounded (by simp)⟩

end B0s
