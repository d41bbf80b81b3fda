import B0s.Proof.Lib.List
import B0s.Construction.Multitasking.Sched

/-
This file proves what the walk of `sched_switch` examines, unlinks, and finds on a ring.
-/

namespace B0s
open DoublyLinked

/-- The walk passes a node that is not ready. -/
def Waits (procs : Nat → Process) (node : Nat) : Prop := (procs node).state ≠ .ready

/-- The nodes that a walk leaves in the ring are those that are no zombies. -/
def survivors (procs : Nat → Process) (nodes : List Nat) : List Nat :=
  nodes.filter fun node => (procs node).state ≠ .zombie

/-- A list of nodes splits at its first ready node. -/
theorem split_at_ready (procs : Nat → Process) (nodes : List Nat) :
    ∃ passed rest, nodes = passed ++ rest ∧ (∀ node ∈ passed, Waits procs node) ∧
      ∀ node, rest.head? = some node → (procs node).state = .ready := by
  induction nodes with
  | nil => exact ⟨[], [], rfl, by simp, by simp⟩
  | cons node nodes ih =>
      by_cases ready : (procs node).state = .ready
      · exact ⟨[], node :: nodes, rfl, by simp, by simp [ready]⟩
      · obtain ⟨passed, rest, split, waits, found⟩ := ih
        refine ⟨node :: passed, rest, by simp [split], ?_, found⟩
        intro other member
        rcases List.mem_cons.mp member with rfl | inside
        · exact ready
        · exact waits other inside

/-- The walk examines the nodes up to the first ready one and unlinks the zombies among them. -/
theorem schedWalk_spec {procs : Nat → Process} {running : Nat} {links : Links}
    {kept passed rest : List Nat} {steps : Nat}
    (holds : links.Holds running (kept ++ (passed ++ rest)))
    (waits : ∀ node ∈ passed, Waits procs node)
    (found : ∀ node, rest.head? = some node → (procs node).state = .ready)
    (enough : passed.length < steps) :
    ∃ links', schedWalk procs running steps ((passed ++ rest).headD running)
        (links.next ((passed ++ rest).headD running)) links =
        .ok (passed ++ rest.head?.toList, rest.head?, links') ∧
      links'.Holds running (kept ++ (survivors procs passed ++ rest)) ∧
      (∀ node ∈ passed, (procs node).state = .zombie →
        links'.next node = NULL ∧ links'.prev node = NULL) ∧
      ∀ other ∉ running :: (kept ++ (passed ++ rest)),
        links'.next other = links.next other ∧ links'.prev other = links.prev other := by
  induction passed generalizing kept links steps with
  | nil =>
      obtain ⟨steps, rfl⟩ := Nat.exists_eq_succ_of_ne_zero (Nat.ne_of_gt enough)
      refine ⟨links, ?_, holds, by simp, fun _ _ => ⟨rfl, rfl⟩⟩
      cases rest with
      | nil => simp [schedWalk]
      | cons node rest =>
          have different : node ≠ running := by
            rintro rfl
            exact (List.nodup_cons.mp holds.distinct).1 (by simp)
          have ready := found node rfl
          simp [schedWalk, different, ready]
  | cons node passed ih =>
      obtain ⟨steps, rfl⟩ := Nat.exists_eq_succ_of_ne_zero (Nat.ne_of_gt (Nat.zero_lt_of_lt enough))
      have different : node ≠ running := by
        rintro rfl
        exact (List.nodup_cons.mp holds.distinct).1 (by simp)
      have waiting : (procs node).state ≠ .ready := waits node (by simp)
      have next : links.next node = (passed ++ rest).headD running := holds.ring.linked.links_at.1
      have others : ∀ other ∈ passed, Waits procs other := fun other member =>
        waits other (by simp [member])
      have short := Nat.lt_of_succ_lt_succ enough
      have nonnull : (passed ++ rest).headD running ≠ NULL := by
        apply holds.nonnull
        rcases List.mem_cons.mp (headD_mem_cons (passed ++ rest) running) with same | inside
        · rw [same]
          exact List.mem_cons_self
        · simp only [List.mem_cons, List.mem_append] at inside ⊢
          tauto
      rw [List.cons_append, List.headD_cons, schedWalk, if_neg different, if_neg waiting, next]
      by_cases zombie : (procs node).state = .zombie
      · obtain ⟨middle, deleted, holds', nextNull, prevNull, frame⟩ := listDel_holds holds
        obtain ⟨links', walked, ring, cleared, frame'⟩ := ih holds' others short
        have gone : node ∉ running :: (kept ++ (passed ++ rest)) := by
          have order := @List.perm_middle _ node (running :: kept) (passed ++ rest)
          exact (List.nodup_cons.mp (order.nodup_iff.mp holds.distinct)).1
        refine ⟨links', ?_, ?_, ?_, ?_⟩
        · simp only [if_pos zombie, deleted, Links.readNext, if_neg nonnull, walked, bind, Except.bind]
          rfl
        · simpa [survivors, zombie] using ring
        · intro other member isZombie
          rcases List.mem_cons.mp member with rfl | inside
          · rw [(frame' other gone).1, (frame' other gone).2]
            exact ⟨nextNull, prevNull⟩
          · exact cleared other inside isZombie
        · intro other foreign
          have outside : other ∉ running :: (kept ++ (passed ++ rest)) := by
            simp only [List.mem_cons, List.mem_append] at foreign ⊢
            tauto
          rw [(frame' other outside).1, (frame' other outside).2]
          exact frame other foreign
      · have holds' : links.Holds running ((kept ++ [node]) ++ (passed ++ rest)) := by
          simpa using holds
        obtain ⟨links', walked, ring, cleared, frame⟩ := ih holds' others short
        refine ⟨links', ?_, ?_, ?_, ?_⟩
        · simp only [if_neg zombie, Links.readNext, if_neg nonnull, walked, bind, Except.bind]
          rfl
        · simpa [survivors, zombie] using ring
        · intro other member isZombie
          rcases List.mem_cons.mp member with rfl | inside
          · exact absurd isZombie zombie
          · exact cleared other inside isZombie
        · intro other foreign
          apply frame
          simpa using foreign

/-- The addresses of a ring are too few for its walk to exceed the limit. -/
theorem Links.Holds.length_lt {links : Links} {anchor : Nat} {nodes : List Nat}
    (holds : links.Holds anchor nodes) (bounded : ∀ node ∈ nodes, node < 2 ^ 64) :
    nodes.length < walkLimit := by
  have distinct := (List.nodup_cons.mp holds.distinct).2
  have inside : nodes.toFinset ⊆ Finset.Ico 1 (2 ^ 64) := by
    intro node member
    have listed := List.mem_toFinset.mp member
    have nonnull : node ≠ 0 := holds.nonnull node (List.mem_cons_of_mem _ listed)
    have bound := bounded node listed
    rw [Finset.mem_Ico]
    omega
  have count := Finset.card_le_card inside
  rw [List.toFinset_card_of_nodup distinct, Nat.card_Ico] at count
  unfold walkLimit
  omega

/-- A switch examines the ring behind the running process up to its first ready node. -/
structure Switched (undefined : Nat → Nat) (sched : Sched) (passed rest : List Nat) (switch : Switch) :
    Prop where
  examined : switch.examined = passed ++ rest.head?.toList
  next : switch.next = rest.head?.getD sched.schedSchleeper
  ring : switch.sched.links.Holds sched.running (survivors sched.procs passed ++ rest)
  cleared : ∀ node ∈ passed, (sched.procs node).state = .zombie →
    switch.sched.links.next node = NULL ∧ switch.sched.links.prev node = NULL
  frame : ∀ other ∉ sched.running :: (passed ++ rest),
    switch.sched.links.next other = sched.links.next other
  running : switch.sched.running = sched.running
  schleeper : switch.sched.schedSchleeper = sched.schedSchleeper
  head : switch.sched.scheduledProcs = sched.scheduledProcs
  switched : (switch.sched.procs, switch.sched.cpu) = processSwitch sched.running switch.next
    (match rest.head? with
      | some proc => Function.update sched.procs proc (signalDeliver undefined (sched.procs proc))
      | none => sched.procs) sched.cpu

theorem schedSwitch_spec (undefined : Nat → Nat) {sched : Sched} {passed rest : List Nat}
    (holds : sched.links.Holds sched.running (passed ++ rest))
    (bounded : ∀ node ∈ passed ++ rest, node < 2 ^ 64)
    (waits : ∀ node ∈ passed, Waits sched.procs node)
    (found : ∀ node, rest.head? = some node → (sched.procs node).state = .ready) :
    ∃ switch, schedSwitch undefined sched = .ok switch ∧
      Switched undefined sched passed rest switch := by
  have start : sched.links.Holds sched.running ([] ++ (passed ++ rest)) := holds
  have limit : passed.length < walkLimit := by
    have length := holds.length_lt bounded
    rw [List.length_append] at length
    omega
  obtain ⟨links', walked, ring, cleared, frame⟩ := schedWalk_spec start waits found limit
  have nextFrame := fun other foreign => (frame other foreign).1
  have runningNonnull : sched.running ≠ NULL := holds.nonnull _ (by simp)
  have nextNonnull := holds.headD_ne_null
  unfold schedSwitch
  simp only [Links.readNext, if_neg runningNonnull, holds.ring.forth, if_neg nextNonnull, walked, bind,
    Except.bind]
  cases rest with
  | nil => exact ⟨_, rfl, rfl, rfl, ring, cleared, nextFrame, rfl, rfl, rfl, rfl⟩
  | cons node rest => exact ⟨_, rfl, rfl, rfl, ring, cleared, nextFrame, rfl, rfl, rfl, rfl⟩

end B0s
