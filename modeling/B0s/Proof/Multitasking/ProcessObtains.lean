import B0s.Proof.Multitasking.RecordFill

/-
This file proves what `process_create` has obtained when it fills a record.
-/

namespace B0s
open ByteMemory

namespace ProcessRecord

section
variable {σ : Type} (alloc : KernelAllocator σ) (source : HeapPages (Kernel σ)) (unassigned : Nat)
variable (statics : ProcessStatics) (call : ProcessCall)

/-- The calls of `process_create` in front of the fill get a record, a stack, and a space with a user stack. -/
structure Obtains (kheap : Kheap (Kernel σ)) (proc stack created : Nat) (grown taken : Kheap (Kernel σ))
    (env : Kernel σ) : Prop where
  record : kmalloc source sizeofProcess kheap = .ok (proc, grown)
  nonnull : proc ≠ NULL
  kstack : kmalloc source processKernelStackSize grown = .ok (stack, taken)
  stackNonnull : stack ≠ NULL
  space : ∃ env1 env2 ustack, vmmCreateSpace alloc 0x1000 lowerHalfStop taken.env = .ok (created, env1) ∧
    u64 created ≠ NULL ∧ vmmCopyRegions alloc (u64 created) statics.kspace env1 = .ok env2 ∧
    vmmAllocAt alloc (u64 created) 0xf000 8 pageUserRw env2 = .ok (ustack, env) ∧ ustack ≠ NULL

/-- The call gets a process when it has a parent, when a pid is left, and when its allocations succeed. -/
def Granted (kheap : Kheap (Kernel σ)) : Prop :=
  call.parent ≠ NULL ∧ (∃ result, processGetUnusedPid unassigned ⟨statics.pidBitmap, kheap.mem, []⟩ = .ok result) ∧
    ∃ proc stack created grown taken env, Obtains alloc source statics kheap proc stack created grown taken env

/-- The memory in front of the fill. -/
def readyMemory (proc stack created : Nat) (mem : Memory) : Memory :=
  storeU64 (space proc) created (storeU64 (space proc) statics.kspace (storeU64 (kstack proc) stack mem))

end

section
variable {σ : Type} {alloc : KernelAllocator σ} {source : HeapPages (Kernel σ)} {tables : Translation} {unassigned : Nat}
variable {statics : ProcessStatics} {call : ProcessCall} {kheap grown taken next : Kheap (Kernel σ)} {env : Kernel σ}
variable {proc stack created : Nat}

/-- The paths that give the record back return null. -/
theorem failKstack_null {source : PageSource (Kernel σ)} (freed : failKstack source proc kheap = .ok (stack, next)) :
    stack = NULL := by
  obtain ⟨kheap', -, rest⟩ := Outcome.bind_eq_ok.mp freed
  exact (congrArg Prod.fst (Except.ok.inj rest)).symm

theorem failVmm_null {source : PageSource (Kernel σ)} (freed : failVmm source proc kheap = .ok (stack, next)) :
    stack = NULL := by
  obtain ⟨kheap', -, rest⟩ := Outcome.bind_eq_ok.mp freed
  exact failKstack_null rest

theorem failUstack_null {source : PageSource (Kernel σ)} (freed : failUstack alloc source proc kheap = .ok (stack, next)) :
    stack = NULL := by
  obtain ⟨env, -, rest⟩ := Outcome.bind_eq_ok.mp freed
  exact failVmm_null rest

/-- With its allocations the call fills the record. -/
theorem processCreate_filled (obtains : Obtains alloc source statics kheap proc stack created grown taken env)
    (small : stack < 2 ^ 64) : processCreate alloc source.toPageSource tables unassigned statics call kheap =
      (fillRecord tables unassigned statics call proc (readyMemory statics proc stack created taken.mem)).map
        fun mem => (proc, ⟨taken.heap, mem, env⟩) := by
  obtain ⟨record, nonnull, stacked, stackNonnull, env1, env2, ustack, space, spaceNonnull, copied, mapped, ustackNonnull⟩ :=
    obtains
  have stackAt : loadU64 (storeU64 (kstack proc) stack taken.mem) (kstack proc) ≠ NULL := by
    rw [loadU64_stored, u64, Nat.mod_eq_of_lt small]
    exact stackNonnull
  have spaceAt := loadU64_stored (ProcessRecord.space proc) created
    (storeU64 (ProcessRecord.space proc) statics.kspace (storeU64 (kstack proc) stack taken.mem))
  unfold processCreate setField
  rw [record]
  simp only [bind, Except.bind, if_neg nonnull, stacked, if_neg stackAt, space, spaceAt, if_neg spaceNonnull, copied,
    mapped, if_neg ustackNonnull]
  unfold readyMemory
  cases fillRecord tables unassigned statics call proc (storeU64 (ProcessRecord.space proc) created
    (storeU64 (ProcessRecord.space proc) statics.kspace (storeU64 (kstack proc) stack taken.mem))) with
  | error fault => rfl
  | ok mem => rfl

/-- A call that gets a process has made all calls in front of the fill. -/
theorem processCreate_split {source : PageSource (Kernel σ)}
    (ran : processCreate alloc source tables unassigned statics call kheap = .ok (proc, next)) (nonnull : proc ≠ NULL) :
    ∃ grown taken stack created env1 env2 ustack, kmalloc source sizeofProcess kheap = .ok (proc, grown) ∧
      kmalloc source processKernelStackSize grown = .ok (stack, taken) ∧ u64 stack ≠ NULL ∧
      vmmCreateSpace alloc 0x1000 lowerHalfStop taken.env = .ok (created, env1) ∧ u64 created ≠ NULL ∧
      vmmCopyRegions alloc (u64 created) statics.kspace env1 = .ok env2 ∧
      vmmAllocAt alloc (u64 created) 0xf000 8 pageUserRw env2 = .ok (ustack, next.env) ∧ ustack ≠ NULL := by
  unfold processCreate setField at ran
  rcases record : kmalloc source sizeofProcess kheap with fault | ⟨got, grown⟩
  · simp only [record, bind, Except.bind, reduceCtorEq] at ran
  by_cases null : got = NULL
  · simp only [record, bind, Except.bind, if_pos null, Except.ok.injEq, Prod.mk.injEq] at ran
    exact absurd ran.1.symm nonnull
  rcases stacked : kmalloc source processKernelStackSize grown with fault | ⟨stack, taken⟩
  · simp only [record, bind, Except.bind, if_neg null, stacked, reduceCtorEq] at ran
  have stackAt := loadU64_stored (kstack got) stack taken.mem
  by_cases stackNull : u64 stack = NULL
  · simp only [record, bind, Except.bind, if_neg null, stacked, stackAt, if_pos stackNull] at ran
    exact absurd (failKstack_null ran) nonnull
  rcases space : vmmCreateSpace alloc 0x1000 lowerHalfStop taken.env with fault | ⟨created, env1⟩
  · simp only [record, bind, Except.bind, if_neg null, stacked, stackAt, if_neg stackNull, space, reduceCtorEq] at ran
  have spaceAt := loadU64_stored (ProcessRecord.space got) created
    (storeU64 (ProcessRecord.space got) statics.kspace (storeU64 (kstack got) stack taken.mem))
  simp only [record, bind, Except.bind, if_neg null, stacked, stackAt, if_neg stackNull, space, spaceAt] at ran
  by_cases spaceNull : u64 created = NULL
  · rw [if_pos spaceNull] at ran
    exact absurd (failVmm_null ran) nonnull
  rw [if_neg spaceNull] at ran
  rcases copied : vmmCopyRegions alloc (u64 created) statics.kspace env1 with fault | env2
  · simp only [copied, reduceCtorEq] at ran
  rcases mapped : vmmAllocAt alloc (u64 created) 0xf000 8 pageUserRw env2 with fault | ⟨ustack, env⟩
  · simp only [copied, mapped, reduceCtorEq] at ran
  simp only [copied, mapped] at ran
  by_cases ustackNull : ustack = NULL
  · rw [if_pos ustackNull] at ran
    exact absurd (failUstack_null ran) nonnull
  rw [if_neg ustackNull] at ran
  split at ran
  · cases ran
  · simp only [Except.ok.injEq, Prod.mk.injEq] at ran
    obtain ⟨rfl, rfl⟩ := ran
    exact ⟨grown, taken, stack, created, env1, env2, ustack, rfl, stacked, stackNull, space, spaceNull, copied, mapped,
      ustackNull⟩

/-- A call that gets a process had its allocations. -/
theorem processCreate_obtains
    (ran : processCreate alloc source.toPageSource tables unassigned statics call kheap = .ok (proc, next))
    (nonnull : proc ≠ NULL) :
    ∃ stack created grown taken env, Obtains alloc source statics kheap proc stack created grown taken env := by
  obtain ⟨grown, taken, stack, created, env1, env2, ustack, record, stacked, stackNonnull, space⟩ :=
    processCreate_split ran nonnull
  refine ⟨stack, created, grown, taken, next.env, record, nonnull, stacked, ?_, env1, env2, ustack, space⟩
  rintro rfl
  exact stackNonnull (by decide)

end

/-- The words of the pids and the family of the parent lie in live allocations. -/
structure ProcessesLive (cs : List Cont) (statics : ProcessStatics) (mem : Memory) (parent first next : Nat) : Prop where
  pids : Live cs statics.pidBitmap.bitmap (8 * statics.pidBitmap.sizeInBlock)
  firstAt : loadU64 mem (child parent) = first
  parentLive : Live cs parent sizeofProcess ∧ parent ≠ statics.pidBitmap.bitmap
  firstLive : first ≠ NULL → Live cs first sizeofProcess ∧ first ≠ statics.pidBitmap.bitmap
  nextAt : first ≠ NULL → loadU64 mem (siblingsList first) = siblingsList next
  nextLive : first ≠ NULL → Live cs next sizeofProcess ∧ next ≠ statics.pidBitmap.bitmap

/-- The fill from the stale pointer on spares the links that are read. -/
def FillSpares (parent first stale : Nat) : Prop :=
  Spared (fun addr => distance stale addr < 40) (child parent) 8 ∧
    (first ≠ NULL → Spared (fun addr => distance stale addr < 40) (siblingsList first) 8)

section
variable {σ : Type} {source : HeapPages (Kernel σ)} {statics : ProcessStatics} {kheap grown taken : Kheap (Kernel σ)}
variable {cs cs1 cs2 : List Cont} {proc stack created parent first next stale : Nat}

/-- The record, the stack, and the words of the pids are allocated apart. -/
theorem recordPlaces (record : Allocated source kheap cs sizeofProcess proc grown cs1)
    (kstack : Allocated source grown cs1 processKernelStackSize stack taken cs2)
    (pids : Live cs statics.pidBitmap.bitmap (8 * statics.pidBitmap.sizeInBlock)) : RecordPlaces statics proc stack := by
  obtain ⟨pids1, pidsProc⟩ := record.keeps pids
  obtain ⟨pids2, pidsStack⟩ := kstack.keeps pids1
  obtain ⟨record2, recordStack⟩ := kstack.keeps record.live
  have holds := kstack.holds
  obtain ⟨-, aligned, room⟩ := holds.live_bounds record2
  obtain ⟨-, -, roomStack⟩ := holds.live_bounds kstack.live
  obtain ⟨-, -, roomPids⟩ := holds.live_bounds pids2
  exact ⟨by omega, room.le, roomStack, holds.live_apart record2 kstack.live recordStack, roomPids.le,
    holds.live_apart record2 pids2 pidsProc.symm, holds.live_apart kstack.live pids2 pidsStack.symm⟩

/-- The allocations and the first stores leave the live allocations as they are. -/
theorem ready_differ (record : Allocated source kheap cs sizeofProcess proc grown cs1)
    (kstackTaken : Allocated source grown cs1 processKernelStackSize stack taken cs2) (room : proc + sizeofProcess ≤ 2 ^ 64) :
    DifferIn (Idle cs) kheap.mem (readyMemory statics proc stack created taken.mem) := by
  have before := record.differ.trans (kstackTaken.differ.mono fun _ _ => record.idle_before)
  have field : ∀ offset, offset + 8 ≤ sizeofProcess → ∀ addr, Within (proc + offset) 8 addr → Idle cs addr := by
    rintro offset inside addr ⟨low, high⟩
    exact record.idle ⟨by omega, by omega⟩
  unfold sizeofProcess at room field
  unfold readyMemory space kstack
  exact ((before.store_inside _ (by omega) (field 4808 (by omega))).store_inside _ (by omega)
    (field 72 (by omega))).store_inside _ (by omega) (field 72 (by omega))

/-- The middle of the record is as it was allocated. -/
theorem ready_record (record : Allocated source kheap cs sizeofProcess proc grown cs1)
    (kstackTaken : Allocated source grown cs1 processKernelStackSize stack taken cs2) (room : proc + sizeofProcess ≤ 2 ^ 64) :
    DifferIn (fun addr => ¬Within (proc + 128) 4680 addr) grown.mem (readyMemory statics proc stack created taken.mem) := by
  have before : DifferIn (fun addr => ¬Within (proc + 128) 4680 addr) grown.mem taken.mem := by
    apply kstackTaken.differ.mono
    rintro addr - idle ⟨low, high⟩
    refine record.live.spared (addr - proc) (by unfold sizeofProcess; omega) ?_
    rwa [show proc + (addr - proc) = addr by omega]
  have away : ∀ base, base + 8 ≤ proc + 128 ∨ proc + 4808 ≤ base →
      ∀ addr, Within base 8 addr → ¬Within (proc + 128) 4680 addr := by
    rintro base outside addr ⟨low, high⟩ ⟨first, last⟩
    omega
  unfold sizeofProcess at room
  unfold readyMemory space kstack
  exact ((before.store_inside _ (by omega) (away (proc + 4808) (by omega))).store_inside _ (by omega)
    (away (proc + 72) (by omega))).store_inside _ (by omega) (away (proc + 72) (by omega))

theorem readyMemory_differ {area : Nat → Prop} {mem mem' : Memory} (differ : DifferIn area mem mem') :
    DifferIn area (readyMemory statics proc stack created mem) (readyMemory statics proc stack created mem') :=
  ((differ.storeU64 _ _).storeU64 _ _).storeU64 _ _

theorem ready_kstack (room : proc + sizeofProcess ≤ 2 ^ 64) (small : stack < 2 ^ 64) (mem : Memory) :
    loadU64 (readyMemory statics proc stack created mem) (kstack proc) = stack := by
  unfold sizeofProcess at room
  have later : DifferIn (Within (proc + 72) 8) (storeU64 (kstack proc) stack mem)
      (readyMemory statics proc stack created mem) := by
    unfold readyMemory space
    exact ((DifferIn.refl _ _).store_inside _ (by omega) fun _ inside => inside).store_inside _ (by omega)
      fun _ inside => inside
  have same : loadU64 (readyMemory statics proc stack created mem) (kstack proc) =
      loadU64 (storeU64 (kstack proc) stack mem) (kstack proc) := by
    apply later.loadU64 (by unfold kstack; omega)
    rintro offset less ⟨low, high⟩
    unfold kstack at high
    omega
  rw [same, loadU64_stored, u64, Nat.mod_eq_of_lt small]

/-- The family of the parent lies apart from all that the first part of the fill writes. -/
theorem readyFamily (record : Allocated source kheap cs sizeofProcess proc grown cs1)
    (kstackTaken : Allocated source grown cs1 processKernelStackSize stack taken cs2)
    (live : ProcessesLive cs statics kheap.mem parent first next) (spares : FillSpares parent first stale) :
    Family (FrontReach statics proc stack stale) (readyMemory statics proc stack created taken.mem) proc parent first
      (siblingsList next) := by
  have places := recordPlaces record kstackTaken live.pids
  have differ := @ready_differ σ source statics kheap grown taken cs cs1 cs2 proc stack created record kstackTaken places.room
  have holds := kstackTaken.holds
  obtain ⟨pids1, pidsProc⟩ := record.keeps live.pids
  obtain ⟨pids2, -⟩ := kstackTaken.keeps pids1
  obtain ⟨record2, -⟩ := kstackTaken.keeps record.live
  -- A live process lies apart from the new record, its stack, and the words of the pids.
  have away : ∀ process, Live cs process sizeofProcess → process ≠ statics.pidBitmap.bitmap →
      process + sizeofProcess < 2 ^ 64 ∧ Apart proc sizeofProcess process sizeofProcess ∧
        ∀ offset count, offset + count ≤ sizeofProcess →
          Spared (fun addr => distance stale addr < 40) (process + offset) count →
          Spared (FrontReach statics proc stack stale) (process + offset) count := by
    intro process alive different
    obtain ⟨alive1, notProc⟩ := record.keeps alive
    obtain ⟨alive2, notStack⟩ := kstackTaken.keeps alive1
    have apartProc := holds.live_apart record2 alive2 notProc.symm
    have apartStack := holds.live_apart kstackTaken.live alive2 notStack.symm
    have apartPids := holds.live_apart pids2 alive2 different.symm
    refine ⟨(holds.live_bounds alive2).2.2, apartProc, ?_⟩
    rintro offset count inside spared byte less (front | near)
    · unfold Apart sizeofProcess processKernelStackSize at *
      unfold FrontArea Bitmap.Words Within processKernelStackSize at front
      omega
    · exact spared byte less near
  obtain ⟨roomParent, apartParent, spareParent⟩ := away parent live.parentLive.1 live.parentLive.2
  have nonzero : (siblingsList next) ≠ NULL := Nat.succ_ne_zero _
  have linked : first ≠ NULL → loadU64 (readyMemory statics proc stack created taken.mem) (siblingsList first) =
      loadU64 kheap.mem (siblingsList first) := by
    intro nonnull
    obtain ⟨alive, different⟩ := live.firstLive nonnull
    obtain ⟨room, -, -⟩ := away first alive different
    unfold sizeofProcess at room
    apply differ.loadU64 (by unfold siblingsList; omega)
    exact Spared.part alive.spared (by decide)
  have firstAt : loadU64 (readyMemory statics proc stack created taken.mem) (child parent) = first := by
    unfold sizeofProcess at roomParent
    rw [← live.firstAt]
    apply differ.loadU64 (by unfold child; omega)
    exact Spared.part live.parentLive.1.spared (by decide)
  refine ⟨firstAt, ?_, ?_, spareParent 120 8 (by decide) spares.1, fun nonnull => ⟨(linked nonnull).trans
    (live.nextAt nonnull), nonzero⟩, ?_, ?_, fun nonnull => ?_⟩
  · unfold sizeofProcess at roomParent
    unfold child
    omega
  · unfold Apart sizeofProcess child at *
    omega
  · intro nonnull
    obtain ⟨roomFirst, -, -⟩ := away first (live.firstLive nonnull).1 (live.firstLive nonnull).2
    obtain ⟨roomNext, -, -⟩ := away next (live.nextLive nonnull).1 (live.nextLive nonnull).2
    unfold sizeofProcess at roomFirst roomNext
    unfold siblingsList
    omega
  · intro nonnull
    obtain ⟨-, apartFirst, -⟩ := away first (live.firstLive nonnull).1 (live.firstLive nonnull).2
    obtain ⟨-, apartNext, -⟩ := away next (live.nextLive nonnull).1 (live.nextLive nonnull).2
    unfold Apart sizeofProcess siblingsList at *
    omega
  · obtain ⟨-, -, spareFirst⟩ := away first (live.firstLive nonnull).1 (live.firstLive nonnull).2
    exact spareFirst 96 8 (by decide) (spares.2 nonnull)

/-- The same pids are left in front of the fill. -/
theorem readyPids (record : Allocated source kheap cs sizeofProcess proc grown cs1)
    (kstackTaken : Allocated source grown cs1 processKernelStackSize stack taken cs2)
    (pids : Live cs statics.pidBitmap.bitmap (8 * statics.pidBitmap.sizeInBlock)) (unassigned : Nat) :
    (∃ result, processGetUnusedPid unassigned ⟨statics.pidBitmap, readyMemory statics proc stack created taken.mem, []⟩ =
        .ok result) ↔
      ∃ result, processGetUnusedPid unassigned ⟨statics.pidBitmap, kheap.mem, []⟩ = .ok result := by
  have places := recordPlaces record kstackTaken pids
  have differ := @ready_differ σ source statics kheap grown taken cs cs1 cs2 proc stack created record kstackTaken places.room
  constructor
  · rintro ⟨⟨pid, left⟩, got⟩
    obtain ⟨-, left', got', -⟩ := processGetUnusedPid_differ differ.symm places.roomPids pids.spared got
    exact ⟨_, got'⟩
  · rintro ⟨⟨pid, left⟩, got⟩
    obtain ⟨-, left', got', -⟩ := processGetUnusedPid_differ differ places.roomPids pids.spared got
    exact ⟨_, got'⟩

end

section
variable {σ : Type} {alloc : KernelAllocator σ} {source : HeapPages (Kernel σ)} {statics : ProcessStatics}
variable {area : Nat → Prop} {kheap kheap' grown taken : Kheap (Kernel σ)} {env : Kernel σ} {cs : List Cont}
variable {proc stack created : Nat}

/-- Two heaps with the same containers give the same allocations. -/
theorem Obtains.twins (obtains : Obtains alloc source statics kheap proc stack created grown taken env)
    (twins : kheap.Twins source area cs kheap') :
    ∃ cs1 cs2 grown' taken', Obtains alloc source statics kheap' proc stack created grown' taken' env ∧
      Kheap.Takes source area kheap kheap' cs sizeofProcess proc grown grown' cs1 ∧
        Kheap.Takes source area grown grown' cs1 processKernelStackSize stack taken taken' cs2 := by
  obtain ⟨record, nonnull, kstack, stackNonnull, space⟩ := obtains
  obtain ⟨cs1, grown', record', takes⟩ := twins.kmalloc (by decide) record nonnull
  obtain ⟨cs2, taken', kstack', takes'⟩ := takes.twins.kmalloc (by decide) kstack stackNonnull
  rw [← takes'.twins.env] at space
  exact ⟨cs1, cs2, grown', taken', ⟨record', nonnull, kstack', stackNonnull, space⟩, takes, takes'⟩

end

end ProcessRecord

end B0s
