import B0s.Proof.Mm.KheapWindow
import B0s.Proof.Multitasking.ProcessObtains
import Mathlib.Logic.Equiv.List

/-
This file proves when the processes of `process_create` do not depend on stale bytes of the heap.
-/

namespace B0s
open ByteMemory

/-- The pages of a source whose state is a part of another one, with bytes of their own. -/
def HeapPages.within {σ τ : Type} (source : HeapPages τ) (get : σ → τ) (set : τ → σ → σ)
    (kept : ∀ part state, get (set part state) = part) (bytes : Nat → Memory) : HeapPages σ where
  ranges state := source.ranges (get state)
  vmmAllocBetween pages state := (source.vmmAllocBetween pages (get state)).map
    fun result => (result.1, bytes result.1, set result.2.2 state)
  vmmFree va pages state := (source.vmmFree va pages (get state)).map fun part => set part state
  alloc_null := by
    intro pages state shown state' obtained
    obtain ⟨⟨va, bytes', part⟩, ran, same⟩ := Outcome.map_eq_ok.mp obtained
    obtain ⟨rfl, rest⟩ := Prod.mk.inj same
    obtain ⟨rfl, rfl⟩ := Prod.mk.inj rest
    rw [kept]
    exact source.alloc_null _ _ _ _ ran
  alloc_fresh := by
    intro pages state va shown state' obtained nonnull
    obtain ⟨⟨va', bytes', part⟩, ran, same⟩ := Outcome.map_eq_ok.mp obtained
    obtain ⟨rfl, rest⟩ := Prod.mk.inj same
    obtain ⟨rfl, rfl⟩ := Prod.mk.inj rest
    rw [kept]
    exact source.alloc_fresh _ _ _ _ _ ran nonnull
  free_released := by
    intro va pages state listed
    obtain ⟨part, ran, released⟩ := source.free_released va pages (get state) listed
    refine ⟨set part state, ?_, ?_⟩
    · rw [ran]
      rfl
    · rw [kept]
      exact released

/-- These fields of a process are read by the scheduler and by the signals. -/
structure ProcessView where
  pid : Nat
  name : List (BitVec 8)
  state : Nat
  parent : Nat
  child : Nat
  maskedSignals : Nat
  pendingSignals : Nat
  signalsHandlers : List Nat
  fdbitmap : List Nat
  deriving DecidableEq

namespace ProcessRecord

/-- The name ends at its null character. -/
def view (proc : Nat) (mem : Memory) : ProcessView where
  pid := loadU16 mem (pid proc)
  name := ((List.range processNameMax).map (byteAt mem (name proc))).takeWhile (· ≠ 0)
  state := loadU32 mem (state proc)
  parent := loadU64 mem (parent proc)
  child := loadU64 mem (child proc)
  maskedSignals := loadU64 mem (maskedSignals proc)
  pendingSignals := loadU64 mem (pendingSignals proc)
  signalsHandlers := (List.range processNsig).map fun index => loadU64 mem (signalsHandlers proc + 8 * index)
  fdbitmap := (List.range (sizeofBitmapStatic processMaxFd / 8)).map fun index => loadU64 mem (fdbitmap proc + 8 * index)

/-- The view depends only on the bytes of the record. -/
theorem view_differ {area : Nat → Prop} {mem mem' : Memory} {proc : Nat} (differ : DifferIn area mem mem')
    (room : proc + sizeofProcess ≤ 2 ^ 64) (spared : Spared area proc sizeofProcess) : view proc mem' = view proc mem := by
  unfold sizeofProcess at room
  have bytes : ∀ offset count, offset + count ≤ 5008 →
      loadBytes mem' (proc + offset) count = loadBytes mem (proc + offset) count := fun offset count inside =>
    differ.loadBytes (by omega) (Spared.part spared inside)
  have words : ∀ offset, offset + 8 ≤ 5008 → loadU64 mem' (proc + offset) = loadU64 mem (proc + offset) :=
    fun offset inside => congrArg BitVec.toNat (bytes offset 8 inside)
  have chars : ∀ index < 64, byteAt mem' (proc + 2) index = byteAt mem (proc + 2) index := by
    intro index small
    have place : (proc + 2 + index) % 2 ^ 64 = proc + (2 + index) := by omega
    rw [byteAt, byteAt, place]
    exact differ _ (by omega) (spared (2 + index) (by unfold sizeofProcess; omega))
  have handlers : ∀ index < processNsig, loadU64 mem' (proc + 4296 + 8 * index) = loadU64 mem (proc + 4296 + 8 * index) := by
    intro index small
    unfold processNsig at small
    rw [Nat.add_assoc]
    exact words _ (by omega)
  have fds : ∀ index < 7, loadU64 mem' (proc + 4224 + 8 * index) = loadU64 mem (proc + 4224 + 8 * index) := by
    intro index small
    rw [Nat.add_assoc]
    exact words _ (by omega)
  have names : ((List.range processNameMax).map (byteAt mem' (name proc))) =
      (List.range processNameMax).map (byteAt mem (name proc)) :=
    List.map_congr_left fun index member => chars index (List.mem_range.mp member)
  unfold view
  rw [names]
  congr 1
  · exact congrArg BitVec.toNat (bytes 0 2 (by omega))
  · exact congrArg BitVec.toNat (bytes 68 4 (by omega))
  · exact words 112 (by omega)
  · exact words 120 (by omega)
  · exact words 4280 (by omega)
  · exact words 4288 (by omega)
  · exact List.map_congr_left fun index member => handlers index (List.mem_range.mp member)
  · exact List.map_congr_left fun index member => fds index (List.mem_range.mp member)

/-- The words of the signals are zero exactly when their bytes are. -/
theorem view_signals {proc : Nat} {mem : Memory} (room : proc + sizeofProcess ≤ 2 ^ 64) :
    (view proc mem).maskedSignals = 0 ∧ (view proc mem).pendingSignals = 0 ↔
      ∀ addr, Within (maskedSignals proc) 16 addr → mem addr = 0 := by
  unfold sizeofProcess at room
  have word : ∀ base, base + 8 ≤ 2 ^ 64 →
      (loadU64 mem base = 0 ↔ ∀ addr, base ≤ addr → addr < base + 8 → mem addr = 0) := by
    intro base inside
    rw [← loadWord_eq_zero_iff inside, loadU64, ← BitVec.toNat_inj]
    rfl
  have masked := word (maskedSignals proc) (by unfold maskedSignals; omega)
  have pending := word (pendingSignals proc) (by unfold pendingSignals; omega)
  have shape : (view proc mem).maskedSignals = 0 ∧ (view proc mem).pendingSignals = 0 ↔
      loadU64 mem (maskedSignals proc) = 0 ∧ loadU64 mem (pendingSignals proc) = 0 := Iff.rfl
  rw [shape, masked, pending]
  unfold maskedSignals pendingSignals Within
  constructor
  · rintro ⟨low, high⟩ addr ⟨first, last⟩
    rcases Nat.lt_or_ge addr (proc + 4288) with before | behind
    · exact low addr first (by omega)
    · exact high addr behind (by omega)
  · intro all
    exact ⟨fun addr first last => all addr ⟨first, by omega⟩, fun addr first last => all addr ⟨by omega, by omega⟩⟩

section
variable {σ : Type} (alloc : KernelAllocator σ) (source : HeapPages (Kernel σ)) (tables : Translation)
variable (unassigned : Nat) (statics : ProcessStatics) (call : ProcessCall) (cs : List Cont) (kheap : Kheap (Kernel σ))

/-- In any two states that differ from a state only in bytes of no live allocation, the call gets processes that
agree, with no masked and no pending signal. -/
def NoLeak : Prop :=
  ∀ first second, kheap.SameLive cs first → kheap.SameLive cs second → ∀ proc next,
    processCreate alloc source.toPageSource tables unassigned statics call first = .ok (proc, next) → proc ≠ NULL →
      ∃ next', processCreate alloc source.toPageSource tables unassigned statics call second = .ok (proc, next') ∧
        view proc next'.mem = view proc next.mem ∧
          (view proc next.mem).maskedSignals = 0 ∧ (view proc next.mem).pendingSignals = 0

/-- No unused block can hold a record. -/
def RecordFresh : Prop := ∀ c ∈ cs, ∀ d ∈ c.blks, ¬d.Serves sizeofProcess

/-- Fresh pages for a record have these bytes. -/
def FreshPages (va : Nat) (bytes : Memory) : Prop :=
  va ≠ NULL ∧ ∃ env, source.vmmAllocBetween (heapPages sizeofProcess) kheap.env = .ok (va, bytes, env)

/-- The words of the signals are zero in fresh pages, and the fill from the stale pointer on misses them. -/
def SignalsClear (bytes : Memory) (proc : Nat) : Prop :=
  ∀ addr, Within (maskedSignals proc) 16 addr → bytes addr = 0 ∧ ¬distance (loadU64 bytes (proc + 4240)) addr < 40

/-- The bytes behind the blocks are mapped. -/
def HeapMapped : Prop := ∀ addr, Payload cs addr → (tables addr).isSome

/-- A record lies on fresh pages. Where their stale pointer leads to mapped bytes, so that the fill returns, the signals
are clear and the fill spares the family. -/
def Clean (parent first : Nat) : Prop :=
  RecordFresh cs ∧ ∀ va bytes, FreshPages source kheap va bytes →
    Translates tables (loadU64 bytes (va + 80 + 4240)) 40 →
    FillSpares parent first (loadU64 bytes (va + 80 + 4240)) ∧ SignalsClear bytes (va + 80)

end

section
variable {σ : Type} {alloc : KernelAllocator σ} {source : HeapPages (Kernel σ)} {tables : Translation} {unassigned : Nat}
variable {statics : ProcessStatics} {call : ProcessCall} {cs cs1 cs2 : List Cont}
variable {kheap kheap' grown taken : Kheap (Kernel σ)} {env : Kernel σ} {proc stack created first next : Nat}

/-- The live allocations are the same in states that differ only in other bytes. -/
theorem ProcessesLive.differ {parent : Nat} (live : ProcessesLive cs statics kheap.mem parent first next)
    (holds : kheap.Holds source cs) (same : kheap.SameLive cs kheap') :
    ProcessesLive cs statics kheap'.mem parent first next := by
  obtain ⟨pids, firstAt, parentLive, firstLive, nextAt, nextLive⟩ := live
  have word : ∀ process offset, Live cs process sizeofProcess → offset + 8 ≤ sizeofProcess →
      loadU64 kheap'.mem (process + offset) = loadU64 kheap.mem (process + offset) := by
    intro process offset alive inside
    obtain ⟨-, -, room⟩ := holds.live_bounds alive
    exact same.mem.loadU64 (by omega) (Spared.part (holds.live_spared alive) inside)
  refine ⟨pids, (word parent 120 parentLive.1 (by decide)).trans firstAt, parentLive, firstLive, ?_, nextLive⟩
  intro nonnull
  exact (word first 96 (firstLive nonnull).1 (by decide)).trans (nextAt nonnull)

/-- The stale pointer is that of the allocated bytes. -/
theorem ready_pointer (record : Allocated source kheap cs sizeofProcess proc grown cs1)
    (kstackTaken : Allocated source grown cs1 processKernelStackSize stack taken cs2) (room : proc + sizeofProcess ≤ 2 ^ 64) :
    loadU64 (readyMemory statics proc stack created taken.mem) (proc + 4240) = loadU64 grown.mem (proc + 4240) := by
  have stale := @ready_record σ source statics kheap grown taken cs cs1 cs2 proc stack created record kstackTaken room
  unfold sizeofProcess at room
  apply stale.loadU64 (by omega)
  intro offset less
  exact not_not_intro ⟨by omega, by omega⟩

/-- The words of the signals lie in the record. -/
theorem signals_within {addr : Nat} (inside : Within (maskedSignals proc) 16 addr) : Within proc sizeofProcess addr := by
  obtain ⟨low, high⟩ := inside
  unfold maskedSignals at low high
  exact ⟨by omega, by unfold sizeofProcess; omega⟩

theorem pointer_of_bytes {bytes mem : Memory} (room : proc + sizeofProcess ≤ 2 ^ 64)
    (payload : ∀ addr, Within proc sizeofProcess addr → mem addr = bytes addr) :
    loadU64 mem (proc + 4240) = loadU64 bytes (proc + 4240) := by
  have same : DifferIn (fun addr => ¬Within proc sizeofProcess addr) bytes mem :=
    fun addr _ inside => payload addr (not_not.mp inside)
  unfold sizeofProcess at room
  apply same.loadU64 (by omega)
  intro offset less
  exact not_not_intro ⟨by omega, by unfold sizeofProcess; omega⟩

/-- With its allocations, a parent, a pid, and mapped bytes behind the stale pointer, the record is filled. Its signals
are stale, unless the fill reaches them. -/
theorem fillRecord_ready (record : Allocated source kheap cs sizeofProcess proc grown cs1)
    (kstackTaken : Allocated source grown cs1 processKernelStackSize stack taken cs2)
    (live : ProcessesLive cs statics kheap.mem call.parent first next) (nonnull : call.parent ≠ NULL)
    (mapped : Translates tables (loadU64 grown.mem (proc + 4240)) 40)
    (spares : FillSpares call.parent first (loadU64 grown.mem (proc + 4240)))
    (left : ∃ result, processGetUnusedPid unassigned ⟨statics.pidBitmap, kheap.mem, []⟩ = .ok result) :
    ∃ back, fillRecord tables unassigned statics call proc (readyMemory statics proc stack created taken.mem) = .ok back ∧
      ∀ addr, Within (maskedSignals proc) 16 addr →
        back addr = if distance (loadU64 grown.mem (proc + 4240)) addr < 40 then 0xff else grown.mem addr := by
  have places := recordPlaces record kstackTaken live.pids
  have room := places.room
  have stackAt := @ready_kstack statics proc stack created places.room (by have bound := places.roomStack; omega) taken.mem
  have stale := @ready_record σ source statics kheap grown taken cs cs1 cs2 proc stack created record kstackTaken places.room
  have pointer := @ready_pointer σ source statics cs cs1 cs2 kheap grown taken proc stack created record kstackTaken
    places.room
  unfold sizeofProcess at room
  have family := @readyFamily σ source statics kheap grown taken cs cs1 cs2 proc stack created call.parent first next _
    record kstackTaken live spares
  rw [← pointer] at family mapped
  obtain ⟨back, filled⟩ := fillRecord_returns places stackAt family ((readyPids record kstackTaken live.pids unassigned).mpr
    left) mapped nonnull
  refine ⟨back, filled, ?_⟩
  rintro addr ⟨low, high⟩
  have signals := fillRecord_signals places stackAt family filled ⟨low, high⟩
  unfold maskedSignals at low high
  rw [signals, pointer, stale addr (by omega) (not_not_intro ⟨by omega, by omega⟩)]

/-- With its allocations, a parent, a pid, and mapped bytes behind the stale pointer, the call returns a process. -/
theorem processCreate_returns (holds : kheap.Holds source cs)
    (obtains : Obtains alloc source statics kheap proc stack created grown taken env)
    (live : ProcessesLive cs statics kheap.mem call.parent first next) (nonnull : call.parent ≠ NULL)
    (mapped : Translates tables (loadU64 grown.mem (proc + 4240)) 40)
    (spares : FillSpares call.parent first (loadU64 grown.mem (proc + 4240)))
    (left : ∃ result, processGetUnusedPid unassigned ⟨statics.pidBitmap, kheap.mem, []⟩ = .ok result) :
    ∃ back, processCreate alloc source.toPageSource tables unassigned statics call kheap =
        .ok (proc, ⟨taken.heap, back, env⟩) ∧ proc + sizeofProcess ≤ 2 ^ 64 ∧
      ∀ addr, Within (maskedSignals proc) 16 addr →
        back addr = if distance (loadU64 grown.mem (proc + 4240)) addr < 40 then 0xff else grown.mem addr := by
  obtain ⟨cs1, cs2, _, _, _, takes, takes'⟩ := obtains.twins ⟨holds, holds, rfl, DifferIn.refl (fun _ => False) _⟩
  have places := recordPlaces takes.allocated takes'.allocated live.pids
  have small : stack < 2 ^ 64 := by
    have bound := places.roomStack
    omega
  obtain ⟨back, filled, signals⟩ := @fillRecord_ready σ source tables unassigned statics call cs cs1 cs2 kheap grown taken
    proc stack created first next takes.allocated takes'.allocated live nonnull mapped spares left
  refine ⟨back, ?_, places.room, signals⟩
  rw [processCreate_filled obtains small, filled]
  rfl

/-- A filled record has a parent, a pid was left for it, and its stale pointer leads to mapped bytes. -/
theorem granted_of_filled (record : Allocated source kheap cs sizeofProcess proc grown cs1)
    (kstackTaken : Allocated source grown cs1 processKernelStackSize stack taken cs2) {back : Memory}
    (filled : fillRecord tables unassigned statics call proc (readyMemory statics proc stack created taken.mem) = .ok back) :
    call.parent ≠ NULL ∧ (Live cs statics.pidBitmap.bitmap (8 * statics.pidBitmap.sizeInBlock) →
      (∃ result, processGetUnusedPid unassigned ⟨statics.pidBitmap, kheap.mem, []⟩ = .ok result) ∧
        Translates tables (loadU64 grown.mem (proc + 4240)) 40) := by
  rw [fillRecord_eq] at filled
  obtain ⟨front, ran, behind⟩ := Outcome.bind_eq_ok.mp filled
  constructor
  · intro null
    obtain ⟨family, joined, -⟩ := Outcome.bind_eq_ok.mp behind
    rw [setFamily, if_neg fun both => both.1 null, if_pos null] at joined
    cases joined
  · intro pids
    have places := recordPlaces record kstackTaken pids
    have stackAt := @ready_kstack statics proc stack created places.room (by have bound := places.roomStack; omega) taken.mem
    obtain ⟨left, mapped⟩ := (recordFront_returns_iff places stackAt).mp ⟨front, ran⟩
    rw [@ready_pointer σ source statics cs cs1 cs2 kheap grown taken proc stack created record kstackTaken places.room]
      at mapped
    exact ⟨(readyPids record kstackTaken pids unassigned).mp left, mapped⟩

/-- From fresh pages with clear signals, two states get processes that agree. -/
theorem noLeak_of_clean (holds : kheap.Holds source cs)
    (live : call.parent ≠ NULL → ProcessesLive cs statics kheap.mem call.parent first next)
    (clean : Granted alloc source unassigned statics call kheap → Clean source tables cs kheap call.parent first) :
    NoLeak alloc source tables unassigned statics call cs kheap := by
  intro state state' same same' proc result ran nonnull
  have twins := same.twins holds
  have differ : DifferIn (Dead cs) state.mem state'.mem := same.mem.symm.trans same'.mem
  obtain ⟨stack, created, grown, taken, env, obtains⟩ := processCreate_obtains ran nonnull
  obtain ⟨cs1, cs2, grown', taken', obtains', takes, takes'⟩ := obtains.twins
    ⟨twins.holds', (same'.twins holds).holds', same'.env.trans same.env.symm, differ⟩
  obtain ⟨-, -, base, baseTaken, obtainsBase, -, -⟩ := obtains.twins
    ⟨twins.holds', twins.holds, same.env.symm, same.mem.symm⟩
  have record := takes.allocated
  have kstackTaken := takes'.allocated
  have small : stack < 2 ^ 64 := by
    have bound := (kstackTaken.holds.live_bounds kstackTaken.live).2.2
    omega
  rw [processCreate_filled obtains small] at ran
  obtain ⟨back, filled, final⟩ := Outcome.map_eq_ok.mp ran
  obtain ⟨-, rfl⟩ := Prod.mk.inj final
  obtain ⟨parent, pidLeft⟩ := granted_of_filled record kstackTaken filled
  have liveBase := live parent
  have liveHere := liveBase.differ holds same
  have places := recordPlaces record kstackTaken liveHere.pids
  obtain ⟨⟨⟨pid, pids⟩, got⟩, mapped⟩ := pidLeft liveHere.pids
  obtain ⟨-, pidsBase, gotBase, -⟩ := processGetUnusedPid_differ same.mem.symm places.roomPids
    (holds.live_spared liveBase.pids) got
  -- The state itself is granted a process, so its fresh pages are clean.
  obtain ⟨fresh, pages⟩ := clean ⟨parent, ⟨_, gotBase⟩, proc, stack, created, base, baseTaken, env, obtainsBase⟩
  obtain ⟨va, bytes, env', obtained, vaNonnull, rfl, payload, spared⟩ := twins.holds'.kmalloc_fresh fresh (by decide)
    obtains.record obtains.nonnull
  rw [same.env] at obtained
  have pointer := pointer_of_bytes places.room payload
  obtain ⟨spares, clear⟩ := pages va bytes ⟨vaNonnull, env', obtained⟩ (pointer ▸ mapped)
  have sparedDead : Spared (Dead cs) (va + 80) sizeofProcess := fun offset less dead => spared offset less dead.payload
  rw [← pointer] at spares
  have family := @readyFamily σ source statics state grown taken cs cs1 cs2 (va + 80) stack created call.parent first next _
    record kstackTaken liveHere spares
  rw [← @ready_pointer σ source statics cs cs1 cs2 state grown taken (va + 80) stack created record kstackTaken
    places.room] at family
  obtain ⟨back', filled', agree⟩ := fillRecord_differ (readyMemory_differ takes'.twins.differ) places sparedDead
    (holds.live_spared liveBase.pids) (ready_kstack places.room small taken.mem) family
    (Spared.part (holds.live_spared liveBase.parentLive.1) (by decide))
    (fun link => Spared.part (holds.live_spared (liveBase.firstLive link).1) (by decide)) filled
  refine ⟨⟨taken'.heap, back', env⟩, ?_, view_differ agree places.room sparedDead, (view_signals places.room).mpr ?_⟩
  · rw [processCreate_filled obtains' small, filled']
    rfl
  · obtain ⟨back'', filled'', signals⟩ := @fillRecord_ready σ source tables unassigned statics call cs cs1 cs2 state
      grown taken (va + 80) stack created first next record kstackTaken liveHere parent mapped spares ⟨_, got⟩
    obtain rfl := Except.ok.inj (filled''.symm.trans filled)
    intro addr inside
    obtain ⟨zero, away⟩ := clear addr inside
    have filled := signals addr inside
    rw [pointer, if_neg away] at filled
    exact (filled.trans (payload addr (signals_within inside))).trans zero

/-- Where no stale byte is leaked, a process that is granted starts with the signals that its allocated bytes hold. -/
theorem NoLeak.signals (quiet : NoLeak alloc source tables unassigned statics call cs kheap)
    (same : kheap.SameLive cs kheap') (holds : kheap'.Holds source cs)
    (obtains : Obtains alloc source statics kheap' proc stack created grown taken env)
    (live : ProcessesLive cs statics kheap'.mem call.parent first next) (parent : call.parent ≠ NULL)
    (mapped : Translates tables (loadU64 grown.mem (proc + 4240)) 40)
    (spares : FillSpares call.parent first (loadU64 grown.mem (proc + 4240)))
    (left : ∃ result, processGetUnusedPid unassigned ⟨statics.pidBitmap, kheap'.mem, []⟩ = .ok result) :
    ∀ addr, Within (maskedSignals proc) 16 addr →
      grown.mem addr = 0 ∧ ¬distance (loadU64 grown.mem (proc + 4240)) addr < 40 := by
  obtain ⟨back, ran, room, signals⟩ := processCreate_returns holds obtains live parent mapped spares left
  obtain ⟨-, -, -, zero⟩ := quiet kheap' kheap' same same proc _ ran obtains.nonnull
  intro addr inside
  have byte := (signals addr inside).symm.trans ((view_signals room).mp zero addr inside)
  split_ifs at byte with near
  · exact absurd byte (by decide)
  · exact ⟨byte, near⟩

/-- Where no stale byte is leaked, each memory with the same live bytes has clear signals in a block that is reused. -/
theorem NoLeak.reused (quiet : NoLeak alloc source tables unassigned statics call cs kheap) (holds : kheap.Holds source cs)
    (fit : ¬RecordFresh cs) (obtains : Obtains alloc source statics kheap proc stack created grown taken env)
    (live : ProcessesLive cs statics kheap.mem call.parent first next) (parent : call.parent ≠ NULL)
    (left : ∃ result, processGetUnusedPid unassigned ⟨statics.pidBitmap, kheap.mem, []⟩ = .ok result)
    {mem : Memory} (differ : DifferIn (Dead cs) kheap.mem mem)
    (mapped : Translates tables (loadU64 mem (proc + 4240)) 40)
    (spares : FillSpares call.parent first (loadU64 mem (proc + 4240))) :
    ∀ addr, Within (maskedSignals proc) 16 addr → mem addr = 0 := by
  have same := @Kheap.SameLive.of_differ _ kheap cs mem differ
  have holds' := (same.twins holds).holds'
  obtain ⟨cs1, cs2, grown', taken', obtains', takes, takes'⟩ := obtains.twins (same.twins holds)
  have places := recordPlaces takes.allocated takes'.allocated live.pids
  have reused := holds'.kmalloc_reused fit obtains'.record
  have payload : ∀ addr, Within proc sizeofProcess addr → grown'.mem addr = mem addr :=
    fun addr inside => (reused addr inside).2
  obtain ⟨⟨pid, pids⟩, got⟩ := left
  obtain ⟨-, pids', got', -⟩ := processGetUnusedPid_differ differ places.roomPids (holds.live_spared live.pids) got
  have pointer := pointer_of_bytes places.room payload
  have clear := quiet.signals same holds' obtains' (live.differ holds same) parent (pointer ▸ mapped) (pointer ▸ spares)
    ⟨_, got'⟩
  intro addr inside
  exact (payload addr (signals_within inside)).symm.trans (clear addr inside).1

/-- A memory whose stale bytes hold a masked signal, with a stale pointer into the descriptors of the record. -/
def poison (proc : Nat) (mem : Memory) : Memory := storeU64 (proc + 4240) (proc + 128) (storeU64 (maskedSignals proc) 1 mem)

theorem poison_differ {area : Nat → Prop} {mem : Memory} (room : proc + sizeofProcess ≤ 2 ^ 64)
    (inside : ∀ addr, Within proc sizeofProcess addr → area addr) : DifferIn area mem (poison proc mem) := by
  have field : ∀ offset, offset + 8 ≤ sizeofProcess → ∀ addr, Within (proc + offset) 8 addr → area addr := by
    rintro offset small addr ⟨low, high⟩
    exact inside addr ⟨by omega, by omega⟩
  unfold sizeofProcess at room field
  unfold poison maskedSignals
  exact ((DifferIn.refl _ mem).store_inside _ (by omega) (field 4280 (by omega))).store_inside _ (by omega)
    (field 4240 (by omega))

theorem poison_pointer (room : proc + sizeofProcess ≤ 2 ^ 64) (mem : Memory) :
    loadU64 (poison proc mem) (proc + 4240) = proc + 128 := by
  unfold sizeofProcess at room
  rw [poison, loadU64_stored, u64, Nat.mod_eq_of_lt (by omega)]

theorem poison_masked (room : proc + sizeofProcess ≤ 2 ^ 64) (mem : Memory) :
    poison proc mem (maskedSignals proc) = 1 := by
  unfold sizeofProcess at room
  have far : ¬distance (proc + 4240) (maskedSignals proc) < 8 := by
    unfold distance maskedSignals
    omega
  have near : distance (maskedSignals proc) (maskedSignals proc) = 0 := by
    unfold distance
    omega
  rw [poison, storeU64, storeWord, if_neg far, storeU64, storeWord, near, if_pos (by decide)]
  decide

/-- The fill from the poisoned pointer on stays in the record, so that it spares the family. -/
theorem poison_spares (record : Allocated source kheap cs sizeofProcess proc grown cs1) {mem : Memory} {parent : Nat}
    (live : ProcessesLive cs statics mem parent first next) : FillSpares parent first (proc + 128) := by
  have away : ∀ process, Live cs process sizeofProcess → ∀ offset, offset + 8 ≤ sizeofProcess →
      Spared (fun addr => distance (proc + 128) addr < 40) (process + offset) 8 := by
    intro process alive offset inside byte less near
    obtain ⟨alive1, other⟩ := record.keeps alive
    have apart := record.holds.live_apart record.live alive1 other.symm
    obtain ⟨-, -, room⟩ := record.holds.live_bounds record.live
    obtain ⟨-, -, room'⟩ := record.holds.live_bounds alive1
    unfold sizeofProcess at *
    unfold Apart at apart
    obtain ⟨low, high⟩ := (distance_lt_iff (by omega) (by omega)).mp near
    omega
  exact ⟨away parent live.parentLive.1 120 (by decide), fun link => away first (live.firstLive link).1 96 (by decide)⟩

/-- In a block of the heap the stale bytes are arbitrary, so that they may hold a masked signal. -/
theorem recordFresh_of_noLeak (holds : kheap.Holds source cs) (heapMapped : HeapMapped tables cs)
    (live : ProcessesLive cs statics kheap.mem call.parent first next)
    (quiet : NoLeak alloc source tables unassigned statics call cs kheap)
    (granted : Granted alloc source unassigned statics call kheap) : RecordFresh cs := by
  by_contra fit
  obtain ⟨parent, left, proc, stack, created, grown, taken, env, obtains⟩ := granted
  obtain ⟨_, _, _, _, _, takes, takes'⟩ := obtains.twins ⟨holds, holds, rfl, DifferIn.refl (fun _ => False) _⟩
  have room := (recordPlaces takes.allocated takes'.allocated live.pids).room
  have stale := holds.kmalloc_reused fit obtains.record
  -- The poisoned pointer leads into the record, and so into a mapped block.
  have mapped : Translates tables (loadU64 (poison proc kheap.mem) (proc + 4240)) 40 := by
    intro index small
    rw [poison_pointer room]
    unfold sizeofProcess at room stale
    rw [Nat.mod_eq_of_lt (by omega)]
    exact heapMapped _ (stale (proc + 128 + index) ⟨by omega, by omega⟩).1.payload
  have clear := quiet.reused holds fit obtains live parent left (poison_differ room fun addr inside => (stale addr inside).1)
    mapped ((poison_pointer room kheap.mem).symm ▸ poison_spares takes.allocated live)
  have byte := clear (maskedSignals proc) ⟨le_rfl, by omega⟩
  rw [poison_masked room] at byte
  exact absurd byte (by decide)

/-- On fresh pages, the signals are clear unless the fill from the stale pointer on reaches the family. -/
theorem signalsClear_of_noLeak (holds : kheap.Holds source cs) (heapMapped : HeapMapped tables cs)
    (live : ProcessesLive cs statics kheap.mem call.parent first next)
    (quiet : NoLeak alloc source tables unassigned statics call cs kheap)
    (granted : Granted alloc source unassigned statics call kheap) {va : Nat} {bytes : Memory}
    (pages : FreshPages source kheap va bytes) (mapped : Translates tables (loadU64 bytes (va + 80 + 4240)) 40)
    (spares : FillSpares call.parent first (loadU64 bytes (va + 80 + 4240))) : SignalsClear bytes (va + 80) := by
  have fresh := recordFresh_of_noLeak holds heapMapped live quiet granted
  obtain ⟨parent, left, proc, stack, created, grown, taken, env, obtains⟩ := granted
  obtain ⟨_, _, _, _, _, takes, takes'⟩ := obtains.twins ⟨holds, holds, rfl, DifferIn.refl (fun _ => False) _⟩
  have places := recordPlaces takes.allocated takes'.allocated live.pids
  obtain ⟨va', bytes', env', obtained, -, rfl, payload, -⟩ := holds.kmalloc_fresh fresh (by decide) obtains.record
    obtains.nonnull
  obtain ⟨-, env'', obtained'⟩ := pages
  obtain ⟨rfl, rest⟩ := Prod.mk.inj (Except.ok.inj (obtained.symm.trans obtained'))
  obtain ⟨rfl, -⟩ := Prod.mk.inj rest
  have pointer := pointer_of_bytes places.room payload
  have same := @Kheap.SameLive.of_differ _ kheap cs _ (DifferIn.refl (Dead cs) kheap.mem)
  have clear := quiet.signals same holds obtains live parent (pointer ▸ mapped) (pointer ▸ spares) left
  intro addr inside
  rw [← payload addr (signals_within inside), ← pointer]
  exact clear addr inside

end

/-- The ranges of the page source are kept in a word of no page table. -/
def keepRanges (ranges : List (Nat × Nat)) (kernel : Kernel Ledger) : Kernel Ledger :=
  { kernel with word := Function.update kernel.word 3 (Encodable.encode ranges) }

def keptRanges (kernel : Kernel Ledger) : List (Nat × Nat) := (Encodable.decode (kernel.word 3)).getD []

theorem keptRanges_keepRanges (ranges : List (Nat × Nat)) (kernel : Kernel Ledger) :
    keptRanges (keepRanges ranges kernel) = ranges := by
  have word : (keepRanges ranges kernel).word 3 = Encodable.encode ranges := Function.update_self 3 _ kernel.word
  rw [keptRanges, word, Encodable.encodek, Option.getD_some]

/-- The pages were used before. Their only word that is left leads from the pointer of a record to its descriptors. -/
def staleBytes (va : Nat) : Memory := storeU64 (va + 80 + 4240) (va + 80 + 128) fun _ => 0

def keptPages : HeapPages (Kernel Ledger) := firstFit.within keptRanges keepRanges keptRanges_keepRanges staleBytes

/-- The heap window is mapped, and the null pointer is not. -/
def heapTables : Translation := fun va =>
  if kernelHeapStart ≤ va ∧ va < kernelHeapStart + 0x100000 then some va else none

/-- The kernel space has one page. -/
def bootKernel : Kernel Ledger :=
  ((runSpaceCalls sixtyFourFrames.calls imageCalls (.zeroed ⟨[], []⟩)).toOption.map Prod.snd).getD (.zeroed ⟨[], []⟩)

/-- The heap window has one container. -/
def familyKernel : Kernel Ledger := keepRanges [(kernelHeapStart, 5)] (keepRanges [] bootKernel)

/-- The container holds a parent, a word for the pids, and a rest. -/
def familyBlocks (full : Bool) : Cont :=
  ⟨kernelHeapStart, 5, [⟨kernelHeapStart + 40, 5008, true⟩, ⟨kernelHeapStart + 5096, 8, true⟩,
    ⟨kernelHeapStart + 5160, 15280, full⟩]⟩

/-- These pages are obtained where the first fit is. -/
theorem keptPages_alloc {pages va : Nat} {bytes : Memory} {ranges ranges' : List (Nat × Nat)} (kernel : Kernel Ledger)
    (obtained : firstFit.vmmAllocBetween pages ranges = .ok (va, bytes, ranges')) :
    keptPages.vmmAllocBetween pages (keepRanges ranges kernel) =
      .ok (va, staleBytes va, keepRanges ranges' (keepRanges ranges kernel)) := by
  change (firstFit.vmmAllocBetween pages (keptRanges (keepRanges ranges kernel))).map _ = _
  rw [keptRanges_keepRanges, obtained]
  rfl

/-- Two containers with the same parts are the same. -/
theorem Cont.eq_of_parts {c c' : Cont} (addr : c.addr = c'.addr) (pages : c.pages = c'.pages)
    (blks : c.blks = c'.blks) : c = c' := by
  cases c
  cases c'
  cases addr
  cases pages
  cases blks
  rfl

theorem familyHeap_holds (full : Bool) :
    ∃ mem, Kheap.Holds keptPages ⟨kernelHeapStart, mem, familyKernel⟩ [familyBlocks full] := by
  have empty : Kheap.Holds keptPages ⟨NULL, fun _ => 0, keepRanges [] bootKernel⟩ [] :=
    ⟨rfl, trivial, by simp, by simp, List.Pairwise.nil, by simp⟩
  have obtained : firstFit.vmmAllocBetween (heapPages sizeofProcess) [] =
      .ok (kernelHeapStart, fun _ => 0, [(kernelHeapStart, 5)]) := by
    rfl
  have fresh := (empty.allocate_fresh (by decide) (keptPages_alloc bootKernel obtained) (by decide)).holds
  have first : (freshCont kernelHeapStart (heapPages sizeofProcess)).take [] (freshBlk kernelHeapStart
      (heapPages sizeofProcess)) [] sizeofProcess = ⟨kernelHeapStart, 5, [⟨kernelHeapStart + 40, 5008, true⟩,
        ⟨kernelHeapStart + 5096, 15344, false⟩]⟩ :=
    Cont.eq_of_parts rfl (by decide +kernel) (by decide +kernel)
  rw [first] at fresh
  have pids := (@Kheap.Holds.serve _ _ _ [] [] _ [⟨kernelHeapStart + 40, 5008, true⟩] [] _ 8 fresh rfl
    ⟨rfl, by decide⟩).1
  have second : Cont.take ⟨kernelHeapStart, 5, [⟨kernelHeapStart + 40, 5008, true⟩,
      ⟨kernelHeapStart + 5096, 15344, false⟩]⟩ [⟨kernelHeapStart + 40, 5008, true⟩]
        ⟨kernelHeapStart + 5096, 15344, false⟩ [] 8 = familyBlocks false :=
    Cont.eq_of_parts rfl rfl (by decide +kernel)
  rw [second] at pids
  cases full with
  | false => exact ⟨_, pids⟩
  | true =>
      have rest := (@Kheap.Holds.serve _ _ _ [] [] (familyBlocks false) [⟨kernelHeapStart + 40, 5008, true⟩,
        ⟨kernelHeapStart + 5096, 8, true⟩] [] _ 15280 pids rfl ⟨rfl, by decide⟩).1
      have third : (familyBlocks false).take [⟨kernelHeapStart + 40, 5008, true⟩, ⟨kernelHeapStart + 5096, 8, true⟩]
          ⟨kernelHeapStart + 5160, 15280, false⟩ [] 15280 = familyBlocks true :=
        Cont.eq_of_parts rfl rfl (by decide +kernel)
      rw [third] at rest
      exact ⟨_, rest⟩

/-- The parent is zeroed, and all pids are unused. -/
def familyMemory (mem : Memory) : Memory :=
  fill (fill mem (kernelHeapStart + 80) 0 5008) (kernelHeapStart + 5136) 0xff 8

def familyStatics : ProcessStatics := ⟨1, ⟨64, 1, kernelHeapStart + 5136⟩, ⟨0, 0, 0⟩⟩

def familyCall : ProcessCall := ⟨fun _ => 0, 0x1000, kernelHeapStart + 80⟩

/-- The heap holds a parent with no family. -/
theorem family_ready (full : Bool) :
    ∃ mem, Kheap.Holds keptPages ⟨kernelHeapStart, mem, familyKernel⟩ [familyBlocks full] ∧
      ProcessesLive [familyBlocks full] familyStatics mem familyCall.parent NULL NULL := by
  obtain ⟨mem, holds⟩ := familyHeap_holds full
  have place : ∀ base count, (∃ d ∈ (familyBlocks full).blks, base = d.header + 40 ∧ count ≤ d.size) →
      ∀ addr, Within base count addr → Payload [familyBlocks full] addr := by
    rintro base count ⟨d, listed, rfl, large⟩ addr ⟨low, high⟩
    exact ⟨_, List.mem_singleton_self _, d, listed, low, by omega⟩
  have differ : DifferIn (Payload [familyBlocks full]) mem (familyMemory mem) :=
    ((DifferIn.refl _ mem).fill_inside 0 (by decide) (place (kernelHeapStart + 80) 5008
      ⟨⟨kernelHeapStart + 40, 5008, true⟩, by simp [familyBlocks], rfl, le_rfl⟩)).fill_inside 0xff (by decide)
      (place (kernelHeapStart + 5136) 8
        ⟨⟨kernelHeapStart + 5096, 8, true⟩, by simp [familyBlocks], rfl, le_rfl⟩)
  have firstAt : loadU64 (familyMemory mem) (child familyCall.parent) = NULL := by
    have zero : loadWord (familyMemory mem) (child familyCall.parent) = 0 := by
      rw [loadWord_eq_zero_iff (by decide)]
      intro addr low high
      have away : ¬distance (kernelHeapStart + 5136) addr < 8 := by
        rw [distance_lt_iff (by decide) (lt_trans high (by decide))]
        exact fun inside => absurd (lt_of_le_of_lt inside.1 high) (by decide)
      have near : distance (kernelHeapStart + 80) addr < 5008 := by
        rw [distance_lt_iff (by decide) (lt_trans high (by decide))]
        exact ⟨le_trans (by decide) low, lt_trans high (by decide)⟩
      rw [familyMemory, fill, if_neg away, fill, if_pos near]
    rw [loadU64, zero]
    rfl
  refine ⟨familyMemory mem, holds.differ_payload differ, ?_, firstAt, ?_, ?_, ?_, ?_⟩
  · exact ⟨⟨kernelHeapStart + 5096, 8, true⟩,
      mem_usedBlks.mpr ⟨_, List.mem_singleton_self _, by simp [familyBlocks], rfl⟩, rfl, le_rfl⟩
  · exact ⟨⟨⟨kernelHeapStart + 40, 5008, true⟩,
      mem_usedBlks.mpr ⟨_, List.mem_singleton_self _, by simp [familyBlocks], rfl⟩, rfl, le_rfl⟩, by decide⟩
  · exact fun nonnull => absurd rfl nonnull
  · exact fun nonnull => absurd rfl nonnull
  · exact fun nonnull => absurd rfl nonnull

/-- A bitmap of one word always gives a pid. -/
theorem familyPid (mem : Memory) : ∃ result, processGetUnusedPid 0 ⟨familyStatics.pidBitmap, mem, []⟩ = .ok result := by
  have small : (bitmapFindAndSetFrom familyStatics.pidBitmap 0 1 0 mem).1 < 64 := by
    simp only [bitmapFindAndSetFrom]
    split_ifs with zero
    · exact Nat.zero_lt_succ 63
    · have leading := BitVec.clz_lt_iff_ne_zero.mpr zero
      have bound : (loadWord mem (familyStatics.pidBitmap.word 0)).clz.toNat < 64 := by
        simpa [BitVec.lt_def] using leading
      exact lt_of_le_of_lt (Nat.mod_le _ _) (by omega)
  have index : u16 (bitmapFindAndSet familyStatics.pidBitmap 0 mem).1 ≠ 64 := by
    have bound : (bitmapFindAndSet familyStatics.pidBitmap 0 mem).1 < 64 := lt_of_le_of_lt (Nat.min_le_left _ _) small
    exact Nat.ne_of_lt (lt_of_le_of_lt (Nat.mod_le _ _) bound)
  have placed : familyStatics.pidBitmap.bitmap ≠ NULL := by decide
  exact ⟨_, (if_neg placed).trans (if_neg index)⟩

/-- The stack has a container of its own. -/
def stackKernel : Kernel Ledger := keepRanges [(kernelHeapStart + 20480, 6), (kernelHeapStart, 5)] familyKernel

/-- The record has a container of its own, and the stack has the next one. -/
def recordKernel : Kernel Ledger := keepRanges [(kernelHeapStart + 20480, 5), (kernelHeapStart, 5)] familyKernel

def bothKernel : Kernel Ledger :=
  keepRanges [(kernelHeapStart + 40960, 6), (kernelHeapStart + 20480, 5), (kernelHeapStart, 5)] recordKernel

/-- The calls on the kernel space succeed when a run of them does. -/
theorem familySpace {kernel : Kernel Ledger} (facts : (do
      let (created, env1) ← vmmCreateSpace sixtyFourFrames 0x1000 lowerHalfStop kernel
      let env2 ← vmmCopyRegions sixtyFourFrames (u64 created) familyStatics.kspace env1
      let (ustack, _) ← vmmAllocAt sixtyFourFrames (u64 created) 0xf000 8 pageUserRw env2
      .ok (created, ustack) : Outcome (Nat × Nat)).toOption = some (3, 0xf000)) : ∃ created env1 env2 ustack env,
    vmmCreateSpace sixtyFourFrames 0x1000 lowerHalfStop kernel = .ok (created, env1) ∧
      u64 created ≠ NULL ∧ vmmCopyRegions sixtyFourFrames (u64 created) familyStatics.kspace env1 = .ok env2 ∧
      vmmAllocAt sixtyFourFrames (u64 created) 0xf000 8 pageUserRw env2 = .ok (ustack, env) ∧ ustack ≠ NULL := by
  rcases creates : vmmCreateSpace sixtyFourFrames 0x1000 lowerHalfStop kernel with fault | ⟨created, env1⟩
  · rw [creates] at facts
    cases facts
  rw [creates] at facts
  change (vmmCopyRegions sixtyFourFrames (u64 created) familyStatics.kspace env1 >>= fun env2 =>
    vmmAllocAt sixtyFourFrames (u64 created) 0xf000 8 pageUserRw env2 >>= fun result =>
      .ok (created, result.1)).toOption = some (3, 0xf000) at facts
  rcases copies : vmmCopyRegions sixtyFourFrames (u64 created) familyStatics.kspace env1 with fault | env2
  · rw [copies] at facts
    cases facts
  rw [copies] at facts
  change (vmmAllocAt sixtyFourFrames (u64 created) 0xf000 8 pageUserRw env2 >>= fun result =>
    .ok (created, result.1)).toOption = some (3, 0xf000) at facts
  rcases maps : vmmAllocAt sixtyFourFrames (u64 created) 0xf000 8 pageUserRw env2 with fault | ⟨ustack, env⟩
  · rw [maps] at facts
    cases facts
  rw [maps] at facts
  obtain ⟨rfl, rfl⟩ := Prod.mk.inj (Option.some.inj facts)
  exact ⟨3, env1, env2, 0xf000, env, creates, by decide, copies, maps, by decide⟩

/-- The call is granted a record in the rest of the container, and a stack on fresh pages. -/
theorem family_granted {mem : Memory}
    (holds : Kheap.Holds keptPages ⟨kernelHeapStart, mem, familyKernel⟩ [familyBlocks false]) :
    Granted sixtyFourFrames keptPages 0 familyStatics familyCall ⟨kernelHeapStart, mem, familyKernel⟩ := by
  have first : ServesFirst [] [⟨kernelHeapStart + 40, 5008, true⟩, ⟨kernelHeapStart + 5096, 8, true⟩]
      ⟨kernelHeapStart + 5160, 15280, false⟩ sizeofProcess :=
    ⟨⟨rfl, by decide⟩, by simp, by simp [Blk.Serves]⟩
  have record := @kmalloc_first _ keptPages _ [] [] (familyBlocks false) _ [] _ _ holds rfl first
  have grown := (@Kheap.Holds.serve _ _ _ [] [] (familyBlocks false) [⟨kernelHeapStart + 40, 5008, true⟩,
    ⟨kernelHeapStart + 5096, 8, true⟩] [] _ sizeofProcess holds rfl first.serves).1
  have blocks : (familyBlocks false).take [⟨kernelHeapStart + 40, 5008, true⟩, ⟨kernelHeapStart + 5096, 8, true⟩]
      ⟨kernelHeapStart + 5160, 15280, false⟩ [] sizeofProcess =
        ⟨kernelHeapStart, 5, [⟨kernelHeapStart + 40, 5008, true⟩, ⟨kernelHeapStart + 5096, 8, true⟩,
          ⟨kernelHeapStart + 5160, 5008, true⟩, ⟨kernelHeapStart + 10216, 10224, false⟩]⟩ :=
    Cont.eq_of_parts rfl rfl (by decide +kernel)
  rw [blocks] at grown
  have obtained : firstFit.vmmAllocBetween (heapPages processKernelStackSize) [(kernelHeapStart, 5)] =
      .ok (kernelHeapStart + 20480, fun _ => 0, [(kernelHeapStart + 20480, 6), (kernelHeapStart, 5)]) := by
    rfl
  have kstack := kmalloc_unserved grown (by simp [Blk.Serves, processKernelStackSize]) (by decide)
    (keptPages_alloc (keepRanges [] bootKernel) obtained) (by decide)
  obtain ⟨created, env1, env2, ustack, env, creates, nonnull, copies, maps, mapped⟩ :=
    @familySpace stackKernel (by decide +kernel)
  exact ⟨by decide, familyPid mem, _, _, created, _, _, env, record, by decide, kstack, by decide, env1, env2, ustack,
    creates, nonnull, copies, maps, mapped⟩

/-- The blocks of the family lie in the heap window. -/
theorem familyHeap_mapped (full : Bool) : HeapMapped heapTables [familyBlocks full] := by
  rintro addr ⟨c, member, d, listed, low, high⟩
  obtain rfl := List.mem_singleton.mp member
  have all : ∀ d ∈ (familyBlocks full).blks,
      kernelHeapStart ≤ d.header ∧ d.header + 40 + d.size ≤ kernelHeapStart + 0x100000 := by
    cases full <;> decide
  have inside := all d listed
  rw [heapTables, if_pos ⟨by omega, by omega⟩]
  rfl

/-- The stale pointer of a fresh page leads to the descriptors of the record on it. -/
theorem staleBytes_pointer {va : Nat} (room : va + 208 < 2 ^ 64) :
    loadU64 (staleBytes va) (va + 80 + 4240) = va + 80 + 128 := by
  rw [staleBytes, loadU64_stored, u64]
  exact Nat.mod_eq_of_lt (by omega)

/-- The words of the signals are clear on such a page, behind the filled bytes. -/
theorem staleBytes_clear {va : Nat} (room : va + 20480 < 2 ^ 64) : SignalsClear (staleBytes va) (va + 80) := by
  rintro addr ⟨low, high⟩
  unfold maskedSignals at low high
  rw [staleBytes_pointer (by omega)]
  constructor
  · have far : ¬distance (va + 80 + 4240) addr < 8 := by
      rw [distance_lt_iff (by omega) (by omega), Within]
      omega
    rw [staleBytes, storeU64, storeWord, if_neg far]
  · rw [distance_lt_iff (by omega) (by omega), Within]
    omega

/-- The record and its stack get fresh pages. -/
theorem family_fresh {mem : Memory}
    (holds : Kheap.Holds keptPages ⟨kernelHeapStart, mem, familyKernel⟩ [familyBlocks true]) :
    ∃ stack created grown taken env, Obtains sixtyFourFrames keptPages familyStatics
        ⟨kernelHeapStart, mem, familyKernel⟩ (kernelHeapStart + 20480 + 80) stack created grown taken env := by
  have unfit : ∀ c ∈ [familyBlocks true], ∀ d ∈ c.blks, ¬d.Serves sizeofProcess := by simp [familyBlocks, Blk.Serves]
  have obtained : firstFit.vmmAllocBetween (heapPages sizeofProcess) [(kernelHeapStart, 5)] =
      .ok (kernelHeapStart + 20480, fun _ => 0, [(kernelHeapStart + 20480, 5), (kernelHeapStart, 5)]) := by
    rfl
  have record := kmalloc_unserved holds unfit (by decide) (keptPages_alloc (keepRanges [] bootKernel) obtained) (by decide)
  have grown := (holds.allocate_fresh (by decide) (keptPages_alloc (keepRanges [] bootKernel) obtained) (by decide)).holds
  have first : (freshCont (kernelHeapStart + 20480) (heapPages sizeofProcess)).take [] (freshBlk (kernelHeapStart + 20480)
      (heapPages sizeofProcess)) [] sizeofProcess = ⟨kernelHeapStart + 20480, 5, [⟨kernelHeapStart + 20520, 5008, true⟩,
        ⟨kernelHeapStart + 25576, 15344, false⟩]⟩ :=
    Cont.eq_of_parts rfl (by decide +kernel) (by decide +kernel)
  rw [first] at grown
  have obtained' : firstFit.vmmAllocBetween (heapPages processKernelStackSize)
      [(kernelHeapStart + 20480, 5), (kernelHeapStart, 5)] = .ok (kernelHeapStart + 40960, fun _ => 0,
        [(kernelHeapStart + 40960, 6), (kernelHeapStart + 20480, 5), (kernelHeapStart, 5)]) := by
    rfl
  have kstack := kmalloc_unserved grown (by simp [familyBlocks, Blk.Serves, processKernelStackSize]) (by decide)
    (keptPages_alloc familyKernel obtained') (by decide)
  obtain ⟨created, env1, env2, ustack, env, creates, nonnull, copies, maps, mapped⟩ :=
    @familySpace bothKernel (by decide +kernel)
  exact ⟨_, created, _, _, env, record, by decide, kstack, by decide, env1, env2, ustack, creates, nonnull, copies, maps,
    mapped⟩

end ProcessRecord

end B0s
