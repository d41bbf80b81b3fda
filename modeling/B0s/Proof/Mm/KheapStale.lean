import B0s.Library.MemoryFrame
import B0s.Proof.Mm.KheapRestore
import B0s.Proof.Mm.KheapWindow

/-
This file compares the calls of `kmalloc` on heaps that differ only in the payload of their unused blocks.
-/

namespace ByteMemory
open B0s

variable {area : Nat → Prop} {mem mem' : Memory}

/-- The stores of the heap keep the difference of two memories. -/
theorem DifferIn.storeU64 (differ : DifferIn area mem mem') (addr value : Nat) :
    DifferIn area (storeU64 addr value mem) (storeU64 addr value mem') :=
  differ.storeWord addr (BitVec.ofNat 64 value)

theorem DifferIn.storeU8 (differ : DifferIn area mem mem') (addr value : Nat) :
    DifferIn area (storeU8 addr value mem) (storeU8 addr value mem') :=
  differ.update (u64 addr) (BitVec.ofNat 8 value)

theorem DifferIn.storeUnlessNull (differ : DifferIn area mem mem') (base addr value : Nat) :
    DifferIn area (storeUnlessNull base addr value mem) (storeUnlessNull base addr value mem') := by
  unfold B0s.storeUnlessNull
  split_ifs
  · exact differ.storeU64 addr value
  · exact differ

theorem DifferIn.loadU64 (differ : DifferIn area mem mem') {addr : Nat} (room : addr + 8 ≤ 2 ^ 64)
    (spared : Spared area addr 8) : loadU64 mem' addr = loadU64 mem addr := by
  rw [B0s.loadU64, B0s.loadU64, differ.loadWord room spared]

end ByteMemory

namespace B0s
open ByteMemory

/-- The payload of a list of containers. -/
def Payload (cs : List Cont) (addr : Nat) : Prop := ∃ c ∈ cs, ∃ d ∈ c.blks, Within (d.header + 40) d.size addr

/-- The bytes of a list of containers that belong to no live allocation. -/
def Dead (cs : List Cont) (addr : Nat) : Prop :=
  ∃ c ∈ cs, ∃ d ∈ c.blks, d.used = false ∧ Within (d.header + 40) d.size addr

/-- A live allocation starts at a pointer, and it has room for a size. -/
def Live (cs : List Cont) (ptr size : Nat) : Prop := ∃ d ∈ usedBlks cs, d.header + 40 = ptr ∧ size ≤ d.size

/-- An address lies in no live allocation. -/
def Idle (cs : List Cont) (addr : Nat) : Prop := ∀ d ∈ usedBlks cs, ¬Within (d.header + 40) d.size addr

/-- Two heaps have the same live part when only bytes of no live allocation differ. -/
structure Kheap.SameLive {σ : Type} (cs : List Cont) (kheap kheap' : Kheap σ) : Prop where
  heap : kheap'.heap = kheap.heap
  env : kheap'.env = kheap.env
  mem : DifferIn (Dead cs) kheap.mem kheap'.mem

/-- Two heaps have the same containers, and their memories differ in an area. -/
structure Kheap.Twins {σ : Type} (source : HeapPages σ) (area : Nat → Prop) (cs : List Cont) (kheap kheap' : Kheap σ) :
    Prop where
  holds : kheap.Holds source cs
  holds' : kheap'.Holds source cs
  env : kheap'.env = kheap.env
  differ : DifferIn area kheap.mem kheap'.mem

theorem Dead.payload {cs : List Cont} {addr : Nat} (dead : Dead cs addr) : Payload cs addr := by
  obtain ⟨c, member, d, listed, -, inside⟩ := dead
  exact ⟨c, member, d, listed, inside⟩

section
variable {area : Nat → Prop} {mem mem' : Memory} {c : Cont} {before after : List Blk} {b : Blk} {n : Nat}

/-- The blocks of one container are taken with the same stores. -/
theorem foundBlock_differ (differ : DifferIn area mem mem') (holds : c.Holds mem) (holds' : c.Holds mem') (fits : c.Fits)
    (split : c.blks = before ++ b :: after) (serves : b.Serves n) :
    DifferIn area (foundBlock b.header n mem) (foundBlock b.header n mem') := by
  rw [foundBlock_eq holds fits split serves.2, foundBlock_eq holds' fits split serves.2]
  have marked : DifferIn area (markBlock b.header c.addr (c.usedCount + 1) 1 mem)
      (markBlock b.header c.addr (c.usedCount + 1) 1 mem') := (differ.storeU8 _ _).storeU64 _ _
  split_ifs with full
  · exact marked
  · exact (((((((marked.storeU64 _ _).storeU64 _ _).storeU64 _ _).storeU8 _ _).storeU64 _ _).storeU64 _ _).storeUnlessNull
      _ _ _).storeU64 _ _

/-- The requested bytes of a taken block are as they were. -/
theorem foundBlock_payload (holds : c.Holds mem) (fits : c.Fits) (split : c.blks = before ++ b :: after)
    (serves : b.Serves n) {addr : Nat} (inside : Within (b.header + 40) n addr) : foundBlock b.header n mem addr = mem addr := by
  have around := fits.around split
  have page := fits.aligned
  have bounded := fits.bounded
  have low := around.low
  have high := around.high
  have place := around.aligned
  have large := serves.2
  have stopIs : b.stop = b.header + 40 + b.size := rfl
  have ends := @restHeaderEnd_bounds b.header n place
  obtain ⟨nextAt, -⟩ := fits.next_header split
  obtain ⟨first, last⟩ := inside
  have marks : Agrees [c.addr + 8, b.header + 8] mem (markBlock b.header c.addr (c.usedCount + 1) 1 mem) :=
    ((Agrees.refl mem).storeU8 ⟨by omega, by omega⟩).storeU64 ⟨by omega, by omega⟩
  rw [foundBlock_eq holds fits split large]
  split_ifs with full
  · apply marks addr (by omega)
    intro word member
    simp only [List.mem_cons, List.not_mem_nil, or_false] at member
    omega
  · have inside : restHeaderEnd b.header n < b.stop := Nat.lt_of_not_le full
    generalize restHeaderEnd b.header n = stop at *
    generalize nextHeader after = next at *
    have places : SplitPlaces b.header (stop - 40) next := by
      refine ⟨by omega, by omega, by omega, by omega, ?_⟩
      intro nonnull
      have nonzero : next ≠ 0 := nonnull
      omega
    have values := @splitBlock_values b.header n (stop - 40) (b.stop - stop) next c.addr
      (markBlock b.header c.addr (c.usedCount + 1) 1 mem) places (by omega) (by omega) (by omega) (by omega)
    apply (marks.trans values.agrees) addr (by omega)
    intro word member
    simp only [splitWords, List.mem_append, List.mem_cons, List.not_mem_nil, or_false] at member
    have room := (fits.around split).low
    have start := fits.low
    omega

end

/-- Either no block of the heap can serve a request, or one of them is the first. -/
theorem servesFirst_cases (cs : List Cont) (n : Nat) : (∀ c ∈ cs, ∀ d ∈ c.blks, ¬d.Serves n) ∨
    ∃ xs c ys before b after, cs = xs ++ c :: ys ∧ c.blks = before ++ b :: after ∧ ServesFirst xs before b n := by
  induction cs with
  | nil => exact Or.inl (by simp)
  | cons c cs ih =>
      by_cases here : ∃ d ∈ c.blks, d.Serves n
      · obtain ⟨d, listed, serves⟩ := here
        have found : (c.blks.find? fun d => decide (d.Serves n)).isSome = true :=
          List.find?_isSome.mpr ⟨d, listed, decide_eq_true serves⟩
        obtain ⟨b, at_⟩ := Option.isSome_iff_exists.mp found
        obtain ⟨serves, before, after, split, first⟩ := List.find?_eq_some_iff_append.mp at_
        refine Or.inr ⟨[], c, cs, before, b, after, rfl, split, of_decide_eq_true serves, by simp, ?_⟩
        intro d member
        simpa using first d member
      · have none : ∀ d ∈ c.blks, ¬d.Serves n := fun d listed serves => here ⟨d, listed, serves⟩
        rcases ih with unfit | ⟨xs, c', ys, before, b, after, shape, split, first⟩
        · refine Or.inl fun d member => ?_
          rcases List.mem_cons.mp member with rfl | later
          · exact none
          · exact unfit d later
        · refine Or.inr ⟨c :: xs, c', ys, before, b, after, by rw [shape]; rfl, split, first.serves, ?_, first.blocks⟩
          intro d member
          rcases List.mem_cons.mp member with rfl | later
          · exact none
          · exact first.containers d later

/-- The memory with a new container of fresh pages in front of the heap. -/
@[irreducible] def freshMemory (va pages : Nat) (bytes : Memory) (heap : Nat) (mem : Memory) : Memory :=
  containerStores va (pages * 4096 - 40) heap (overlay va pages bytes mem)

/-- The block of a new container. -/
def freshBlk (va pages : Nat) : Blk := ⟨va + 40, pages * 4096 - 80, false⟩

section
variable {σ : Type} {source : HeapPages σ} {area : Nat → Prop} {kheap kheap' next : Kheap σ} {cs : List Cont} {n : Nat}

/-- A change of payload bytes keeps the heap. -/
theorem Kheap.Holds.differ_payload (holds : kheap.Holds source cs) {mem' : Memory}
    (differ : DifferIn (Payload cs) kheap.mem mem') : Kheap.Holds source { kheap with mem := mem' } cs := by
  apply holds.keeps_headers
  intro kind header used offset small
  have below : header + 40 < 2 ^ 64 := by
    cases kind with
    | container =>
        obtain ⟨c, member, rfl⟩ := used
        have room := (holds.fits c member).room
        have bounded := (holds.fits c member).bounded
        omega
    | block =>
        obtain ⟨c, member, d, listed, rfl⟩ := used
        have place := (holds.fits c member).inside d listed
        have bounded := (holds.fits c member).bounded
        unfold Blk.stop at place
        omega
  apply differ _ (by omega)
  rintro ⟨c, member, d, listed, low, high⟩
  have outside := holds.block_outside used member listed low (by unfold Blk.stop; omega)
  omega

/-- Another memory that differs only in bytes of no live allocation has the same live part. -/
theorem Kheap.SameLive.of_differ {mem' : Memory} (differ : DifferIn (Dead cs) kheap.mem mem') :
    kheap.SameLive cs { kheap with mem := mem' } :=
  ⟨rfl, rfl, differ⟩

/-- Heaps with the same live part have the same containers. -/
theorem Kheap.SameLive.twins (same : kheap.SameLive cs kheap') (holds : kheap.Holds source cs) :
    kheap.Twins source (Dead cs) cs kheap' := by
  refine ⟨holds, ?_, same.env, same.mem⟩
  have kept := holds.differ_payload (same.mem.mono fun _ _ => Dead.payload)
  obtain ⟨heap, mem, env⟩ := kheap'
  obtain ⟨rfl, rfl⟩ : heap = kheap.heap ∧ env = kheap.env := ⟨same.heap, same.env⟩
  exact kept

/-- The first block that can serve a request is taken in place. -/
theorem Kheap.Holds.take_first {xs ys : List Cont} {c : Cont} {before after : List Blk} {b : Blk}
    (holds : kheap.Holds source (xs ++ c :: ys)) (split : c.blks = before ++ b :: after) (serves : b.Serves n) :
    Allocated source kheap (xs ++ c :: ys) n (b.header + 40) { kheap with mem := foundBlock b.header n kheap.mem }
      (xs ++ c.take before b after n :: ys) := by
  obtain ⟨taken, spares⟩ := holds.serve split serves
  exact ⟨taken, spares, xs, c, ys, before, b, after, split, serves, rfl, rfl, Or.inl ⟨rfl, rfl⟩⟩

/-- The pages that a request gets hold it in one block. -/
theorem freshBlk_serves {va : Nat} (small : n + 3 * pageSizeInBytes < 2 ^ 64) : (freshBlk va (heapPages n)).Serves n := by
  obtain ⟨b, listed, serves⟩ := @freshCont_serves n va small
  have same : b = freshBlk va (heapPages n) := List.mem_singleton.mp listed
  exact same ▸ serves

/-- Fresh pages become a container whose block is taken. -/
theorem Kheap.Holds.take_fresh (holds : kheap.Holds source cs) {va : Nat} {bytes : Memory} {env : σ}
    (obtained : source.vmmAllocBetween (heapPages n) kheap.env = .ok (va, bytes, env)) (nonnull : va ≠ NULL) :
    createContainer source (u64 (n + sizeofBlock) / pageSizeInBytes + 2) kheap =
        .ok (va, ⟨va, freshMemory va (heapPages n) bytes kheap.heap kheap.mem, env⟩) ∧
      Kheap.Holds source ⟨va, freshMemory va (heapPages n) bytes kheap.heap kheap.mem, env⟩
        (freshCont va (heapPages n) :: cs) ∧
      Spares cs kheap.mem (freshMemory va (heapPages n) bytes kheap.heap kheap.mem) := by
  obtain ⟨aligned, bounded, ranges, fresh⟩ := source.alloc_fresh _ _ _ _ _ obtained nonnull
  have few : 5 ≤ heapPages n := le_max_left _ _
  unfold pageSizeInBytes at aligned bounded fresh
  have apart : ∀ c ∈ cs, va + heapPages n * 4096 ≤ c.addr ∨ c.stop ≤ va := fun c member => fresh _ (holds.ranges c member)
  have places := holds.list.places aligned (by omega) fun c member => by have away := apart c member; omega
  have created := createContainer_eq obtained nonnull places (by unfold heapPages at bounded; omega)
  obtain ⟨kept, linked⟩ := (holds.create created).2
  rw [freshMemory]
  exact ⟨created, linked nonnull⟩

/-- A request that no block can serve goes to a new container. -/
theorem kmalloc_searched (holds : kheap.Holds source cs) (unfit : ∀ c ∈ cs, ∀ d ∈ c.blks, ¬d.Serves n) :
    kmalloc source n kheap = (do
      let (c, kheap) ← createContainer source (u64 (n + sizeofBlock) / pageSizeInBytes + 2) kheap
      if c = NULL then .ok (NULL, kheap)
      else do
        let (b, mem) ← tryAllocBlock c n kheap.mem
        if b = NULL then .error (.panic .kmallocImpossible)
        else .ok (blockData b, { kheap with mem := mem })) := by
  have searched : kmallocSearch n walkLimit kheap.heap kheap.mem = .ok (NULL, kheap.mem) := by
    rw [holds.heap]
    rcases @kmallocSearch_spec [] cs _ _ n walkLimit holds.list holds.length_lt with
      ⟨none, -⟩ | ⟨b, mem', cs', served, -, -⟩
    · exact none
    · obtain ⟨xs, c, ys, before, after, shape, split, -⟩ := served.taken
      have shape' : cs = xs ++ c :: ys := shape
      exact absurd served.serves (unfit c (by simp [shape']) b (by simp [split]))
  rw [kmalloc, searched]
  simp only [bind, Except.bind, ne_eq, not_true_eq_false, if_false]

/-- With fresh pages the request is served from them. -/
theorem kmalloc_unserved (holds : kheap.Holds source cs) (unfit : ∀ c ∈ cs, ∀ d ∈ c.blks, ¬d.Serves n)
    (small : n + 3 * pageSizeInBytes < 2 ^ 64) {va : Nat} {bytes : Memory} {env : σ}
    (obtained : source.vmmAllocBetween (heapPages n) kheap.env = .ok (va, bytes, env)) (nonnull : va ≠ NULL) :
    kmalloc source n kheap =
      .ok (va + 80, ⟨va, foundBlock (va + 40) n (freshMemory va (heapPages n) bytes kheap.heap kheap.mem), env⟩) := by
  obtain ⟨created, fresh, -⟩ := holds.take_fresh obtained nonnull
  have fits := fresh.fits _ List.mem_cons_self
  have found := tryAllocBlock_first (fresh.holds _ List.mem_cons_self) fits
    (show (freshCont va (heapPages n)).blks = [] ++ freshBlk va (heapPages n) :: [] from rfl)
    (freshBlk_serves small) (by simp)
  obtain ⟨data, placed⟩ := fits.pointer (List.mem_singleton_self (freshBlk va (heapPages n)))
  have placed' : va + 40 ≠ NULL := placed
  have data' : blockData (va + 40) = va + 80 := data
  have found' : tryAllocBlock va n (freshMemory va (heapPages n) bytes kheap.heap kheap.mem) =
    .ok (va + 40, foundBlock (va + 40) n (freshMemory va (heapPages n) bytes kheap.heap kheap.mem)) := found
  rw [kmalloc_searched holds unfit]
  refine Outcome.bind_eq_ok.mpr ⟨_, created, ?_⟩
  dsimp only
  rw [if_neg nonnull]
  refine Outcome.bind_eq_ok.mpr ⟨_, found', ?_⟩
  dsimp only
  rw [if_neg placed', data']

/-- A request that no block can serve gets a block only with fresh pages. -/
theorem kmalloc_obtained (holds : kheap.Holds source cs) (unfit : ∀ c ∈ cs, ∀ d ∈ c.blks, ¬d.Serves n) {ptr : Nat}
    (returned : kmalloc source n kheap = .ok (ptr, next)) (nonnull : ptr ≠ NULL) :
    ∃ va bytes env, source.vmmAllocBetween (heapPages n) kheap.env = .ok (va, bytes, env) ∧ va ≠ NULL := by
  rw [kmalloc_searched holds unfit] at returned
  obtain ⟨⟨va, grown⟩, created, rest⟩ := Outcome.bind_eq_ok.mp returned
  obtain ⟨bytes, obtained⟩ := (holds.create created).1
  refine ⟨va, bytes, grown.env, obtained, ?_⟩
  rintro rfl
  exact nonnull (congrArg Prod.fst (Except.ok.inj rest)).symm

/-- The block of fresh pages is taken in front of the heap. -/
theorem Kheap.Holds.allocate_fresh (holds : kheap.Holds source cs) (small : n + 3 * pageSizeInBytes < 2 ^ 64) {va : Nat}
    {bytes : Memory} {env : σ} (obtained : source.vmmAllocBetween (heapPages n) kheap.env = .ok (va, bytes, env))
    (nonnull : va ≠ NULL) :
    Allocated source kheap cs n (va + 80)
      ⟨va, foundBlock (va + 40) n (freshMemory va (heapPages n) bytes kheap.heap kheap.mem), env⟩
      ((freshCont va (heapPages n)).take [] (freshBlk va (heapPages n)) [] n :: cs) := by
  obtain ⟨-, fresh, spares⟩ := holds.take_fresh obtained nonnull
  have fresh' : Kheap.Holds source ⟨va, freshMemory va (heapPages n) bytes kheap.heap kheap.mem, env⟩
    ([] ++ freshCont va (heapPages n) :: cs) := fresh
  have split : (freshCont va (heapPages n)).blks = [] ++ freshBlk va (heapPages n) :: [] := rfl
  have serves := @freshBlk_serves n va small
  obtain ⟨taken, spares'⟩ := fresh'.serve split serves
  refine ⟨taken, ?_, [], _, cs, [], _, [], split, serves, rfl, rfl,
    Or.inr ⟨rfl, rfl, va, heapPages n, bytes, rfl, le_max_left _ _, obtained⟩⟩
  intro c member d listed used addr low high
  have later := spares' c (List.mem_cons_of_mem _ member) d listed used addr low high
  exact later.trans (spares c member d listed used addr low high)

/-- The overlay of fresh pages and the stores of a new container keep the difference of two memories. -/
theorem freshMemory_differ {mem mem' : Memory} (differ : DifferIn area mem mem') (va pages : Nat) (bytes : Memory)
    (heap : Nat) : DifferIn area (freshMemory va pages bytes heap mem) (freshMemory va pages bytes heap mem') := by
  have covered : DifferIn area (overlay va pages bytes mem) (overlay va pages bytes mem') := by
    intro addr small outside
    unfold overlay
    split_ifs
    · rfl
    · exact differ addr small outside
  rw [freshMemory, freshMemory]
  exact ((((((((((covered.storeU64 _ _).storeU64 _ _).storeU64 _ _).storeU64 _ _).storeUnlessNull _ _ _).storeU64 _
    _).storeU64 _ _).storeU8 _ _).storeU64 _ _).storeU64 _ _).storeU64 _ _

theorem foundBlock_fresh_differ {mem mem' : Memory} {va pages : Nat} (differ : DifferIn area mem mem')
    (holds : (freshCont va pages).Holds mem) (holds' : (freshCont va pages).Holds mem') (fits : (freshCont va pages).Fits)
    (serves : (freshBlk va pages).Serves n) : DifferIn area (foundBlock (va + 40) n mem) (foundBlock (va + 40) n mem') :=
  @foundBlock_differ area mem mem' (freshCont va pages) [] [] (freshBlk va pages) n differ holds holds' fits rfl serves

/-- A call on two heaps with the same containers takes the same block from both. -/
structure Kheap.Takes {σ : Type} (source : HeapPages σ) (area : Nat → Prop) (kheap kheap' : Kheap σ) (cs : List Cont)
    (n ptr : Nat) (next next' : Kheap σ) (cs' : List Cont) : Prop where
  twins : next.Twins source area cs' next'
  allocated : Allocated source kheap cs n ptr next cs'
  allocated' : Allocated source kheap' cs n ptr next' cs'

theorem Kheap.Twins.kmalloc {ptr : Nat} (twins : kheap.Twins source area cs kheap')
    (small : n + 3 * pageSizeInBytes < 2 ^ 64) (returned : kmalloc source n kheap = .ok (ptr, next)) (nonnull : ptr ≠ NULL) :
    ∃ cs' next', kmalloc source n kheap' = .ok (ptr, next') ∧
      Kheap.Takes source area kheap kheap' cs n ptr next next' cs' := by
  obtain ⟨holds, holds', env, differ⟩ := twins
  have heap : kheap'.heap = kheap.heap := holds'.heap.trans holds.heap.symm
  rcases servesFirst_cases cs n with unfit | ⟨xs, c, ys, before, b, after, rfl, split, first⟩
  · obtain ⟨va, bytes, env', obtained, fresh⟩ := kmalloc_obtained holds unfit returned nonnull
    have obtained' : source.vmmAllocBetween (heapPages n) kheap'.env = .ok (va, bytes, env') := env ▸ obtained
    obtain ⟨rfl, rfl⟩ := Prod.mk.inj (Except.ok.inj ((kmalloc_unserved holds unfit small obtained fresh).symm.trans returned))
    have allocated := holds.allocate_fresh small obtained fresh
    have allocated' := holds'.allocate_fresh small obtained' fresh
    refine ⟨_, _, kmalloc_unserved holds' unfit small obtained' fresh, ⟨allocated.holds, allocated'.holds, rfl, ?_⟩,
      allocated, allocated'⟩
    obtain ⟨-, created, -⟩ := holds.take_fresh obtained fresh
    obtain ⟨-, created', -⟩ := holds'.take_fresh obtained' fresh
    have covered := freshMemory_differ differ va (heapPages n) bytes kheap.heap
    rw [heap] at created' ⊢
    exact foundBlock_fresh_differ covered (created.holds _ List.mem_cons_self) (created'.holds _ List.mem_cons_self)
      (created.fits _ List.mem_cons_self) (freshBlk_serves small)
  · obtain ⟨rfl, rfl⟩ := Prod.mk.inj (Except.ok.inj ((kmalloc_first holds split first).symm.trans returned))
    have allocated := holds.take_first split first.serves
    have allocated' := holds'.take_first split first.serves
    refine ⟨_, _, kmalloc_first holds' split first, ⟨allocated.holds, allocated'.holds, env, ?_⟩, allocated, allocated'⟩
    exact foundBlock_differ differ (holds.holds c (by simp)) (holds'.holds c (by simp)) (holds.fits c (by simp)) split
      first.serves

/-- The payload of a new container keeps the bytes of its pages. -/
theorem Kheap.Holds.fresh_payload (holds : kheap.Holds source cs) {va : Nat} {bytes : Memory} {env : σ}
    (obtained : source.vmmAllocBetween (heapPages n) kheap.env = .ok (va, bytes, env)) (nonnull : va ≠ NULL) {addr : Nat}
    (low : va + 80 ≤ addr) (high : addr < va + heapPages n * 4096) :
    freshMemory va (heapPages n) bytes kheap.heap kheap.mem addr = bytes addr := by
  obtain ⟨aligned, bounded, ranges, fresh⟩ := source.alloc_fresh _ _ _ _ _ obtained nonnull
  have few : 5 ≤ heapPages n := le_max_left _ _
  generalize heapPages n = pages at *
  unfold pageSizeInBytes at aligned bounded fresh
  have apart : ∀ c ∈ cs, va + pages * 4096 ≤ c.addr ∨ c.stop ≤ va := fun c member => fresh _ (holds.ranges c member)
  have places := holds.list.places aligned (by omega) fun c member => by have away := apart c member; omega
  have values := containerStores_values (overlay va pages bytes kheap.mem) places (by omega : pages * 4096 - 40 < 2 ^ 64)
    holds.list.heap_lt
  have outside : kheap.heap + 24 ≤ va ∨ va + pages * 4096 ≤ kheap.heap := by
    rcases holds.list.heap_cases with null | ⟨c, member, named⟩
    · have zero : va ≠ 0 := nonnull
      rw [null]
      unfold NULL
      omega
    · have away := apart c member
      have room := (holds.fits c member).room
      omega
  rw [freshMemory, values.agrees addr (by omega) _, overlay, if_pos]
  · unfold pageSizeInBytes
    omega
  · intro word listed
    simp only [containerWords, List.mem_cons, List.not_mem_nil, or_false] at listed
    omega

/-- Without a block that serves it, a request gets fresh bytes that lie in no block of the heap. -/
theorem Kheap.Holds.kmalloc_fresh (holds : kheap.Holds source cs) (unfit : ∀ c ∈ cs, ∀ d ∈ c.blks, ¬d.Serves n)
    (small : n + 3 * pageSizeInBytes < 2 ^ 64) {ptr : Nat} (returned : kmalloc source n kheap = .ok (ptr, next))
    (nonnull : ptr ≠ NULL) :
    ∃ va bytes env, source.vmmAllocBetween (heapPages n) kheap.env = .ok (va, bytes, env) ∧ va ≠ NULL ∧ ptr = va + 80 ∧
      (∀ addr, Within ptr n addr → next.mem addr = bytes addr) ∧ Spared (Payload cs) ptr n := by
  obtain ⟨va, bytes, env, obtained, fresh⟩ := kmalloc_obtained holds unfit returned nonnull
  obtain ⟨rfl, rfl⟩ := Prod.mk.inj (Except.ok.inj ((kmalloc_unserved holds unfit small obtained fresh).symm.trans returned))
  obtain ⟨-, created, -⟩ := holds.take_fresh obtained fresh
  have serves := @freshBlk_serves n va small
  have large : n ≤ heapPages n * 4096 - 80 := serves.2
  refine ⟨va, bytes, env, obtained, fresh, rfl, ?_, ?_⟩
  · intro addr inside
    have payload := @foundBlock_payload _ (freshCont va (heapPages n)) [] [] (freshBlk va (heapPages n)) n
      (created.holds _ List.mem_cons_self) (created.fits _ List.mem_cons_self) rfl serves addr inside
    obtain ⟨low, high⟩ := inside
    exact payload.trans (holds.fresh_payload obtained fresh low (by have few : 5 ≤ heapPages n := le_max_left _ _; omega))
  · rintro offset less ⟨c, member, d, listed, low, high⟩
    obtain ⟨-, -, -, apart⟩ := source.alloc_fresh _ _ _ _ _ obtained fresh
    have away := apart _ (holds.ranges c member)
    have place := (holds.fits c member).inside d listed
    have few : 5 ≤ heapPages n := le_max_left _ _
    unfold pageSizeInBytes at away
    unfold Blk.stop Cont.stop at place
    dsimp only at away
    omega

/-- With a block that serves it, a request gets the stale bytes of an unused block. -/
theorem Kheap.Holds.kmalloc_reused (holds : kheap.Holds source cs) (fit : ¬∀ c ∈ cs, ∀ d ∈ c.blks, ¬d.Serves n) {ptr : Nat}
    (returned : kmalloc source n kheap = .ok (ptr, next)) :
    ∀ addr, Within ptr n addr → Dead cs addr ∧ next.mem addr = kheap.mem addr := by
  obtain ⟨xs, c, ys, before, b, after, rfl, split, first⟩ := (servesFirst_cases cs n).resolve_left fit
  obtain ⟨rfl, rfl⟩ := Prod.mk.inj (Except.ok.inj ((kmalloc_first holds split first).symm.trans returned))
  intro addr inside
  refine ⟨⟨c, by simp, b, by simp [split], first.serves.1, ?_⟩, ?_⟩
  · obtain ⟨low, high⟩ := inside
    exact ⟨low, lt_of_lt_of_le high (Nat.add_le_add_left first.serves.2 _)⟩
  · exact foundBlock_payload (holds.holds c (by simp)) (holds.fits c (by simp)) split first.serves inside

end

section
variable {σ : Type} {source : HeapPages σ} {kheap next : Kheap σ} {cs cs' : List Cont} {n ptr ptr' size size' : Nat}

theorem Live.spared (live : Live cs ptr size) : Spared (Idle cs) ptr size := by
  obtain ⟨d, used, named, large⟩ := live
  intro offset small idle
  exact idle d used ⟨by omega, by omega⟩

/-- The payload of an unused block lies in no live allocation. -/
theorem Kheap.Holds.dead_idle (holds : kheap.Holds source cs) {addr : Nat} (dead : Dead cs addr) : Idle cs addr := by
  obtain ⟨c, member, d, listed, unused, low, high⟩ := dead
  rintro d' used ⟨low', high'⟩
  obtain ⟨c', member', listed', marked⟩ := mem_usedBlks.mp used
  have away := holds.blocks_apart member member' listed listed'
  unfold Blk.stop at away
  rcases away with ⟨-, rfl⟩ | away
  · rw [unused] at marked
    cases marked
  · omega

theorem Kheap.Holds.live_spared (holds : kheap.Holds source cs) (live : Live cs ptr size) : Spared (Dead cs) ptr size :=
  fun offset small dead => live.spared offset small (holds.dead_idle dead)

/-- A live allocation is aligned, and it does not wrap around. -/
theorem Kheap.Holds.live_bounds (holds : kheap.Holds source cs) (live : Live cs ptr size) :
    80 ≤ ptr ∧ ptr % 16 = 0 ∧ ptr + size < 2 ^ 64 := by
  obtain ⟨d, used, named, large⟩ := live
  obtain ⟨c, member, listed, -⟩ := mem_usedBlks.mp used
  have place := (holds.fits c member).inside d listed
  have bounded := (holds.fits c member).bounded
  unfold Blk.stop at place
  omega

/-- Live allocations at two pointers are apart. -/
theorem Kheap.Holds.live_apart (holds : kheap.Holds source cs) (live : Live cs ptr size) (live' : Live cs ptr' size')
    (other : ptr ≠ ptr') : Apart ptr size ptr' size' := by
  obtain ⟨d, used, rfl, large⟩ := live
  obtain ⟨d', used', rfl, large'⟩ := live'
  obtain ⟨c, member, listed, -⟩ := mem_usedBlks.mp used
  obtain ⟨c', member', listed', -⟩ := mem_usedBlks.mp used'
  have away := holds.blocks_apart member member' listed listed'
  unfold Blk.stop at away
  unfold Apart
  omega

/-- The allocated block is live. -/
theorem Allocated.live (allocated : Allocated source kheap cs n ptr next cs') : Live cs' ptr n := by
  obtain ⟨first, taken, second, -, after, named, large⟩ := allocated.used
  exact ⟨taken, by simp [after], named, large⟩

/-- The allocations before are still live, and they have other pointers. -/
theorem Allocated.keeps (allocated : Allocated source kheap cs n ptr next cs') (live : Live cs ptr' size) :
    Live cs' ptr' size ∧ ptr' ≠ ptr := by
  obtain ⟨first, taken, second, before, after, named, -⟩ := allocated.used
  obtain ⟨d, used, rfl, large⟩ := live
  have distinct := allocated.holds.pointers_nodup
  rw [before, List.mem_append] at used
  refine ⟨⟨d, ?_, rfl, large⟩, ?_⟩
  · rw [after, List.mem_append, List.mem_cons]
    tauto
  · rw [after, List.map_append, List.map_cons, List.nodup_middle, List.nodup_cons, ← List.map_append] at distinct
    rw [← named]
    intro same
    exact distinct.1 (List.mem_map.mpr ⟨d, List.mem_append.mpr used, same⟩)

/-- The allocated bytes belonged to no live allocation. -/
theorem Allocated.idle (allocated : Allocated source kheap cs n ptr next cs') {addr : Nat} (inside : Within ptr n addr) :
    Idle cs addr := by
  rintro d used ⟨low, high⟩
  obtain ⟨live, other⟩ := allocated.keeps ⟨d, used, rfl, le_rfl⟩
  have apart := allocated.holds.live_apart allocated.live live other.symm
  obtain ⟨first, last⟩ := inside
  unfold Apart at apart
  omega

/-- Bytes of no live allocation belonged to none before. -/
theorem Allocated.idle_before (allocated : Allocated source kheap cs n ptr next cs') {addr : Nat} (idle : Idle cs' addr) :
    Idle cs addr := by
  rintro d used ⟨low, high⟩
  obtain ⟨⟨d', used', named, large⟩, -⟩ := allocated.keeps ⟨d, used, rfl, le_rfl⟩
  exact idle d' used' ⟨by omega, by omega⟩

/-- An allocation leaves the bytes of the live allocations as they are. -/
theorem Allocated.differ (allocated : Allocated source kheap cs n ptr next cs') :
    DifferIn (Idle cs) kheap.mem next.mem := by
  intro addr small live
  unfold Idle at live
  push Not at live
  obtain ⟨d, used, low, high⟩ := live
  exact spares_iff.mp allocated.spares d used addr low (by unfold Blk.stop; omega)

end

end B0s
