import B0s.Proof.Mm.AllocBetween
import B0s.Proof.Mm.KheapServe

/-
This file runs `kmalloc` over the real `vmm_alloc_between`, and settles which requests get a block of the
heap window or null.
-/

namespace B0s
open ByteMemory DoublyLinked RangeMap

/-- The heap takes its pages from `vmm_alloc_between` on the heap window of `kspace`. -/
def kspacePages {σ : Type} (alloc : KernelAllocator σ) (kspace : Nat) (bytes : Memory) : PageSource (Kernel σ) where
  vmmAllocBetween pages kernel :=
    (vmmAllocBetween alloc kspace kernelHeapStart kernelHeapStop pages pageKernelRw kernel).map fun result =>
      (result.1, bytes, result.2)
  vmmFree va pages kernel := vmmFree alloc kspace va pages kernel

/-- The block behind a pointer holds the request and lies in the heap window. -/
structure WindowBlock (mem : Memory) (n ptr : Nat) : Prop where
  large : n ≤ loadU64 mem (blockSizeInBytes (dataBlock ptr))
  low : kernelHeapStart ≤ ptr
  high : ptr + loadU64 mem (blockSizeInBytes (dataBlock ptr)) ≤ kernelHeapStop

/-- A call returns a block of the heap window, or it returns null and changes nothing. -/
def KmallocSound {σ : Type} (source : PageSource σ) (n : Nat) (kheap : Kheap σ) : Prop :=
  ∃ ptr kheap', kmalloc source n kheap = .ok (ptr, kheap') ∧
    (ptr = NULL ∧ kheap' = kheap ∨ ptr ≠ NULL ∧ WindowBlock kheap'.mem n ptr)

/-- The containers of the heap lie in the heap window on pages of `kspace`, whose regions include the kernel
image above the window. -/
structure KernelHeap {σ : Type} (alloc : KernelAllocator σ) (member : Nat → Prop) (lists : Nat → List Nat)
    (kspace : Nat) (kheap : Kheap (Kernel σ)) (cs : List Cont) : Prop where
  coherent : Coherent alloc member lists kheap.env
  belongs : member kspace
  image : ∃ image ∈ kheap.env.ranges (lists kspace), kernelHeapStop ≤ image.start
  list : HeapList kheap.heap kheap.mem cs
  window : ∀ c ∈ cs, kernelHeapStart ≤ c.addr ∧ c.stop ≤ kernelHeapStop
  backed : ∀ c ∈ cs, ∃ range ∈ kheap.env.ranges (lists kspace), range.start ≤ c.addr ∧ c.stop ≤ range.stop

/-- The number of pages that `kmalloc` asks for. -/
def heapPages (n : Nat) : Nat := max kheapMinAllocInPages (u64 (n + sizeofBlock) / pageSizeInBytes + 2)

/-- The number of bytes that `vmm_alloc_between` computes from it. -/
def heapBytes (n : Nat) : Nat := u64 (heapPages n * pageSizeInBytes)

/-- The search for the pages of a request ends at this address. -/
def HeapGap (ranges : List (Range Nat Nat)) (n va : Nat) : Prop :=
  ∃ passed rest, passed ++ rest = ranges ∧
    GapFound kernelHeapStart (u64 (heapBytes n + 2 * pageSizeInBytes)) passed rest va

/-- The frames last for the record, the pages and the missing tables of a request behind a gap. -/
def HeapFrames {σ : Type} (alloc : KernelAllocator σ) (kspace : Nat) (kernel : Kernel σ) (n va : Nat) : Prop :=
  alloc.Supplies (kernel.framesNeeded kspace (windowPages (va + pageSizeInBytes) (heapPages n)))
    (alloc.blockAlloc .vmmRegion kernel.env).2

theorem HeapGap.unique {ranges : List (Range Nat Nat)} {n va va' : Nat} (gap : HeapGap ranges n va)
    (gap' : HeapGap ranges n va') : va = va' := by
  obtain ⟨passed, rest, split, found⟩ := gap
  obtain ⟨passed', rest', split', found'⟩ := gap'
  exact found.unique found' (split.trans split'.symm)

/-- The window has room for the pages of a request, and no region starts below the window and reaches it. -/
structure HeapRoom (ranges : List (Range Nat Nat)) (n : Nat) : Prop where
  clear : ∀ range ∈ ranges, range.stop < kernelHeapStart ∨ kernelHeapStart ≤ range.start
  gap : ∃ start, Accepted ranges kernelHeapStart kernelHeapStop
    (heapPages n * pageSizeInBytes + 2 * pageSizeInBytes) start

section
variable {c : Cont} {mem mem' : Memory} {before after : List Blk} {b : Blk} {n : Nat}

/-- A taken block holds the request and lies in its container. -/
theorem Cont.Holds.taken (holds : c.Holds mem) (fits : c.Fits) (split : c.blks = before ++ b :: after)
    (serves : b.Serves n) :
    n ≤ loadU64 (foundBlock b.header n mem) b.header ∧ c.addr + 80 ≤ b.header + 40 ∧
      b.header + 40 + loadU64 (foundBlock b.header n mem) b.header ≤ c.stop := by
  have holds' := holds.take fits split serves.1 serves.2
  have fits' := @Cont.Fits.take c before after b n fits split
  obtain ⟨addr, pages⟩ := c.take_range before b after n
  obtain ⟨-, taken, header, large, -, usedAfter⟩ := Cont.take_used split serves
  have listed : taken ∈ (c.take before b after n).blks :=
    List.mem_of_mem_filter (p := Blk.used) (by simp [usedAfter])
  have size := (holds'.data taken listed).size
  have place := fits'.inside taken listed
  have stop : (c.take before b after n).stop = c.stop := by
    unfold Cont.stop
    rw [addr, pages]
  rw [header] at size
  rw [addr, stop, header, Blk.stop, header] at place
  rw [size]
  exact ⟨large, by omega, place.2.1⟩

/-- A taken block of a container in the window is a block of the window. -/
theorem Cont.Holds.windowBlock (holds : c.Holds mem) (fits : c.Fits) (split : c.blks = before ++ b :: after)
    (serves : b.Serves n) (low : kernelHeapStart ≤ c.addr) (high : c.stop ≤ kernelHeapStop) :
    blockData b.header ≠ NULL ∧ WindowBlock (foundBlock b.header n mem) n (blockData b.header) := by
  obtain ⟨large, first, last⟩ := holds.taken fits split serves
  obtain ⟨data, -⟩ := fits.pointer (by simp [split] : b ∈ c.blks)
  have small : c.stop < 2 ^ 64 := fits.bounded
  have header : dataBlock (b.header + 40) = b.header := by
    unfold dataBlock sizeofBlock
    rw [subU64_eq (by omega) (by omega)]
    omega
  rw [data]
  refine ⟨Nat.succ_ne_zero _, ?_, by omega, ?_⟩
  · rw [header]
    exact large
  · rw [header]
    exact last.trans high

end

section
variable {σ : Type} {source : PageSource σ} {kheap : Kheap σ} {cs : List Cont} {n : Nat}

/-- A request that a block can serve gets a block of its container. -/
theorem HeapList.kmalloc_served (list : HeapList kheap.heap kheap.mem cs)
    (window : ∀ c ∈ cs, kernelHeapStart ≤ c.addr ∧ c.stop ≤ kernelHeapStop)
    (serves : ∃ c ∈ cs, ∃ d ∈ c.blks, d.Serves n) : KmallocSound source n kheap := by
  rcases @kmallocSearch_spec [] cs _ _ n walkLimit list list.length_lt with
    ⟨-, unfit⟩ | ⟨b, mem', cs', served, nonnull, found⟩
  · obtain ⟨c, member, d, listed, fit⟩ := serves
    exact absurd fit (unfit c member d listed)
  · obtain ⟨fit, ⟨xs, c, ys, before, after, shape, split, -⟩, rfl⟩ := served
    have member : c ∈ cs := by
      have shape' : cs = xs ++ c :: ys := shape
      simp [shape']
    obtain ⟨pointer, block⟩ := (list.holds c member).windowBlock (list.fits c member) split fit (window c member).1
      (window c member).2
    refine ⟨_, { kheap with mem := foundBlock b.header n kheap.mem }, ?_, Or.inr ⟨pointer, block⟩⟩
    rw [kmalloc, list.heap, found]
    simp [bind, Except.bind, nonnull]

/-- A request that no block can serve goes to a new container. -/
theorem HeapList.kmalloc_unserved (list : HeapList kheap.heap kheap.mem cs)
    (unfit : ∀ c ∈ cs, ∀ d ∈ c.blks, ¬d.Serves n) :
    kmalloc source n kheap =
      createContainer source (u64 (n + sizeofBlock) / pageSizeInBytes + 2) kheap >>= fun created =>
        if created.1 = NULL then .ok (NULL, created.2)
        else tryAllocBlock created.1 n created.2.mem >>= fun taken =>
          if taken.1 = NULL then .error (.panic .kmallocImpossible)
          else .ok (blockData taken.1, { created.2 with mem := taken.2 }) := by
  rcases @kmallocSearch_spec [] cs _ _ n walkLimit list list.length_lt with
    ⟨none, -⟩ | ⟨b, mem', cs', served, -, -⟩
  · rw [kmalloc, list.heap, none]
    rfl
  · obtain ⟨fit, ⟨xs, c, ys, before, after, shape, split, -⟩, -⟩ := served
    have shape' : cs = xs ++ c :: ys := shape
    exact absurd fit (unfit c (by simp [shape']) b (by simp [split]))

/-- A new container serves the request with the block that the attempt finds. -/
theorem HeapList.kmalloc_grown (list : HeapList kheap.heap kheap.mem cs)
    (unfit : ∀ c ∈ cs, ∀ d ∈ c.blks, ¬d.Serves n) {c b : Nat} {grown : Kheap σ} {mem : Memory}
    (created : createContainer source (u64 (n + sizeofBlock) / pageSizeInBytes + 2) kheap = .ok (c, grown))
    (nonnull : c ≠ NULL) (taken : tryAllocBlock c n grown.mem = .ok (b, mem)) (found : b ≠ NULL) :
    kmalloc source n kheap = .ok (blockData b, { grown with mem := mem }) := by
  rw [list.kmalloc_unserved unfit, created]
  simp only [bind, Except.bind, if_neg nonnull, taken, if_neg found]

end

section
variable {c heap pages n : Nat} {bytes mem mem' : Memory} {b : Nat}

/-- A new container leads to one block, wherever the old heap list lies. -/
theorem containerMemory_fresh (aligned : c % 8 = 0) (room : c + 80 < 2 ^ 64) :
    loadU64 (containerMemory c pages bytes heap mem) (c + 32) = c + 40 ∧
      loadU64 (containerMemory c pages bytes heap mem) (c + 64) = NULL := by
  have data : containerData c = c + 40 := Nat.mod_eq_of_lt (by unfold sizeofContainer; omega)
  have zero : NULL < 2 ^ 64 := by decide
  simp only [containerMemory, containerSizeInBytes, containerUsedBlocks, containerPrev, containerNext, containerBlock,
    blockSizeInBytes, blockUsed, blockPrev, blockNext, blockContainer, data]
  constructor
  all_goals simp (disch := omega) only [loadU64_storeU64_ne, loadU64_storeU8_ne, loadU64_storeU64]

/-- An attempt on a container with one block takes this block or none. -/
theorem tryAllocBlock_fresh (block : loadU64 mem (c + 32) = c + 40) (next : loadU64 mem (c + 64) = NULL)
    (taken : tryAllocBlock c n mem = .ok (b, mem')) : b = NULL ∨ b = c + 40 := by
  obtain ⟨found, searched, rest⟩ := Outcome.bind_eq_ok.mp taken
  obtain ⟨steps, limit⟩ : ∃ steps, walkLimit = steps + 2 := ⟨2 ^ 64 - 2, by decide⟩
  have nonnull : c + 40 ≠ NULL := Nat.succ_ne_zero _
  have behind : loadU64 mem (blockNext (c + 40)) = NULL := next
  rw [containerBlock, block, limit, tryAllocBlockSearch, if_neg nonnull, behind, tryAllocBlockSearch, if_pos rfl] at searched
  split_ifs at searched with serves
  · obtain rfl := Except.ok.inj searched
    rw [if_neg nonnull] at rest
    exact Or.inr (Prod.mk.inj (Except.ok.inj rest)).1.symm
  · obtain rfl := Except.ok.inj searched
    rw [if_pos rfl] at rest
    exact Or.inl (Prod.mk.inj (Except.ok.inj rest)).1.symm

end

section
variable {σ : Type} {alloc : KernelAllocator σ} {member : Nat → Prop} {lists : Nat → List Nat} {kspace : Nat}
  {kheap : Kheap (Kernel σ)} {cs : List Cont} {n va : Nat} {bytes : Memory}

theorem kspacePages_eq_ok {pages : Nat} {kernel kernel' : Kernel σ} {bytes' : Memory} :
    (kspacePages alloc kspace bytes).vmmAllocBetween pages kernel = .ok (va, bytes', kernel') ↔
      vmmAllocBetween alloc kspace kernelHeapStart kernelHeapStop pages pageKernelRw kernel = .ok (va, kernel') ∧
        bytes = bytes' := by
  refine Outcome.map_eq_ok.trans ⟨?_, ?_⟩
  · rintro ⟨⟨va', kernel''⟩, call, same⟩
    obtain ⟨rfl, rfl, rfl⟩ : va' = va ∧ bytes = bytes' ∧ kernel'' = kernel' := by simpa using same
    exact ⟨call, rfl⟩
  · rintro ⟨call, rfl⟩
    exact ⟨_, call, rfl⟩

/-- A refused request leaves everything as it is. -/
theorem KernelHeap.refuse (heap : KernelHeap alloc member lists kspace kheap cs)
    (unfit : ∀ c ∈ cs, ∀ d ∈ c.blks, ¬d.Serves n) (gap : HeapGap (kheap.env.ranges (lists kspace)) n va)
    (refused : kernelHeapStop ≤ u64 (va + heapBytes n + 2 * pageSizeInBytes)) :
    KmallocSound (kspacePages alloc kspace bytes) n kheap := by
  obtain ⟨passed', rest', split', found'⟩ := gap
  obtain ⟨passed, rest, place, split, search, found⟩ := heap.coherent.gapFound heap.belongs kernelHeapStart
    (heapBytes n) (2 * pageSizeInBytes)
  rw [← split, Kernel.ranges_append] at split'
  obtain rfl := found'.unique found split'
  have call : vmmAllocBetween alloc kspace kernelHeapStart kernelHeapStop (heapPages n) pageKernelRw kheap.env =
      .ok (NULL, kheap.env) := by
    rw [vmmAllocBetween_searched search]
    exact if_pos refused
  have created : createContainer (kspacePages alloc kspace bytes) (u64 (n + sizeofBlock) / pageSizeInBytes + 2) kheap =
      .ok (NULL, kheap) := by
    have obtained : (kspacePages alloc kspace bytes).vmmAllocBetween (heapPages n) kheap.env =
        .ok (NULL, bytes, kheap.env) := kspacePages_eq_ok.mpr ⟨call, rfl⟩
    rw [createContainer_unfold, ← heapPages, obtained]
    simp [bind, Except.bind]
  refine ⟨NULL, kheap, ?_, Or.inl ⟨rfl, rfl⟩⟩
  rw [heap.list.kmalloc_unserved unfit, created]
  simp [bind, Except.bind]

/-- The kernel image makes the region list reach the window. -/
theorem KernelHeap.clears (heap : KernelHeap alloc member lists kspace kheap cs)
    (clear : ∀ range ∈ kheap.env.ranges (lists kspace), range.stop < kernelHeapStart ∨ kernelHeapStart ≤ range.start) :
    ClearsLower (kheap.env.ranges (lists kspace)) kernelHeapStart := by
  refine ⟨clear, ?_⟩
  intro last final
  obtain ⟨image, listed, above⟩ := heap.image
  have canonical := (heap.coherent.pages heap.belongs).canonical
  have behind : image.stop ≤ last.stop :=
    canonical.stop_le_of_last (fun other same => (Option.some.inj (final.symm.trans same)) ▸ le_rfl) image listed
  have nonempty := canonical.nonempty image listed
  rcases clear last (List.mem_of_getLast? final) with below | inside
  · unfold kernelHeapStart kernelHeapStop at *
    omega
  · exact inside

/-- A new region keeps a page of distance from the containers of the heap. -/
theorem KernelHeap.apart (heap : KernelHeap alloc member lists kspace kheap cs) {passed rest : List Nat} {stop : Nat}
    (split : passed ++ rest = lists kspace) (behind : ∀ range ∈ kheap.env.ranges passed, range.stop ≤ va)
    (after : ∀ range ∈ kheap.env.ranges rest, stop ≤ range.start) :
    ∀ c ∈ cs, stop ≤ c.addr ∨ c.stop ≤ va := by
  intro c inside
  obtain ⟨range, listed, low, high⟩ := heap.backed c inside
  rw [← split, Kernel.ranges_append, List.mem_append] at listed
  rcases listed with earlier | later
  · exact Or.inr (high.trans (behind range earlier))
  · exact Or.inl ((after range later).trans low)

/-- The call for new pages puts them a page behind the gap, inside the window and apart from the containers. -/
structure WindowCall (alloc : KernelAllocator σ) (kspace : Nat) (kheap : Kheap (Kernel σ)) (cs : List Cont) (n va : Nat) :
    Prop where
  aligned : (va + pageSizeInBytes) % pageSizeInBytes = 0
  low : kernelHeapStart ≤ va + pageSizeInBytes
  high : va + pageSizeInBytes + heapPages n * pageSizeInBytes ≤ kernelHeapStop
  apart : ∀ c ∈ cs, va + pageSizeInBytes + heapPages n * pageSizeInBytes ≤ c.addr ∨ c.stop ≤ va + pageSizeInBytes
  returns : ∀ ret kernel', vmmAllocBetween alloc kspace kernelHeapStart kernelHeapStop (heapPages n) pageKernelRw
    kheap.env = .ok (ret, kernel') → ret = va + pageSizeInBytes
  frames : (vmmAllocBetween alloc kspace kernelHeapStart kernelHeapStop (heapPages n) pageKernelRw kheap.env).Gives
    (fun _ => True) ↔ HeapFrames alloc kspace kheap.env n va

/-- A request with room calls for pages in the window. -/
theorem KernelHeap.windowCall (heap : KernelHeap alloc member lists kspace kheap cs)
    (room : HeapRoom (kheap.env.ranges (lists kspace)) n) :
    ∃ va, HeapGap (kheap.env.ranges (lists kspace)) n va ∧ WindowCall alloc kspace kheap cs n va := by
  obtain ⟨start, accepted⟩ := room.gap
  have few : 5 ≤ heapPages n := le_max_left _ _
  have limit : start + (heapPages n * pageSizeInBytes + 2 * pageSizeInBytes) < kernelHeapStop := accepted.choose_spec.2.2
  have top : kernelHeapStop < 2 ^ 64 := by decide
  have aligned : kernelHeapStart % pageSizeInBytes = 0 := by decide
  have pages := heap.coherent.pages heap.belongs
  have clears := heap.clears room.clear
  have canonical := pages.canonical
  have bounded : ∀ range ∈ kheap.env.ranges (lists kspace), range.start < 2 ^ 64 := by
    intro range listed
    have nonempty := canonical.nonempty range listed
    have addressable := pages.bounded range.start range.flags ⟨range, listed, ⟨le_rfl, nonempty⟩, rfl⟩
    omega
  obtain ⟨passed, rest, va, split, search, found⟩ := heap.coherent.gapFound heap.belongs kernelHeapStart
    (heapPages n * pageSizeInBytes) (2 * pageSizeInBytes)
  have size : heapBytes n = heapPages n * pageSizeInBytes := Nat.mod_eq_of_lt (by omega)
  have need : u64 (heapPages n * pageSizeInBytes + 2 * pageSizeInBytes) =
      heapPages n * pageSizeInBytes + 2 * pageSizeInBytes := Nat.mod_eq_of_lt (by omega)
  have gap : HeapGap (kheap.env.ranges (lists kspace)) n va :=
    ⟨kheap.env.ranges passed, kheap.env.ranges rest, by rw [← Kernel.ranges_append, split], by rw [size]; exact found⟩
  rw [need] at found
  rw [← split, Kernel.ranges_append] at canonical clears accepted bounded
  have place := found.le_of_accepted canonical (fun range inside => bounded range (List.mem_append_left _ inside)) accepted
  have behind := found.behind canonical
  obtain ⟨low, before⟩ := found.inside canonical clears
  have after := found.after canonical fun head tail shape => before head (by simp [shape])
  have window : HalfWindow (va + pageSizeInBytes) (va + pageSizeInBytes + heapPages n * pageSizeInBytes) := by
    obtain ⟨alignedStart, alignedStop⟩ := heap.coherent.gap_aligned heap.belongs aligned split found (heapPages n)
    refine ⟨alignedStart, alignedStop, ?_, by omega, Or.inr ?_⟩
    · unfold pageSizeInBytes
      omega
    · unfold kernelHeapStart at low
      omega
  have vacant : kheap.env.Vacant (lists kspace) (va + pageSizeInBytes)
      (va + pageSizeInBytes + heapPages n * pageSizeInBytes) := by
    intro range listed meets
    rw [← split, Kernel.ranges_append, List.mem_append] at listed
    rcases listed with earlier | later
    · have below := behind range earlier
      have overlap := meets.2
      omega
    · have above := after range later
      have overlap := meets.1
      omega
  have free := heap.coherent.windowFree heap.belongs window vacant
  have valid : PageFlags pageKernelRw := ⟨by decide, by decide⟩
  obtain ⟨outcome, frames⟩ := heap.coherent.allocBetween_gap heap.belongs valid aligned split (by omega) search found
    (by omega : _ < kernelHeapStop) behind (fun range inside => by have above := after range inside; omega) free
  refine ⟨va, gap, window.alignedStart, by omega, by omega, ?_, ?_, frames⟩
  · exact heap.apart split (fun range inside => (behind range inside).trans (Nat.le_add_right _ _))
      fun range inside => by have above := after range inside; omega
  · intro ret kernel' called
    rcases outcome with ⟨fault, env, failed, -⟩ | ⟨kernel'', returned⟩
    · rw [called] at failed
      cases failed
    · rw [called] at returned
      exact (Prod.mk.inj (Except.ok.inj returned)).1

/-- The new pages become a container. -/
theorem KernelHeap.create (heap : KernelHeap alloc member lists kspace kheap cs)
    (call : WindowCall alloc kspace kheap cs n va) {kernel' : Kernel σ}
    (called : vmmAllocBetween alloc kspace kernelHeapStart kernelHeapStop (heapPages n) pageKernelRw kheap.env =
      .ok (va + pageSizeInBytes, kernel')) :
    ∃ mem, createContainer (kspacePages alloc kspace bytes) (u64 (n + sizeofBlock) / pageSizeInBytes + 2) kheap =
        .ok (va + pageSizeInBytes, ⟨va + pageSizeInBytes, mem, kernel'⟩) ∧
      (freshCont (va + pageSizeInBytes) (heapPages n)).Holds mem ∧ (freshCont (va + pageSizeInBytes) (heapPages n)).Fits := by
  have few : 5 ≤ heapPages n := le_max_left _ _
  have top : kernelHeapStop < 2 ^ 64 - 2 ^ 30 := by decide
  have null : va + pageSizeInBytes ≠ NULL := Nat.succ_ne_zero _
  obtain ⟨aligned, low, high, apart, -, -⟩ := call
  generalize va + pageSizeInBytes = ret at *
  unfold pageSizeInBytes at aligned high apart
  have places := heap.list.places aligned (by omega) fun c inside => by have away := apart c inside; omega
  obtain ⟨list, -⟩ := heap.list.create aligned null (by omega) few apart bytes
  have obtained : (kspacePages alloc kspace bytes).vmmAllocBetween (heapPages n) kheap.env = .ok (ret, bytes, kernel') :=
    kspacePages_eq_ok.mpr ⟨called, rfl⟩
  exact ⟨_, createContainer_eq obtained null places (by omega : heapPages n * 4096 < 2 ^ 64),
    list.holds _ List.mem_cons_self, list.fits _ List.mem_cons_self⟩

/-- A request with room and frames gets a new container in the window. -/
theorem KernelHeap.fill (heap : KernelHeap alloc member lists kspace kheap cs)
    (unfit : ∀ c ∈ cs, ∀ d ∈ c.blks, ¬d.Serves n) (request : n + sizeofBlock < 2 ^ 64)
    (room : HeapRoom (kheap.env.ranges (lists kspace)) n) (gap : HeapGap (kheap.env.ranges (lists kspace)) n va)
    (frames : HeapFrames alloc kspace kheap.env n va) : KmallocSound (kspacePages alloc kspace bytes) n kheap := by
  obtain ⟨va', gap', call⟩ := heap.windowCall room
  obtain rfl := gap.unique gap'
  obtain ⟨⟨ret, kernel'⟩, called, -⟩ := call.frames.mpr frames
  obtain rfl := call.returns ret kernel' called
  obtain ⟨mem, created, holds, fits⟩ := @KernelHeap.create _ _ _ _ _ _ _ _ _ bytes heap call _ called
  have small : n + 3 * pageSizeInBytes < 2 ^ 64 := by
    have large : u64 (n + sizeofBlock) / pageSizeInBytes + 2 ≤ heapPages n := le_max_right _ _
    have same : u64 (n + sizeofBlock) = n + sizeofBlock := Nat.mod_eq_of_lt request
    have low := call.low
    have high := call.high
    unfold sizeofBlock kernelHeapStart kernelHeapStop pageSizeInBytes at *
    omega
  obtain ⟨b, listed, serves⟩ := @freshCont_serves n (va + pageSizeInBytes) small
  obtain ⟨before, b, after, split, fit, -, taken⟩ := (tryAllocBlock_spec holds fits n).resolve_left
    fun none => none.2 b listed serves
  obtain ⟨pointer, block⟩ := holds.windowBlock fits split fit call.low call.high
  have nonnull := (fits.pointer (by simp [split] : b ∈ _)).2
  exact ⟨_, _, heap.list.kmalloc_grown unfit created (Nat.succ_ne_zero _) taken nonnull, Or.inr ⟨pointer, block⟩⟩

/-- A request whose size wraps gets a container of five pages and panics because the container is too small. -/
theorem KernelHeap.wrapped (heap : KernelHeap alloc member lists kspace kheap cs)
    (unfit : ∀ c ∈ cs, ∀ d ∈ c.blks, ¬d.Serves n) (bounded : n < 2 ^ 64) (wraps : 2 ^ 64 ≤ n + sizeofBlock)
    (room : HeapRoom (kheap.env.ranges (lists kspace)) n) (gap : HeapGap (kheap.env.ranges (lists kspace)) n va)
    (frames : HeapFrames alloc kspace kheap.env n va) :
    kmalloc (kspacePages alloc kspace bytes) n kheap = .error (.panic .kmallocImpossible) := by
  obtain ⟨va', gap', call⟩ := heap.windowCall room
  obtain rfl := gap.unique gap'
  obtain ⟨⟨ret, kernel'⟩, called, -⟩ := call.frames.mpr frames
  obtain rfl := call.returns ret kernel' called
  obtain ⟨mem, created, holds, fits⟩ := @KernelHeap.create _ _ _ _ _ _ _ _ _ bytes heap call _ called
  have pages : heapPages n = 5 := by
    have none : u64 (n + sizeofBlock) / pageSizeInBytes = 0 := by
      unfold u64 sizeofBlock pageSizeInBytes at *
      omega
    rw [heapPages, none]
    rfl
  have small : ∀ b ∈ (freshCont (va + pageSizeInBytes) (heapPages n)).blks, ¬b.Serves n := by
    intro b listed fit
    obtain rfl : b = ⟨va + pageSizeInBytes + 40, heapPages n * 4096 - 80, false⟩ := by simpa [freshCont] using listed
    have large : n ≤ heapPages n * 4096 - 80 := fit.2
    unfold sizeofBlock at wraps
    omega
  have taken : tryAllocBlock (va + pageSizeInBytes) n mem = .ok (NULL, mem) := by
    rcases tryAllocBlock_spec holds fits n with ⟨none, -⟩ | ⟨before, b, after, split, fit, -⟩
    · exact none
    · exact absurd fit (small b (by simp [split]))
  have null : va + pageSizeInBytes ≠ NULL := Nat.succ_ne_zero _
  rw [heap.list.kmalloc_unserved unfit, created]
  simp only [bind, Except.bind, if_neg null, taken, if_true]

/-- The pages of a request in the window are few. -/
theorem heapPages_le {bound : Nat} (small : n + sizeofBlock ≤ bound) (limit : bound < 2 ^ 64) :
    heapPages n * pageSizeInBytes ≤ bound + 5 * pageSizeInBytes := by
  have request : u64 (n + sizeofBlock) = n + sizeofBlock := Nat.mod_eq_of_lt (by omega)
  have pages : heapPages n = max 5 ((n + sizeofBlock) / pageSizeInBytes + 2) := by
    rw [heapPages, request]
    rfl
  rw [pages]
  unfold pageSizeInBytes at *
  omega

/-- The search for pages ends in the window or behind the kernel image. -/
theorem KernelHeap.gap_place (heap : KernelHeap alloc member lists kspace kheap cs) {passed rest : List Nat} {need : Nat}
    (split : passed ++ rest = lists kspace)
    (found : GapFound kernelHeapStart need (kheap.env.ranges passed) (kheap.env.ranges rest) va) :
    va % pageSizeInBytes = 0 ∧ va < 2 ^ 64 ∧ kernelHeapStart ≤ va ∧ (kheap.env.ranges rest = [] → kernelHeapStop ≤ va) := by
  have pages := heap.coherent.pages heap.belongs
  have canonical := pages.canonical
  rw [← split, Kernel.ranges_append] at canonical
  have stops : ∀ range ∈ kheap.env.ranges passed, range.stop % pageSizeInBytes = 0 ∧ range.stop < 2 ^ 64 := by
    intro range listed
    obtain ⟨ptr, inside, rfl⟩ := List.mem_map.mp listed
    exact heap.coherent.stop_bounds heap.belongs (split ▸ List.mem_append_left _ inside)
  have place : va % pageSizeInBytes = 0 ∧ va < 2 ^ 64 := by
    rcases found.place with same | ⟨range, inside, same⟩
    · rw [same]
      decide
    · rw [same]
      exact stops range inside
  have last : kheap.env.ranges rest = [] → kernelHeapStop ≤ va := by
    intro none
    obtain ⟨image, listed, above⟩ := heap.image
    have nonempty := (heap.coherent.pages heap.belongs).canonical.nonempty image listed
    rw [← split, Kernel.ranges_append, none, List.append_nil] at listed
    have behind := found.behind canonical image listed
    omega
  refine ⟨place.1, place.2, ?_, last⟩
  cases shape : kheap.env.ranges rest with
  | nil =>
      have high := last shape
      unfold kernelHeapStart kernelHeapStop at *
      omega
  | cons head tail =>
      rw [(found.gap head tail shape).2]
      exact le_max_right _ _

/-- A call without a block that can serve asks for pages. -/
theorem KernelHeap.called (heap : KernelHeap alloc member lists kspace kheap cs)
    (unfit : ∀ c ∈ cs, ∀ d ∈ c.blks, ¬d.Serves n) {ptr : Nat} {kheap' : Kheap (Kernel σ)}
    (returned : kmalloc (kspacePages alloc kspace bytes) n kheap = .ok (ptr, kheap')) :
    ∃ ret kernel', vmmAllocBetween alloc kspace kernelHeapStart kernelHeapStop (heapPages n) pageKernelRw kheap.env =
      .ok (ret, kernel') := by
  rw [heap.list.kmalloc_unserved unfit, createContainer_unfold, ← heapPages] at returned
  obtain ⟨created, creates, -⟩ := Outcome.bind_eq_ok.mp returned
  obtain ⟨⟨ret, bytes', kernel'⟩, obtained, -⟩ := Outcome.bind_eq_ok.mp creates
  exact ⟨ret, kernel', (kspacePages_eq_ok.mp obtained).1⟩

/-- A new container at an address of the window holds its one block behind two headers. -/
theorem KernelHeap.fresh_pointer (heap : KernelHeap alloc member lists kspace kheap cs)
    (unfit : ∀ c ∈ cs, ∀ d ∈ c.blks, ¬d.Serves n) {ptr ret : Nat} {kernel' : Kernel σ} {kheap' : Kheap (Kernel σ)}
    (returned : kmalloc (kspacePages alloc kspace bytes) n kheap = .ok (ptr, kheap'))
    (call : vmmAllocBetween alloc kspace kernelHeapStart kernelHeapStop (heapPages n) pageKernelRw kheap.env =
      .ok (ret, kernel')) (null : ret ≠ NULL) (aligned : ret % 8 = 0) (room : ret + 80 < 2 ^ 64) : ptr = ret + 80 := by
  have obtained : (kspacePages alloc kspace bytes).vmmAllocBetween (heapPages n) kheap.env = .ok (ret, bytes, kernel') :=
    kspacePages_eq_ok.mpr ⟨call, rfl⟩
  rw [heap.list.kmalloc_unserved unfit, createContainer_unfold, ← heapPages, obtained] at returned
  obtain ⟨⟨c, grown⟩, created, continued⟩ := Outcome.bind_eq_ok.mp returned
  obtain ⟨rfl, rfl⟩ : ret = c ∧ ⟨ret, containerMemory ret (heapPages n) bytes kheap.heap kheap.mem, kernel'⟩ = grown := by
    simpa [bind, Except.bind, null] using created
  rw [if_neg null] at continued
  obtain ⟨⟨b, mem⟩, taken, rest⟩ := Outcome.bind_eq_ok.mp continued
  obtain ⟨block, next⟩ := @containerMemory_fresh ret kheap.heap (heapPages n) bytes kheap.mem aligned room
  rcases tryAllocBlock_fresh block next taken with rfl | rfl
  · cases rest
  · have found : ret + 40 ≠ NULL := Nat.succ_ne_zero _
    dsimp only at rest
    rw [if_neg found] at rest
    rw [← (Prod.mk.inj (Except.ok.inj rest)).1]
    exact Nat.mod_eq_of_lt (by unfold sizeofBlock; omega)

/-- A search that ends low enough in the window shows the room. -/
theorem KernelHeap.room (heap : KernelHeap alloc member lists kspace kheap cs) {passed rest : List Nat}
    (split : passed ++ rest = lists kspace)
    (found : GapFound kernelHeapStart (heapPages n * pageSizeInBytes + 2 * pageSizeInBytes) (kheap.env.ranges passed)
      (kheap.env.ranges rest) va) (low : kernelHeapStart ≤ va)
    (limit : va + (heapPages n * pageSizeInBytes + 2 * pageSizeInBytes) < kernelHeapStop)
    (above : ∀ range ∈ kheap.env.ranges rest, va ≤ range.start) : HeapRoom (kheap.env.ranges (lists kspace)) n := by
  have canonical := (heap.coherent.pages heap.belongs).canonical
  have few : 5 ≤ heapPages n := le_max_left _ _
  have clear : ∀ range ∈ kheap.env.ranges (lists kspace), range.stop < kernelHeapStart ∨ kernelHeapStart ≤ range.start := by
    intro range listed
    rw [← split, Kernel.ranges_append, List.mem_append] at listed
    rcases listed with earlier | later
    · by_contra reaches
      push Not at reaches
      rw [← split, Kernel.ranges_append] at canonical
      have passedCanonical := ((canonical_append _ _).mp canonical).1
      have passes := found.passes
      obtain ⟨before, after, shape⟩ := List.append_of_mem earlier
      rw [shape] at passes passedCanonical
      -- The wrapped gap in front of the region is larger than the whole window.
      have wrapped := passes.clear passedCanonical (by decide) reaches.2 reaches.1
      unfold kernelHeapStart kernelHeapStop at *
      omega
    · exact Or.inr (low.trans (above range later))
  have clears := heap.clears clear
  refine ⟨clear, va, ?_⟩
  rw [← split, Kernel.ranges_append] at canonical clears ⊢
  exact found.accepted canonical clears (by unfold pageSizeInBytes; omega) limit

/-- A sound call without a block that can serve was refused or had room. -/
theorem KernelHeap.refused_or_room (heap : KernelHeap alloc member lists kspace kheap cs)
    (unfit : ∀ c ∈ cs, ∀ d ∈ c.blks, ¬d.Serves n) (sound : KmallocSound (kspacePages alloc kspace bytes) n kheap) :
    (∃ va, HeapGap (kheap.env.ranges (lists kspace)) n va ∧
      kernelHeapStop ≤ u64 (va + heapBytes n + 2 * pageSizeInBytes)) ∨
    n + sizeofBlock < 2 ^ 64 ∧ HeapRoom (kheap.env.ranges (lists kspace)) n := by
  obtain ⟨passed, rest, va, split, search, found⟩ := heap.coherent.gapFound heap.belongs kernelHeapStart
    (heapBytes n) (2 * pageSizeInBytes)
  have gap : HeapGap (kheap.env.ranges (lists kspace)) n va :=
    ⟨kheap.env.ranges passed, kheap.env.ranges rest, by rw [← Kernel.ranges_append, split], found⟩
  by_cases refused : kernelHeapStop ≤ u64 (va + heapBytes n + 2 * pageSizeInBytes)
  · exact Or.inl ⟨va, gap, refused⟩
  right
  have listed := heap.coherent.listed heap.belongs
  have canonical := (heap.coherent.pages heap.belongs).canonical
  rw [← split] at listed canonical
  obtain ⟨alignedVa, smallVa, low, last⟩ := heap.gap_place split found
  obtain ⟨ptr, kheap', returned, outcome⟩ := sound
  obtain ⟨ret, kernel', call⟩ := heap.called unfit returned
  obtain ⟨start, before, after, -⟩ := vmmAllocBetween_inserted listed canonical search refused call
  have inside : va + 2 * pageSizeInBytes ≤ 2 ^ 64 := by
    -- Behind the last page of the address space the new region would start at zero.
    by_contra top
    have wrapped : ret = 0 := by
      rw [start]
      unfold u64 pageSizeInBytes at *
      omega
    rcases found.place with same | ⟨range, member, same⟩
    · rw [same] at top
      exact top (by decide)
    · have behind := before range member
      unfold kernelHeapStart at low
      omega
  have noWrap : ret = va + pageSizeInBytes := by
    rw [start]
    exact Nat.mod_eq_of_lt (by unfold pageSizeInBytes at *; omega)
  have pointer : ptr = ret + 80 := by
    apply heap.fresh_pointer unfit returned call
    · unfold NULL pageSizeInBytes at *
      omega
    · unfold pageSizeInBytes at *
      omega
    · unfold pageSizeInBytes at *
      omega
  have block : WindowBlock kheap'.mem n ptr := by
    rcases outcome with ⟨none, -⟩ | ⟨-, block⟩
    · rw [pointer] at none
      cases none
    · exact block
  have large := block.large
  have high := block.high
  have small : n + sizeofBlock ≤ kernelHeapStop - kernelHeapStart := by
    unfold sizeofBlock kernelHeapStart pageSizeInBytes at *
    omega
  have request : n + sizeofBlock < 2 ^ 64 := lt_of_le_of_lt small (by decide)
  have bytesLe := heapPages_le le_rfl request
  have room : va + (heapPages n * pageSizeInBytes + 2 * pageSizeInBytes) < 2 ^ 64 := by
    unfold sizeofBlock kernelHeapStop pageSizeInBytes at *
    omega
  have size : heapBytes n = heapPages n * pageSizeInBytes := Nat.mod_eq_of_lt (by omega)
  have limit : va + (heapPages n * pageSizeInBytes + 2 * pageSizeInBytes) < kernelHeapStop := by
    rw [size, Nat.add_assoc] at refused
    unfold u64 at refused
    omega
  have need : u64 (heapBytes n + 2 * pageSizeInBytes) = heapPages n * pageSizeInBytes + 2 * pageSizeInBytes := by
    rw [size]
    exact Nat.mod_eq_of_lt (by omega)
  rw [need] at found
  refine ⟨request, heap.room split found low limit ?_⟩
  intro range later
  have behind := after range later
  rw [noWrap] at behind
  unfold u64 pageSizeInBytes at *
  omega

/-- A request gets a block of the window or a null pointer that changes nothing exactly when a free block can serve
it, when the search ends too high, or when the window has room and the frames last. -/
theorem kmalloc_window_iff (heap : KernelHeap alloc member lists kspace kheap cs) (n : Nat) (bytes : Memory) :
    KmallocSound (kspacePages alloc kspace bytes) n kheap ↔
      (∃ c ∈ cs, ∃ d ∈ c.blks, d.Serves n) ∨
      ∃ va, HeapGap (kheap.env.ranges (lists kspace)) n va ∧
        (kernelHeapStop ≤ u64 (va + heapBytes n + 2 * pageSizeInBytes) ∨
          n + sizeofBlock < 2 ^ 64 ∧ HeapRoom (kheap.env.ranges (lists kspace)) n ∧
            HeapFrames alloc kspace kheap.env n va) := by
  by_cases serves : ∃ c ∈ cs, ∃ d ∈ c.blks, d.Serves n
  · exact ⟨fun _ => Or.inl serves, fun _ => heap.list.kmalloc_served heap.window serves⟩
  have unfit : ∀ c ∈ cs, ∀ d ∈ c.blks, ¬d.Serves n := fun c inside d listed fit => serves ⟨c, inside, d, listed, fit⟩
  constructor
  · intro sound
    right
    rcases heap.refused_or_room unfit sound with ⟨va, gap, refused⟩ | ⟨request, room⟩
    · exact ⟨va, gap, Or.inl refused⟩
    · obtain ⟨va, gap, call⟩ := heap.windowCall room
      obtain ⟨ptr, kheap', returned, -⟩ := sound
      obtain ⟨ret, kernel', called⟩ := heap.called unfit returned
      exact ⟨va, gap, Or.inr ⟨request, room, call.frames.mp ⟨_, called, trivial⟩⟩⟩
  · rintro (fit | ⟨va, gap, refused | ⟨request, room, frames⟩⟩)
    · exact absurd fit serves
    · exact heap.refuse unfit gap refused
    · exact heap.fill unfit request room gap frames

end

/-- A kernel space with one page of the kernel image above the heap window. -/
def imageCalls : List SpaceCall := [.create 0 0, .allocAt 1 0xffffffff80000000 1 259]

theorem image_coherent : ∃ kernel lists, Coherent sixtyFourFrames (· ∈ [1]) lists kernel ∧
    kernel.ranges (lists 1) = [⟨0xffffffff80000000, 0xffffffff80001000, 259⟩] ∧ kernel.env.frames.foldr max 0 = 5 := by
  have valid : ValidSpaceRun sixtyFourFrames.managed [] imageCalls [1, 0xffffffff80000000] :=
    ⟨trivial, ⟨by decide, by decide, ⟨by decide, by decide⟩⟩, trivial⟩
  obtain ⟨kernel, lists, reached, coherent⟩ := coherent_of_calls valid (by decide +kernel)
  have facts : (runSpaceCalls sixtyFourFrames.calls imageCalls (.zeroed ⟨[], []⟩)).toOption.map
      (fun final => ((final.2.space 1).region, final.2.region 2, final.2.env.frames.foldr max 0)) =
        some (2, ⟨0xffffffff80000000, 0xffffffff80001000, NULL, NULL, 259⟩, 5) := by decide +kernel
  rw [reached] at facts
  obtain ⟨head, records⟩ := Prod.mk.inj (Option.some.inj facts)
  obtain ⟨record, frames⟩ := Prod.mk.inj records
  dsimp only at head record frames
  have listed : lists 1 = [2] := by
    apply (coherent.listed (by decide)).eq_of_links head _ (by decide)
    simp [record]
  refine ⟨kernel, lists, coherent, ?_, frames⟩
  rw [listed, Kernel.ranges_cons, Kernel.ranges_nil, VmmRegion.range, record]

/-- An empty heap below the image has room and frames for five pages. -/
theorem image_ready (mem : Memory) {n : Nat} (pages : heapPages n = 5) : ∃ kernel lists va,
    KernelHeap sixtyFourFrames (· ∈ [1]) lists 1 ⟨NULL, mem, kernel⟩ [] ∧ HeapRoom (kernel.ranges (lists 1)) n ∧
      HeapGap (kernel.ranges (lists 1)) n va ∧ HeapFrames sixtyFourFrames 1 kernel n va := by
  obtain ⟨kernel, lists, coherent, ranges, used⟩ := image_coherent
  have bytes : heapBytes n = 20480 := by
    rw [heapBytes, pages]
    rfl
  refine ⟨kernel, lists, kernelHeapStart, ⟨coherent, by decide, ?_, ⟨rfl, trivial, by simp, by simp, .nil⟩, by simp, by simp⟩,
    ?_, ?_, ?_⟩
  · dsimp only
    rw [ranges]
    exact ⟨_, List.mem_singleton_self _, le_rfl⟩
  · rw [ranges]
    refine ⟨by decide, kernelHeapStart, kernelHeapStop, ⟨by decide, le_rfl, le_rfl, ?_, Or.inl rfl, Or.inl rfl⟩, ?_, ?_⟩
    · rintro point - high flags ⟨range, listed, inside, -⟩
      obtain rfl := List.mem_singleton.mp listed
      exact absurd high (not_lt.mpr inside.1)
    · rw [pages]
      decide
    · rw [pages]
      decide
  · rw [ranges]
    refine ⟨[], _, rfl, allPassed_nil _ _, by simp, ?_⟩
    intro head tail shape
    obtain ⟨rfl, -⟩ := List.cons.inj shape
    rw [bytes]
    refine ⟨?_, rfl⟩
    rintro (below | small)
    · exact absurd below (by decide)
    · exact absurd small (by decide)
  · have few : kernel.framesNeeded 1 (windowPages (kernelHeapStart + pageSizeInBytes) (heapPages n)) ≤ 20 := by
      have bound := kernel.framesNeeded_le 1 (windowPages (kernelHeapStart + pageSizeInBytes) (heapPages n))
      rw [windowPages_length, pages] at bound
      rw [pages]
      exact bound
    refine FrameAllocator.Supplies.mono (ledgerAllocator_supplies _ ?_) few
    change kernel.env.frames.foldr max 0 + 20 < 64
    omega

/-- Eight bytes from an empty heap are a block of the window. -/
theorem kmalloc_window_iff_image : ∃ kernel lists,
    KernelHeap sixtyFourFrames (· ∈ [1]) lists 1 ⟨NULL, fun _ => 0, kernel⟩ [] ∧
      KmallocSound (kspacePages sixtyFourFrames 1 fun _ => 0) 8 ⟨NULL, fun _ => 0, kernel⟩ := by
  obtain ⟨kernel, lists, va, heap, room, gap, frames⟩ := @image_ready (fun _ => 0) 8 (by decide)
  exact ⟨kernel, lists, heap, (kmalloc_window_iff heap 8 fun _ => 0).mpr
    (Or.inr ⟨va, gap, Or.inr ⟨by decide, room, frames⟩⟩)⟩

/-- The size of this request wraps to zero, and the call panics. -/
theorem kmalloc_wraps : ∃ kernel lists,
    KernelHeap sixtyFourFrames (· ∈ [1]) lists 1 ⟨NULL, fun _ => 0, kernel⟩ [] ∧
      kmalloc (kspacePages sixtyFourFrames 1 fun _ => 0) (2 ^ 64 - 40) ⟨NULL, fun _ => 0, kernel⟩ =
        .error (.panic .kmallocImpossible) ∧
      ¬KmallocSound (kspacePages sixtyFourFrames 1 fun _ => 0) (2 ^ 64 - 40) ⟨NULL, fun _ => 0, kernel⟩ := by
  obtain ⟨kernel, lists, va, heap, room, gap, frames⟩ := @image_ready (fun _ => 0) (2 ^ 64 - 40) (by decide)
  have panics := @KernelHeap.wrapped _ _ _ _ _ _ _ _ _ (fun _ => 0) heap (by simp) (by decide) (by decide) room gap frames
  refine ⟨kernel, lists, heap, panics, ?_⟩
  rintro ⟨ptr, kheap', returned, -⟩
  rw [panics] at returned
  cases returned

end B0s
