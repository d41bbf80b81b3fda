import B0s.Proof.Mm.KheapList

/-
This file proves that creating and removing a container keep the rest of the heap list.
-/

namespace B0s
open ByteMemory DoublyLinked

/-- Outside its two links, a container is unchanged. -/
def Cont.Relinked (c : Cont) (mem mem' : Memory) : Prop :=
  ∀ addr, c.addr ≤ addr → addr < c.stop → addr < c.addr + 16 ∨ c.addr + 32 ≤ addr → mem' addr = mem addr

/-- The links of a container belong to the heap list and not to the container. -/
theorem Cont.Relinked.holds {c : Cont} {mem mem' : Memory} (relinked : c.Relinked mem mem') (fits : c.Fits)
    (holds : c.Holds mem) : c.Holds mem' := by
  apply holds.transport fits
  intro word listed offset small
  have facts := fits.word listed
  apply relinked _ (by omega) (by omega)
  rcases Cont.mem_words.mp listed with own | ⟨b, member, own⟩
  · omega
  · have place := fits.inside b member
    omega

theorem Spares.of_relinked {cs : List Cont} {mem mem' : Memory} (fits : ∀ c ∈ cs, c.Fits)
    (relinked : ∀ c ∈ cs, c.Relinked mem mem') : Spares cs mem mem' := by
  intro c member d listed used addr low high
  have place := (fits c member).inside d listed
  exact relinked c member addr (by omega) (by omega) (by omega)

/-- A container of fresh pages is one free block. -/
def freshCont (addr pages : Nat) : Cont := ⟨addr, pages, [⟨addr + 40, pages * 4096 - 80, false⟩]⟩

theorem freshCont_fits {addr pages : Nat} (aligned : addr % 4096 = 0) (nonnull : addr ≠ NULL)
    (bounded : addr + pages * 4096 < 2 ^ 64) (room : 1 ≤ pages) : (freshCont addr pages).Fits := by
  refine ⟨aligned, nonnull, bounded, rfl, by simp [freshCont], ?_⟩
  intro b member
  obtain rfl : b = ⟨addr + 40, pages * 4096 - 80, false⟩ := by simpa [freshCont] using member
  refine ⟨le_rfl, ?_, ?_⟩
  · simp only [Blk.stop, Cont.stop, freshCont]
    omega
  · dsimp only
    omega

/-- The stores of `create_container` in order. -/
def containerStores (c size heap : Nat) (mem : Memory) : Memory :=
  storeU64 (c + 72) c <| storeU64 (c + 64) NULL <| storeU64 (c + 56) NULL <| storeU8 (c + 48) 0 <|
    storeU64 (c + 40) (size - 40) <| storeU64 (c + 32) (c + 40) <| storeUnlessNull heap (heap + 16) c <|
    storeU64 (c + 24) heap <| storeU64 (c + 16) NULL <| storeU64 (c + 8) 0 <| storeU64 c size mem

/-- The words of `create_container`, in the reverse order of its stores. -/
def containerWords (c heap : Nat) : List Nat :=
  [c + 72, c + 64, c + 56, c + 48, c + 40, c + 32, heap + 16, c + 24, c + 16, c + 8, c]

/-- The words of a new container after all its stores. -/
structure ContainerValues (c size heap : Nat) (mem mem' : Memory) : Prop where
  agrees : Agrees (containerWords c heap) mem mem'
  sizeAt : loadU64 mem' c = size
  used : loadU64 mem' (c + 8) = 0
  prev : loadU64 mem' (c + 16) = NULL
  next : loadU64 mem' (c + 24) = heap
  block : loadU64 mem' (c + 32) = c + 40
  blockSize : loadU64 mem' (c + 40) = size - 40
  blockUsed : loadU8 mem' (c + 48) = 0
  blockPrev : loadU64 mem' (c + 56) = NULL
  blockNext : loadU64 mem' (c + 64) = NULL
  blockContainer : loadU64 mem' (c + 72) = c
  back : heap ≠ NULL → loadU64 mem' (heap + 16) = c

/-- A new container lies on a page apart from the first container of the list. -/
structure ContainerPlaces (c heap : Nat) : Prop where
  aligned : c % 8 = 0
  room : c + 80 < 2 ^ 64
  heap : heap ≠ NULL → heap % 8 = 0 ∧ heap + 80 < 2 ^ 64 ∧ (c + 80 ≤ heap ∨ heap + 80 ≤ c)

theorem ContainerPlaces.word {c heap : Nat} (places : ContainerPlaces c heap) (nonnull : heap ≠ NULL) :
    Word (heap + 16) := by
  have facts := places.heap nonnull
  exact ⟨by omega, by omega⟩

/-- The link back to the new container leaves the words of the new container. -/
theorem ContainerPlaces.load_back {c heap : Nat} (places : ContainerPlaces c heap) {addr value : Nat} {mem : Memory}
    (low : c ≤ addr) (high : addr < c + 80) (aligned : addr % 8 = 0) :
    loadU64 (storeUnlessNull heap (heap + 16) value mem) addr = loadU64 mem addr := by
  have start := places.aligned
  have room := places.room
  apply loadU64_storeUnlessNull_ne places.word aligned (by omega)
  intro nonnull
  have facts := places.heap nonnull
  omega

theorem containerStores_values {c size heap : Nat} (mem : Memory) (places : ContainerPlaces c heap)
    (small : size < 2 ^ 64) (smallHeap : heap < 2 ^ 64) :
    ContainerValues c size heap mem (containerStores c size heap mem) := by
  have word := places.word
  have aligned := places.aligned
  have room := places.room
  have zero : NULL < 2 ^ 64 := by decide
  unfold containerStores
  refine ⟨?_, ?_, ?_, ?_, ?_, ?_, ?_, ?_, ?_, ?_, ?_, ?_⟩
  · exact (((((((((((Agrees.refl mem).storeU64 ⟨aligned, by omega⟩).storeU64 ⟨by omega, by omega⟩).storeU64
      ⟨by omega, by omega⟩).storeU64 ⟨by omega, by omega⟩).storeUnlessNull word).storeU64
      ⟨by omega, by omega⟩).storeU64 ⟨by omega, by omega⟩).storeU8 ⟨by omega, by omega⟩).storeU64
      ⟨by omega, by omega⟩).storeU64 ⟨by omega, by omega⟩).storeU64 ⟨by omega, by omega⟩
  on_goal 11 =>
    intro nonnull
    have facts := places.heap nonnull
    have set : storeUnlessNull heap (heap + 16) c (storeU64 (c + 24) heap (storeU64 (c + 16) NULL
        (storeU64 (c + 8) 0 (storeU64 c size mem)))) = storeU64 (heap + 16) c (storeU64 (c + 24) heap
        (storeU64 (c + 16) NULL (storeU64 (c + 8) 0 (storeU64 c size mem)))) := if_pos nonnull
    rw [set]
  all_goals
    simp (disch := omega) only [loadU64_storeU64_ne, loadU64_storeU8_ne, loadU8_storeU64_ne, places.load_back,
      loadU64_storeU64, loadU8_storeU8]

/-- The pages of a new container replace the memory in their range. -/
def overlay (c pages : Nat) (bytes mem : Memory) : Memory := fun addr =>
  if c ≤ addr ∧ addr < c + pages * pageSizeInBytes then bytes addr else mem addr

theorem overlay_outside {c pages addr : Nat} {bytes mem : Memory} (outside : addr < c ∨ c + pages * 4096 ≤ addr) :
    overlay c pages bytes mem addr = mem addr := by
  apply if_neg
  unfold pageSizeInBytes
  omega

section
variable {σ : Type} {source : HeapPages σ} {kheap kheap' : Kheap σ} {cs xs ys : List Cont} {heap : Nat} {mem : Memory}

/-- The stores of `create_container` as the code makes them. -/
def containerMemory (c pages : Nat) (bytes : Memory) (heap : Nat) (mem : Memory) : Memory :=
  let mem := overlay c pages bytes mem
  let mem := storeU64 (containerSizeInBytes c) (subU64 (u64 (pages * pageSizeInBytes)) sizeofContainer) mem
  let mem := storeU64 (containerUsedBlocks c) 0 mem
  let mem := storeU64 (containerPrev c) NULL mem
  let mem := storeU64 (containerNext c) heap mem
  let mem := if heap ≠ NULL then storeU64 (containerPrev heap) c mem else mem
  let mem := storeU64 (containerBlock c) (containerData c) mem
  let mem := storeU64 (blockSizeInBytes (containerData c))
    (subU64 (loadU64 mem (containerSizeInBytes c)) sizeofBlock) mem
  let mem := storeU8 (blockUsed (containerData c)) 0 mem
  let mem := storeU64 (blockPrev (containerData c)) NULL mem
  let mem := storeU64 (blockNext (containerData c)) NULL mem
  storeU64 (blockContainer (containerData c)) c mem

/-- A container is created from the pages that `vmm_alloc_between` returns. -/
theorem createContainer_unfold (source : PageSource σ) (sizeInPages : Nat) (kheap : Kheap σ) :
    createContainer source sizeInPages kheap = (do
      let (c, bytes, env) ← source.vmmAllocBetween (max kheapMinAllocInPages sizeInPages) kheap.env
      if c = NULL then .ok (NULL, { kheap with env := env })
      else .ok (c, ⟨c, containerMemory c (max kheapMinAllocInPages sizeInPages) bytes kheap.heap kheap.mem, env⟩)) :=
  rfl

/-- The loads between the stores of `create_container` see the new words. -/
theorem createContainer_eq {source : PageSource σ} {sizeInPages va : Nat} {bytes : Memory} {env : σ}
    (obtained : source.vmmAllocBetween (max kheapMinAllocInPages sizeInPages) kheap.env = .ok (va, bytes, env))
    (nonnull : va ≠ NULL) (places : ContainerPlaces va kheap.heap)
    (small : max kheapMinAllocInPages sizeInPages * 4096 < 2 ^ 64) :
    createContainer source sizeInPages kheap =
      .ok (va, ⟨va, containerStores va (max kheapMinAllocInPages sizeInPages * 4096 - 40) kheap.heap
        (overlay va (max kheapMinAllocInPages sizeInPages) bytes kheap.mem), env⟩) := by
  have few : 5 ≤ max kheapMinAllocInPages sizeInPages := le_max_left _ _
  rw [createContainer_unfold]
  generalize max kheapMinAllocInPages sizeInPages = pages at *
  have bytesEq : u64 (pages * pageSizeInBytes) = pages * 4096 := Nat.mod_eq_of_lt (by unfold pageSizeInBytes; omega)
  have sizeEq : subU64 (pages * 4096) sizeofContainer = pages * 4096 - 40 :=
    subU64_eq (by omega) (by unfold sizeofContainer; omega)
  have room := places.room
  have dataEq : containerData va = va + 40 := Nat.mod_eq_of_lt (by unfold sizeofContainer; omega)
  have lastEq : subU64 (pages * 4096 - 40) sizeofBlock = pages * 4096 - 40 - 40 :=
    subU64_eq (by omega) (by unfold sizeofBlock; omega)
  have aligned := places.aligned
  have sorted : containerMemory va pages bytes kheap.heap kheap.mem = containerStores va (pages * 4096 - 40)
      kheap.heap (overlay va pages bytes kheap.mem) := by
    simp only [containerMemory, containerSizeInBytes, containerUsedBlocks, containerPrev, containerNext,
      containerBlock, blockSizeInBytes, blockUsed, blockPrev, blockNext, blockContainer, bytesEq, sizeEq, dataEq]
    have fold : ∀ mem, (if kheap.heap ≠ NULL then storeU64 (kheap.heap + 16) va mem else mem) =
        storeUnlessNull kheap.heap (kheap.heap + 16) va mem := fun _ => rfl
    simp (disch := omega) only [fold, loadU64_storeU64_ne, places.load_back, loadU64_storeU64, lastEq]
    rfl
  rw [obtained]
  simp only [bind, Except.bind, if_neg nonnull, sorted]

/-- The stores of `create_container` put one free block into memory. -/
theorem ContainerValues.holds {c pages heap : Nat} {mem mem' : Memory}
    (values : ContainerValues c (pages * 4096 - 40) heap mem mem') (room : 1 ≤ pages) :
    (freshCont c pages).Holds mem' := by
  refine ⟨?_, values.used, values.block, ⟨values.blockPrev, values.blockNext, trivial⟩, ?_⟩
  · have size : loadU64 mem' (freshCont c pages).addr = pages * 4096 - 40 := values.sizeAt
    rw [size]
    show pages * 4096 - 40 + 40 = pages * 4096
    omega
  · intro b member
    obtain rfl : b = ⟨c + 40, pages * 4096 - 80, false⟩ := by simpa [freshCont] using member
    exact ⟨values.blockSize, values.blockUsed, values.blockContainer⟩

/-- The heap pointer is null or leads to the first container. -/
theorem HeapList.heap_cases (list : HeapList heap mem cs) : heap = NULL ∨ ∃ c ∈ cs, heap = c.addr := by
  rw [list.heap]
  cases cs with
  | nil => exact Or.inl rfl
  | cons c rest => exact Or.inr ⟨c, List.mem_cons_self, rfl⟩

theorem HeapList.heap_lt (list : HeapList heap mem cs) : heap < 2 ^ 64 := by
  rcases list.heap_cases with rfl | ⟨c, member, rfl⟩
  · decide
  · have room := (list.fits c member).room
    have below := (list.fits c member).bounded
    omega

/-- A page apart from the containers has a place for the header of a new one. -/
theorem HeapList.places (list : HeapList heap mem cs) {va : Nat} (aligned : va % 4096 = 0) (room : va + 80 < 2 ^ 64)
    (apart : ∀ c ∈ cs, va + 80 ≤ c.addr ∨ c.stop ≤ va) : ContainerPlaces va heap := by
  refine ⟨by omega, room, ?_⟩
  intro nonnull
  obtain ⟨c, member, rfl⟩ := list.heap_cases.resolve_left nonnull
  have fits := list.fits c member
  have away := apart c member
  have page := fits.aligned
  have room := fits.room
  have below := fits.bounded
  omega

/-- The stores of `create_container` put a new container in front of the heap list. -/
theorem HeapList.create (list : HeapList heap mem cs) {va pages : Nat} (aligned : va % 4096 = 0) (null : va ≠ NULL)
    (bounded : va + pages * 4096 < 2 ^ 64) (few : 5 ≤ pages)
    (apart : ∀ c ∈ cs, va + pages * 4096 ≤ c.addr ∨ c.stop ≤ va) (bytes : Memory) :
    HeapList va (containerStores va (pages * 4096 - 40) heap (overlay va pages bytes mem)) (freshCont va pages :: cs) ∧
      Spares cs mem (containerStores va (pages * 4096 - 40) heap (overlay va pages bytes mem)) := by
  have places := list.places aligned (by omega) fun c member => by have away := apart c member; omega
  have values := containerStores_values (overlay va pages bytes mem) places (by omega : pages * 4096 - 40 < 2 ^ 64)
    list.heap_lt
  generalize containerStores va (pages * 4096 - 40) heap (overlay va pages bytes mem) = mem' at *
  have kept : ∀ c ∈ cs, ∀ addr, c.addr ≤ addr → addr < c.stop →
      addr < headAddr cs + 16 ∨ headAddr cs + 24 ≤ addr → mem' addr = mem addr := by
    intro c member addr low high outside
    have away := apart c member
    have below := (list.fits c member).bounded
    rw [← list.heap] at outside
    rw [values.agrees addr (by omega) _, overlay_outside (by omega)]
    intro word listed
    simp only [containerWords, List.mem_cons, List.not_mem_nil, or_false] at listed
    omega
  have relinked : ∀ c ∈ cs, c.Relinked mem mem' := by
    intro c member addr low high inside
    apply kept c member addr low high
    obtain ⟨d, first, named⟩ := headAddr_mem member
    have outside := list.outside_links member first low high inside
    omega
  have fits := freshCont_fits aligned null bounded (by omega)
  refine ⟨⟨rfl, ?_, ?_, ?_, ?_⟩, Spares.of_relinked list.fits relinked⟩
  · refine ⟨values.prev, values.next.trans list.heap, ?_⟩
    apply list.links.retarget_before list.distinct
    · intro node member
      obtain ⟨c, listed, rfl⟩ := List.mem_map.mp member
      have room := (list.fits c listed).room
      have below := (list.fits c listed).bounded
      apply loadU64_congr (by omega)
      intro offset small
      apply kept c listed _ (by omega) (by omega)
      obtain ⟨d, first, named⟩ := headAddr_mem listed
      by_cases same : c = d
      · rw [named, ← same]
        omega
      · have away := list.apart_of_ne listed first same
        have room := (list.fits d first).room
        omega
    · intro node member notHead
      obtain ⟨c, listed, rfl⟩ := List.mem_map.mp member
      have room := (list.fits c listed).room
      have below := (list.fits c listed).bounded
      apply loadU64_congr (by omega)
      intro offset small
      apply kept c listed _ (by omega) (by omega)
      obtain ⟨d, first, named⟩ := headAddr_mem listed
      have different : c ≠ d := by
        rintro rfl
        apply notHead
        rw [← named]
        exact headAddr_some (named ▸ (list.fits c first).nonnull)
      have away := list.apart_of_ne listed first different
      have room := (list.fits d first).room
      omega
    · intro node head
      have named : heap = node := list.heap.trans (headAddr_eq head)
      have nonnull : heap ≠ NULL := by
        obtain ⟨c, listed, rfl⟩ := List.mem_map.mp (List.mem_of_mem_head? head)
        rw [named]
        exact (list.fits c listed).nonnull
      rw [← named]
      exact values.back nonnull
  · intro c member
    rcases List.mem_cons.mp member with rfl | later
    · exact fits
    · exact list.fits c later
  · intro c member
    rcases List.mem_cons.mp member with rfl | later
    · exact values.holds (by omega)
    · exact (relinked c later).holds (list.fits c later) (list.holds c later)
  · rw [List.pairwise_cons]
    exact ⟨apart, list.apart⟩

/-- A new container comes first in the heap list. -/
theorem Kheap.Holds.create (holds : kheap.Holds source cs) {sizeInPages va : Nat}
    (created : createContainer source sizeInPages kheap = .ok (va, kheap')) :
    (∃ bytes, source.vmmAllocBetween (max kheapMinAllocInPages sizeInPages) kheap.env =
      .ok (va, bytes, kheap'.env)) ∧
    (va = NULL → kheap'.Holds source cs ∧ kheap'.mem = kheap.mem) ∧
    (va ≠ NULL → kheap'.Holds source (freshCont va (max kheapMinAllocInPages sizeInPages) :: cs) ∧
      Spares cs kheap.mem kheap'.mem) := by
  obtain ⟨⟨va', bytes, env⟩, obtained, rest⟩ := Outcome.bind_eq_ok.mp created
  by_cases null : va' = NULL
  · obtain ⟨rfl, rfl⟩ : va' = va ∧ { kheap with env := env } = kheap' := by
      simpa [null, eq_comm] using rest
    have same : source.ranges env = source.ranges kheap.env := source.alloc_null _ _ _ _ (null ▸ obtained)
    refine ⟨⟨bytes, obtained⟩, ?_, fun nonnull => absurd null nonnull⟩
    intro _
    refine ⟨⟨holds.heap, holds.links, holds.fits, holds.holds, holds.apart, ?_⟩, rfl⟩
    intro c member
    rw [same]
    exact holds.ranges c member
  · obtain ⟨aligned, bounded, ranges, fresh⟩ := source.alloc_fresh _ _ _ _ _ obtained null
    have few : 5 ≤ max kheapMinAllocInPages sizeInPages := le_max_left _ _
    unfold pageSizeInBytes at aligned bounded fresh
    have apart : ∀ c ∈ cs, va' + max kheapMinAllocInPages sizeInPages * 4096 ≤ c.addr ∨ c.stop ≤ va' :=
      fun c member => fresh _ (holds.ranges c member)
    have places := holds.list.places aligned (by omega) fun c member => by have away := apart c member; omega
    have equation := createContainer_eq obtained null places (by omega)
    rw [equation] at created
    obtain ⟨rfl, rfl⟩ : va' = va ∧ _ = kheap' := by simpa using created
    obtain ⟨list, spares⟩ := holds.list.create aligned null bounded few apart bytes
    refine ⟨⟨bytes, obtained⟩, fun zero => absurd zero null, ?_⟩
    intro _
    refine ⟨⟨list.heap, list.links, list.fits, list.holds, list.apart, ?_⟩, spares⟩
    intro c member
    show (c.addr, c.pages) ∈ source.ranges env
    rw [ranges]
    rcases List.mem_cons.mp member with rfl | later
    · exact List.mem_cons_self
    · exact List.mem_cons_of_mem _ (holds.ranges c later)

/-- The address that comes last in a list of containers, or null. -/
def lastAddr (cs : List Cont) : Nat := (cs.map Cont.addr).getLastD NULL

/-- The memory after a container is unlinked from its neighbours. -/
def unlinkContainer (prev next : Nat) (mem : Memory) : Memory :=
  storeUnlessNull next (next + 16) prev (storeUnlessNull prev (prev + 24) next mem)

theorem Kheap.Holds.prev_eq {c : Cont} (holds : kheap.Holds source (xs ++ c :: ys)) :
    loadU64 kheap.mem (c.addr + 16) = lastAddr xs := by
  have linked := holds.links
  rw [List.map_append, List.map_cons] at linked
  exact linked.links_at.2

theorem lastAddr_mem {c : Cont} (member : c ∈ cs) : ∃ d ∈ cs, lastAddr cs = d.addr := by
  rcases cs.eq_nil_or_concat' with rfl | ⟨rest, d, rfl⟩
  · cases member
  · exact ⟨d, by simp, by simp [lastAddr]⟩

/-- The previous container lies apart from a container of the list. -/
theorem Kheap.Holds.last_place {c : Cont} (holds : kheap.Holds source (xs ++ c :: ys)) (nonnull : lastAddr xs ≠ NULL) :
    lastAddr xs % 4096 = 0 ∧ lastAddr xs + 80 < 2 ^ 64 ∧ (c.stop ≤ lastAddr xs ∨ lastAddr xs + 80 ≤ c.addr) := by
  cases xs with
  | nil => exact absurd rfl nonnull
  | cons first rest =>
      obtain ⟨d, member, named⟩ := lastAddr_mem (by simp : first ∈ first :: rest)
      have fits := holds.fits d (List.mem_append_left _ member)
      have page := fits.aligned
      have room := fits.room
      have bounded := fits.bounded
      have away := (List.pairwise_append.mp holds.apart).2.2 d member c (by simp)
      omega

/-- The next container lies apart from a container of the list. -/
theorem Kheap.Holds.head_place {c : Cont} (holds : kheap.Holds source (xs ++ c :: ys)) (nonnull : headAddr ys ≠ NULL) :
    headAddr ys % 4096 = 0 ∧ headAddr ys + 80 < 2 ^ 64 ∧ (c.stop ≤ headAddr ys ∨ headAddr ys + 80 ≤ c.addr) := by
  cases ys with
  | nil => exact absurd rfl nonnull
  | cons d rest =>
      have named : headAddr (d :: rest) = d.addr := rfl
      have fits := holds.fits d (by simp)
      have page := fits.aligned
      have room := fits.room
      have bounded := fits.bounded
      have away := (List.pairwise_cons.mp (List.pairwise_append.mp holds.apart).2.1).1 d (by simp)
      omega

/-- The code of `remove_container` unlinks the container and returns its pages. -/
theorem removeContainer_eq {c : Cont} (holds : kheap.Holds source (xs ++ c :: ys)) :
    removeContainer source c.addr kheap = (do
      let env ← source.vmmFree c.addr c.pages kheap.env
      .ok ⟨headAddr (xs ++ ys), unlinkContainer (lastAddr xs) (headAddr ys) kheap.mem, env⟩) := by
  have fits := holds.fits c (by simp)
  have room := fits.room
  have bounded := fits.bounded
  have page := fits.aligned
  have prevAt : loadU64 kheap.mem (containerPrev c.addr) = lastAddr xs := holds.prev_eq
  have nextAt : loadU64 kheap.mem (containerNext c.addr) = headAddr ys := holds.next_eq
  have prevPlace := holds.last_place
  have nextPlace := holds.head_place
  have heapEq : (if lastAddr xs = NULL then headAddr ys else kheap.heap) = headAddr (xs ++ ys) := by
    cases xs with
    | nil => exact if_pos rfl
    | cons d rest =>
        rw [if_neg, holds.heap]
        · rfl
        · obtain ⟨last, member, named⟩ := lastAddr_mem (by simp : d ∈ d :: rest)
          rw [named]
          exact (holds.fits last (List.mem_append_left _ member)).nonnull
  have keptPrev : ∀ addr, addr % 8 = 0 → c.addr ≤ addr → addr < c.addr + 40 → ∀ mem value,
      loadU64 (storeUnlessNull (lastAddr xs) (lastAddr xs + 24) value mem) addr = loadU64 mem addr := by
    intro addr aligned low high mem value
    apply loadU64_storeUnlessNull_ne _ aligned (by omega)
    · intro nonnull
      have facts := prevPlace nonnull
      omega
    · intro nonnull
      have facts := prevPlace nonnull
      exact ⟨by omega, by omega⟩
  have keptNext : ∀ addr, addr % 8 = 0 → c.addr ≤ addr → addr < c.addr + 40 → ∀ mem value,
      loadU64 (storeUnlessNull (headAddr ys) (headAddr ys + 16) value mem) addr = loadU64 mem addr := by
    intro addr aligned low high mem value
    apply loadU64_storeUnlessNull_ne _ aligned (by omega)
    · intro nonnull
      have facts := nextPlace nonnull
      omega
    · intro nonnull
      have facts := nextPlace nonnull
      exact ⟨by omega, by omega⟩
  have stored : (if lastAddr xs = NULL then kheap.mem
      else storeU64 (containerNext (lastAddr xs)) (headAddr ys) kheap.mem) =
      storeUnlessNull (lastAddr xs) (lastAddr xs + 24) (headAddr ys) kheap.mem := by
    by_cases null : lastAddr xs = NULL
    · simp [storeUnlessNull, null]
    · simp [storeUnlessNull, null, containerNext]
  have pagesEq : u64 (loadU64 kheap.mem c.addr + sizeofContainer) / pageSizeInBytes = c.pages := by
    have size : loadU64 kheap.mem c.addr + sizeofContainer = c.pages * 4096 := (holds.holds c (by simp)).size
    have small : u64 (c.pages * 4096) = c.pages * 4096 := by
      unfold Cont.stop at bounded
      exact Nat.mod_eq_of_lt (by omega)
    rw [size, small]
    exact Nat.mul_div_cancel _ (by decide)
  have fold : ∀ mem value, (if headAddr ys ≠ NULL then storeU64 (headAddr ys + 16) value mem else mem) =
      storeUnlessNull (headAddr ys) (headAddr ys + 16) value mem := fun _ _ => rfl
  have placed : c.addr % 8 = 0 := by omega
  rw [removeContainer]
  simp only [prevAt, nextAt, heapEq, stored]
  simp only [containerPrev, containerNext, containerSizeInBytes] at prevAt nextAt ⊢
  simp (disch := omega) only [keptPrev, prevAt, nextAt, fold, keptNext, pagesEq]
  rfl

/-- The links of the neighbours lead past the removed container, and all else is unchanged. -/
structure Unlinked (xs ys : List Cont) (mem mem' : Memory) : Prop where
  agrees : Agrees [headAddr ys + 16, lastAddr xs + 24] mem mem'
  forth : lastAddr xs ≠ NULL → loadU64 mem' (lastAddr xs + 24) = headAddr ys
  back : headAddr ys ≠ NULL → loadU64 mem' (headAddr ys + 16) = lastAddr xs

theorem Kheap.Holds.unlink {c : Cont} (holds : kheap.Holds source (xs ++ c :: ys)) :
    Unlinked xs ys kheap.mem (unlinkContainer (lastAddr xs) (headAddr ys) kheap.mem) := by
  have prevPlace := holds.last_place
  have nextPlace := holds.head_place
  have prevWord : lastAddr xs ≠ NULL → Word (lastAddr xs + 24) := by
    intro nonnull
    have facts := prevPlace nonnull
    exact ⟨by omega, by omega⟩
  have nextWord : headAddr ys ≠ NULL → Word (headAddr ys + 16) := by
    intro nonnull
    have facts := nextPlace nonnull
    exact ⟨by omega, by omega⟩
  have smallPrev : lastAddr xs < 2 ^ 64 := by
    rw [← holds.prev_eq]
    exact loadU64_lt _ _
  have smallNext : headAddr ys < 2 ^ 64 := by
    rw [← holds.next_eq]
    exact loadU64_lt _ _
  unfold unlinkContainer
  refine ⟨((Agrees.refl _).storeUnlessNull prevWord).storeUnlessNull nextWord, ?_, ?_⟩
  · intro nonnull
    have facts := prevPlace nonnull
    rw [loadU64_storeUnlessNull_ne nextWord (by omega) (by omega), storeUnlessNull, if_pos nonnull,
      loadU64_storeU64 smallNext]
    intro nonnullNext
    have facts := nextPlace nonnullNext
    omega
  · intro nonnull
    rw [storeUnlessNull, if_pos nonnull, loadU64_storeU64 smallPrev]

/-- A link word of a container is unchanged when it is none of the two changed words. -/
theorem Unlinked.load {mem mem' : Memory} (unlinked : Unlinked xs ys mem mem') {addr : Nat} (word : Word addr)
    (head : headAddr ys % 8 = 0) (last : lastAddr xs % 8 = 0) (notHead : addr ≠ headAddr ys + 16)
    (notLast : addr ≠ lastAddr xs + 24) : loadU64 mem' addr = loadU64 mem addr := by
  apply unlinked.agrees.loadU64 _ word (by simp [notHead, notLast])
  intro other member
  simp only [List.mem_cons, List.not_mem_nil, or_false] at member
  omega

theorem lastAddr_eq {addr : Nat} (last : (xs.map Cont.addr).getLast? = some addr) : lastAddr xs = addr := by
  rw [lastAddr, List.getLastD_eq_getLast?, last]
  rfl

theorem lastAddr_some (nonnull : lastAddr xs ≠ NULL) : (xs.map Cont.addr).getLast? = some (lastAddr xs) := by
  cases last : (xs.map Cont.addr).getLast? with
  | none =>
      rw [lastAddr, List.getLastD_eq_getLast?, last] at nonnull
      exact absurd rfl nonnull
  | some addr => rw [lastAddr_eq last]

theorem Kheap.Holds.place {d : Cont} (holds : kheap.Holds source cs) (member : d ∈ cs) :
    d.addr % 4096 = 0 ∧ 4096 ≤ d.addr ∧ d.addr + 80 < 2 ^ 64 := by
  have fits := holds.fits d member
  have page := fits.aligned
  have low := fits.low
  have room := fits.room
  have bounded := fits.bounded
  omega

/-- The neighbours of a container are null or containers of the list. -/
theorem Kheap.Holds.neighbours {c : Cont} (holds : kheap.Holds source (xs ++ c :: ys)) :
    (lastAddr xs = 0 ∨ ∃ d ∈ xs, lastAddr xs = d.addr) ∧ (headAddr ys = 0 ∨ ∃ d ∈ ys, headAddr ys = d.addr) := by
  constructor
  · cases xs with
    | nil => exact Or.inl rfl
    | cons d rest => exact Or.inr (lastAddr_mem (by simp : d ∈ d :: rest))
  · cases ys with
    | nil => exact Or.inl rfl
    | cons d rest => exact Or.inr (headAddr_mem (by simp : d ∈ d :: rest))

/-- Unlinking a container changes only links. -/
theorem Unlinked.relinked {c : Cont} {mem' : Memory} (unlinked : Unlinked xs ys kheap.mem mem')
    (holds : kheap.Holds source (xs ++ c :: ys)) {d : Cont} (member : d ∈ xs ++ c :: ys) :
    d.Relinked kheap.mem mem' := by
  intro addr low high inside
  have place := holds.place member
  have bounded := (holds.fits d member).bounded
  obtain ⟨last, head⟩ := holds.neighbours
  apply unlinked.agrees addr (by omega)
  intro word listed
  simp only [List.mem_cons, List.not_mem_nil, or_false] at listed
  rcases listed with rfl | rfl
  · rcases head with null | ⟨e, later, named⟩
    · omega
    · have outside := holds.outside_links member (by simp [later] : e ∈ xs ++ c :: ys) low high inside
      omega
  · rcases last with null | ⟨e, earlier, named⟩
    · omega
    · have outside := holds.outside_links member (by simp [earlier] : e ∈ xs ++ c :: ys) low high inside
      omega

/-- Unlinking a container joins its neighbours. -/
theorem Unlinked.links {c : Cont} {mem' : Memory} (unlinked : Unlinked xs ys kheap.mem mem')
    (holds : kheap.Holds source (xs ++ c :: ys)) :
    Segment (fun c => loadU64 mem' (c + 24)) (fun c => loadU64 mem' (c + 16)) NULL ((xs ++ ys).map Cont.addr)
      NULL := by
  have distinct := holds.distinct
  have linked := holds.links
  obtain ⟨last, head⟩ := holds.neighbours
  have placeLast : lastAddr xs % 4096 = 0 := by
    rcases last with null | ⟨e, earlier, named⟩
    · omega
    · have place := holds.place (by simp [earlier] : e ∈ xs ++ c :: ys)
      omega
  have placeHead : headAddr ys % 4096 = 0 := by
    rcases head with null | ⟨e, later, named⟩
    · omega
    · have place := holds.place (by simp [later] : e ∈ xs ++ c :: ys)
      omega
  have listed : ∀ addr ∈ xs.map Cont.addr ++ ys.map Cont.addr,
      addr % 4096 = 0 ∧ 4096 ≤ addr ∧ addr + 80 < 2 ^ 64 := by
    intro addr member
    rw [← List.map_append] at member
    obtain ⟨d, inside, rfl⟩ := List.mem_map.mp member
    apply holds.place
    simp only [List.mem_append, List.mem_cons] at inside ⊢
    tauto
  rw [List.map_append, List.map_cons] at linked distinct
  rw [List.map_append]
  apply linked.erase distinct
  · intro other final
    have place := listed other (List.mem_append_left _ (List.mem_of_getLast? final))
    have named := lastAddr_eq final
    rw [← named]
    apply unlinked.forth
    unfold NULL
    omega
  · intro other first
    have place := listed other (List.mem_append_right _ (List.mem_of_mem_head? first))
    have named := headAddr_eq first
    rw [← named]
    apply unlinked.back
    unfold NULL
    omega
  · intro other member notLast
    have place := listed other member
    apply unlinked.load ⟨by omega, by omega⟩ (by omega) (by omega) (by omega)
    intro same
    apply notLast
    have named : other = lastAddr xs := by omega
    have nonnull : lastAddr xs ≠ 0 := by omega
    rw [named]
    exact lastAddr_some nonnull
  · intro other member notHead
    have place := listed other member
    apply unlinked.load ⟨by omega, by omega⟩ (by omega) (by omega) _ (by omega)
    intro same
    apply notHead
    have named : other = headAddr ys := by omega
    have nonnull : headAddr ys ≠ 0 := by omega
    rw [named]
    exact headAddr_some nonnull

/-- Removing a container returns its pages and keeps the rest of the heap list. -/
theorem Kheap.Holds.remove {c : Cont} (holds : kheap.Holds source (xs ++ c :: ys)) :
    ∃ kheap', removeContainer source c.addr kheap = .ok kheap' ∧
      source.vmmFree c.addr c.pages kheap.env = .ok kheap'.env ∧ kheap'.Holds source (xs ++ ys) ∧
      Spares (xs ++ ys) kheap.mem kheap'.mem := by
  obtain ⟨env, freed, ranges⟩ := source.free_released c.addr c.pages kheap.env (holds.ranges c (by simp))
  have inside : ∀ d ∈ xs ++ ys, d ∈ xs ++ c :: ys := by
    intro d member
    simp only [List.mem_append, List.mem_cons] at member ⊢
    tauto
  have distinct := holds.distinct
  have unlinked := holds.unlink
  have equation := removeContainer_eq holds
  rw [freed] at equation
  generalize unlinkContainer (lastAddr xs) (headAddr ys) kheap.mem = mem' at *
  have relinked : ∀ d ∈ xs ++ ys, d.Relinked kheap.mem mem' := fun d member =>
    unlinked.relinked holds (inside d member)
  have fits : ∀ d ∈ xs ++ ys, d.Fits := fun d member => holds.fits d (inside d member)
  refine ⟨⟨headAddr (xs ++ ys), mem', env⟩, equation, freed, ⟨rfl, unlinked.links holds, fits, ?_, ?_, ?_⟩,
    Spares.of_relinked fits relinked⟩
  · intro d member
    exact (relinked d member).holds (fits d member) (holds.holds d (inside d member))
  · exact holds.apart.sublist (List.Sublist.append_left (List.sublist_cons_self _ _) _)
  · intro d member
    show (d.addr, d.pages) ∈ source.ranges env
    rw [ranges]
    apply (List.mem_erase_of_ne _).mpr (holds.ranges d (inside d member))
    intro same
    rw [List.map_append, List.map_cons, List.nodup_middle, List.nodup_cons, ← List.map_append] at distinct
    exact distinct.1 (List.mem_map.mpr ⟨d, member, congrArg Prod.fst same⟩)

end

end B0s
