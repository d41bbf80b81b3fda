import B0s.Proof.Mm.KheapRun
import B0s.Proof.Mm.KheapWindow

/-
This file runs the heap over any page source with a record of its ranges, and proves that the record
satisfies the contract of the heap as long as the pages that the source hands out are fresh.
-/

namespace B0s
open ByteMemory

section
variable {σ : Type} (source : PageSource σ) (env : σ) {n heap : Nat} {mem : Memory}

theorem kmalloc_found {found : Nat × Memory} (searched : kmallocSearch n walkLimit heap mem = .ok found)
    (nonnull : found.1 ≠ NULL) :
    kmalloc source n ⟨heap, mem, env⟩ = .ok (blockData found.1, ⟨heap, found.2, env⟩) := by
  rw [kmalloc, searched]
  exact if_pos nonnull

/-- The result of a call that takes pages depends on them alone. -/
def serveGrown (n heap : Nat) (mem : Memory) (c : Nat) (bytes : Memory) : Outcome (Nat × Nat × Memory) :=
  if c = NULL then .ok (NULL, heap, mem)
  else tryAllocBlock c n (containerMemory c (heapPages n) bytes heap mem) >>= fun taken =>
    if taken.1 = NULL then .error (.panic .kmallocImpossible) else .ok (blockData taken.1, c, taken.2)

theorem kmalloc_grown {found : Nat × Memory} (searched : kmallocSearch n walkLimit heap mem = .ok found)
    (null : found.1 = NULL) :
    kmalloc source n ⟨heap, mem, env⟩ = source.vmmAllocBetween (heapPages n) env >>= fun got =>
      (serveGrown n heap mem got.1 got.2.1).map fun served => (served.1, ⟨served.2.1, served.2.2, got.2.2⟩) := by
  have grows : kmalloc source n ⟨heap, mem, env⟩ =
      createContainer source (u64 (n + sizeofBlock) / pageSizeInBytes + 2) ⟨heap, mem, env⟩ >>= fun created =>
        if created.1 = NULL then .ok (NULL, created.2)
        else tryAllocBlock created.1 n created.2.mem >>= fun taken =>
          if taken.1 = NULL then .error (.panic .kmallocImpossible)
          else .ok (blockData taken.1, { created.2 with mem := taken.2 }) := by
    rw [kmalloc, searched]
    exact if_neg (not_not.mpr null)
  have pages : max kheapMinAllocInPages (u64 (n + sizeofBlock) / pageSizeInBytes + 2) = heapPages n := by
    rw [heapPages]
  rw [grows, createContainer_unfold, pages]
  rcases source.vmmAllocBetween (heapPages n) env with fault | ⟨c, bytes, env'⟩
  · rw [Outcome.error_bind, Outcome.error_bind, Outcome.error_bind]
  · rw [Outcome.ok_bind, Outcome.ok_bind]
    dsimp only
    by_cases fails : c = NULL
    · rw [serveGrown, if_pos fails, if_pos fails, Outcome.ok_bind, if_pos rfl, Except.map]
    · rw [serveGrown, if_neg fails, if_neg fails, Outcome.ok_bind, if_neg fails]
      rcases tryAllocBlock c n (containerMemory c (heapPages n) bytes heap mem) with fault | taken
      · rw [Outcome.error_bind, Outcome.error_bind, Except.map]
      · rw [Outcome.ok_bind, Outcome.ok_bind]
        by_cases none : taken.1 = NULL
        · rw [if_pos none, if_pos none, Except.map]
        · rw [if_neg none, if_neg none, Except.map]

/-- The container whose count `kfree` lowers, and the memory behind it. -/
def freedContainer (ptr : Nat) (mem : Memory) : Nat :=
  loadU64 (storeU8 (blockUsed (dataBlock ptr)) 0 mem) (blockContainer (dataBlock ptr))

def freedMemory (ptr : Nat) (mem : Memory) : Memory :=
  let mem' := storeU8 (blockUsed (dataBlock ptr)) 0 mem
  storeU64 (containerUsedBlocks (freedContainer ptr mem))
    (subU64 (loadU64 mem' (containerUsedBlocks (freedContainer ptr mem))) 1) mem'

/-- The call removes the container. -/
def FreesContainer (ptr : Nat) (mem : Memory) : Prop :=
  loadU64 (freedMemory ptr mem) (containerUsedBlocks (freedContainer ptr mem)) = 0

/-- The memory behind the merge of the block with its neighbours. -/
def mergedMemory (ptr : Nat) (mem : Memory) : Memory :=
  let merged := mergePrev (dataBlock ptr) (u64 (loadU64 mem (blockSizeInBytes (dataBlock ptr)) + sizeofBlock))
    (freedMemory ptr mem)
  mergeNext merged.1 merged.2

theorem kfree_kept {ptr : Nat} (kept : ¬FreesContainer ptr mem) :
    kfree source ptr ⟨heap, mem, env⟩ = .ok ⟨heap, mergedMemory ptr mem, env⟩ := by
  unfold kfree mergedMemory
  extract_lets b totalSize mem0 container mem1 merged
  have kept' : ¬loadU64 mem1 (containerUsedBlocks container) = 0 := kept
  rw [if_neg kept']
  have same : mergePrev b totalSize mem1 = merged := rfl
  clear_value merged mem1 totalSize
  subst same
  rcases mergePrev b totalSize mem1 with ⟨kept, mem'⟩
  rfl

/-- The heap pointer and the memory behind the stores of `remove_container`. -/
def unlinked (c heap : Nat) (mem : Memory) : Nat × Memory :=
  let prev := loadU64 mem (containerPrev c)
  let next := loadU64 mem (containerNext c)
  let heap := if prev = NULL then next else heap
  let mem := if prev = NULL then mem else storeU64 (containerNext prev) next mem
  let next := loadU64 mem (containerNext c)
  let mem := if next ≠ NULL then storeU64 (containerPrev next) (loadU64 mem (containerPrev c)) mem else mem
  (heap, mem)

def unlinkedPages (c : Nat) (mem : Memory) : Nat :=
  u64 (loadU64 mem (containerSizeInBytes c) + sizeofContainer) / pageSizeInBytes

theorem removeContainer_unlinked (c : Nat) : removeContainer source c ⟨heap, mem, env⟩ =
    source.vmmFree c (unlinkedPages c (unlinked c heap mem).2) env >>= fun env' =>
      .ok ⟨(unlinked c heap mem).1, (unlinked c heap mem).2, env'⟩ := by
  unfold removeContainer unlinked unlinkedPages
  dsimp -zeta only

theorem kfree_removed {ptr : Nat} (removed : FreesContainer ptr mem) :
    kfree source ptr ⟨heap, mem, env⟩ =
      removeContainer source (freedContainer ptr mem) ⟨heap, freedMemory ptr mem, env⟩ := by
  unfold kfree
  extract_lets b totalSize mem0 container mem1
  have removed' : loadU64 mem1 (containerUsedBlocks container) = 0 := removed
  have containerEq : container = freedContainer ptr mem := rfl
  have memEq : mem1 = freedMemory ptr mem := rfl
  rw [if_pos removed', containerEq, memEq]

end

/-- The pages lie on a page boundary apart from the recorded ranges. -/
def FreshRange (ranges : List (Nat × Nat)) (va pages : Nat) : Prop :=
  va % pageSizeInBytes = 0 ∧ va + pages * pageSizeInBytes < 2 ^ 64 ∧
    ∀ range ∈ ranges, va + pages * pageSizeInBytes ≤ range.1 ∨ range.1 + range.2 * pageSizeInBytes ≤ va

instance (ranges : List (Nat × Nat)) (va pages : Nat) : Decidable (FreshRange ranges va pages) :=
  inferInstanceAs (Decidable (_ ∧ _ ∧ _))

/-- The record accepts fresh pages only, and it takes a recorded range back even when the source faults. -/
def PageSource.recorded {σ : Type} (source : PageSource σ) : HeapPages (σ × List (Nat × Nat)) where
  ranges env := env.2
  vmmAllocBetween pages env := source.vmmAllocBetween pages env.1 >>= fun got =>
    if got.1 = NULL then .ok (NULL, got.2.1, got.2.2, env.2)
    else if FreshRange env.2 got.1 pages then .ok (got.1, got.2.1, got.2.2, (got.1, pages) :: env.2)
    else .error .diverges
  vmmFree va pages env :=
    if env.2.contains (va, pages) then
      .ok ((source.vmmFree va pages env.1).toOption.getD env.1, env.2.erase (va, pages))
    else .error .diverges
  alloc_null := by
    intro pages env bytes env' obtained
    obtain ⟨got, -, rest⟩ := Outcome.bind_eq_ok.mp obtained
    split_ifs at rest with null fresh
    · simp only [Except.ok.injEq, Prod.mk.injEq] at rest
      rw [← rest.2.2]
    · simp only [Except.ok.injEq, Prod.mk.injEq] at rest
      exact absurd rest.1 null
  alloc_fresh := by
    intro pages env va bytes env' obtained nonnull
    obtain ⟨got, -, rest⟩ := Outcome.bind_eq_ok.mp obtained
    split_ifs at rest with null fresh
    · simp only [Except.ok.injEq, Prod.mk.injEq] at rest
      exact absurd rest.1.symm nonnull
    · simp only [Except.ok.injEq, Prod.mk.injEq] at rest
      obtain ⟨rfl, -, rfl⟩ := rest
      exact ⟨fresh.1, fresh.2.1, rfl, fresh.2.2⟩
  free_released := by
    intro va pages env member
    exact ⟨_, if_pos (List.contains_iff_mem.mpr member), rfl⟩

/-- A heap with the record of its ranges. -/
def Kheap.record {σ : Type} (kheap : Kheap σ) (ranges : List (Nat × Nat)) : Kheap (σ × List (Nat × Nat)) :=
  ⟨kheap.heap, kheap.mem, kheap.env, ranges⟩

/-- The record with the live allocations of a heap in use. -/
def HeapState.record {σ : Type} (state : HeapState σ) (ranges : List (Nat × Nat)) : HeapState (σ × List (Nat × Nat)) :=
  ⟨state.kheap.record ranges, state.live, state.served⟩

/-- A call of the heap over the pages of any source. -/
def heapCallOver {σ : Type} (source : PageSource σ) : HeapCall → HeapState σ → Outcome (HeapState σ)
  | .kmalloc sizeInBytes, state => kmalloc source sizeInBytes state.kheap >>= fun got =>
      if got.1 = NULL then .ok { state with kheap := got.2 }
      else .ok ⟨got.2, (got.1, sizeInBytes) :: state.live, got.1 :: state.served⟩
  | .kfree ptr, state => kfree source ptr state.kheap >>= fun kheap =>
      .ok { state with kheap := kheap, live := state.live.eraseP fun entry => entry.1 = ptr }
  | .write addr byte, state =>
      .ok { state with kheap := { state.kheap with mem := Function.update state.kheap.mem addr byte } }

section
variable {σ : Type} {source : PageSource σ} {kheap kheap' : Kheap σ} {ranges : List (Nat × Nat)} {n ptr : Nat} {fault : Fault}

/-- Over a source with a contract the call is the one of the heap. -/
theorem heapCall_over (source : HeapPages σ) : heapCall source = heapCallOver source.toPageSource := by
  funext call state
  cases call <;> rfl

/-- The headers in use do not depend on the record. -/
theorem Kheap.Uses.recorded {kind : HeaderKind} {header : Nat} (uses : kheap.Uses kind header) :
    (kheap.record ranges).Uses kind header := by
  induction uses with
  | heap nonnull => exact .heap nonnull
  | containerPrev _ nonnull ih => exact .containerPrev ih nonnull
  | containerNext _ nonnull ih => exact .containerNext ih nonnull
  | containerBlock _ nonnull ih => exact .containerBlock ih nonnull
  | blockPrev _ nonnull ih => exact .blockPrev ih nonnull
  | blockNext _ nonnull ih => exact .blockNext ih nonnull
  | blockContainer _ ih => exact .blockContainer ih

/-- The heap holds over every source with the same record. -/
theorem HeapState.Holds.resourced {source' : PageSource σ} {state : HeapState (σ × List (Nat × Nat))} {cs : List Cont}
    (holds : HeapState.Holds source.recorded state cs) : HeapState.Holds source'.recorded state cs :=
  ⟨⟨holds.heap.heap, holds.heap.links, holds.heap.fits, holds.heap.holds, holds.heap.apart, holds.heap.ranges⟩,
    holds.pointers, holds.sizes⟩

/-- The pages of a call are fresh for the record. -/
def FreshPages (source : PageSource σ) (env : σ) (ranges : List (Nat × Nat)) (pages : Nat) : Prop :=
  ∀ va bytes env', source.vmmAllocBetween pages env = .ok (va, bytes, env') → va ≠ NULL → FreshRange ranges va pages

/-- The call for pages that `kmalloc` makes, if it makes one, and the ranges behind it. -/
def GrowsBy (source : PageSource σ) (n : Nat) (env env' : σ) (ranges ranges' : List (Nat × Nat)) : Prop :=
  env' = env ∧ ranges' = ranges ∨ ∃ va bytes, source.vmmAllocBetween (heapPages n) env = .ok (va, bytes, env') ∧
    ranges' = if va = NULL then ranges else (va, heapPages n) :: ranges

/-- An allocation is one on the record as well. -/
theorem kmalloc_recorded (fresh : FreshPages source kheap.env ranges (heapPages n))
    (returned : kmalloc source n kheap = .ok (ptr, kheap')) :
    ∃ ranges', kmalloc source.recorded n (kheap.record ranges) = .ok (ptr, kheap'.record ranges') ∧
      GrowsBy source n kheap.env kheap'.env ranges ranges' := by
  obtain ⟨heap, mem, env⟩ := kheap
  cases searched : kmallocSearch n walkLimit heap mem with
  | error fault =>
      rw [kmalloc, searched] at returned
      cases returned
  | ok found =>
      by_cases null : found.1 = NULL
      · rw [kmalloc_grown source env searched null] at returned
        obtain ⟨⟨va, bytes, env'⟩, obtained, rest⟩ := Outcome.bind_eq_ok.mp returned
        obtain ⟨served, serves, same⟩ := Outcome.map_eq_ok.mp rest
        obtain ⟨rfl, rfl⟩ := Prod.mk.inj same
        have recorded : source.recorded.vmmAllocBetween (heapPages n) (env, ranges) =
            .ok (va, bytes, env', if va = NULL then ranges else (va, heapPages n) :: ranges) := by
          change (source.vmmAllocBetween (heapPages n) env >>= _) = _
          rw [obtained, Outcome.ok_bind]
          by_cases fails : va = NULL
          · rw [if_pos fails, if_pos fails, fails]
          · rw [if_neg fails, if_neg fails]
            exact if_pos (fresh _ _ _ obtained fails)
        refine ⟨_, ?_, Or.inr ⟨va, bytes, obtained, rfl⟩⟩
        rw [Kheap.record, kmalloc_grown _ _ searched null, recorded, Outcome.ok_bind, serves]
        rfl
      · rw [kmalloc_found source env searched null] at returned
        obtain ⟨rfl, rfl⟩ := Prod.mk.inj (Except.ok.inj returned)
        exact ⟨ranges, kmalloc_found _ _ searched null, Or.inl ⟨rfl, rfl⟩⟩

/-- The first container is on the record as well. -/
theorem kheapInit_recorded {mem : Memory} {env : σ} {sizeInPages : Nat}
    (fresh : FreshPages source env [] (max kheapMinAllocInPages sizeInPages))
    (init : kheapInit source sizeInPages ⟨NULL, mem, env⟩ = .ok kheap) : ∃ va bytes,
    source.vmmAllocBetween (max kheapMinAllocInPages sizeInPages) env = .ok (va, bytes, kheap.env) ∧ va ≠ NULL ∧
      kheapInit source.recorded sizeInPages ⟨NULL, mem, (env, [])⟩ =
        .ok (kheap.record [(va, max kheapMinAllocInPages sizeInPages)]) := by
  rw [kheapInit, createContainer_unfold] at init ⊢
  obtain ⟨⟨c, grown⟩, created, rest⟩ := Outcome.bind_eq_ok.mp init
  obtain ⟨⟨va, bytes, env'⟩, obtained, made⟩ := Outcome.bind_eq_ok.mp created
  dsimp only at made rest
  by_cases null : va = NULL
  · rw [if_pos null] at made
    obtain ⟨rfl, -⟩ := Prod.mk.inj (Except.ok.inj made)
    rw [if_pos rfl] at rest
    cases rest
  · rw [if_neg null] at made
    obtain ⟨rfl, rfl⟩ := Prod.mk.inj (Except.ok.inj made)
    rw [if_neg null] at rest
    obtain rfl := Except.ok.inj rest
    have recorded : source.recorded.vmmAllocBetween (max kheapMinAllocInPages sizeInPages) (env, []) =
        .ok (va, bytes, env', [(va, max kheapMinAllocInPages sizeInPages)]) := by
      change (source.vmmAllocBetween (max kheapMinAllocInPages sizeInPages) env >>= _) = _
      rw [obtained, Outcome.ok_bind, if_neg null]
      exact if_pos (fresh _ _ _ obtained null)
    refine ⟨va, bytes, obtained, null, ?_⟩
    rw [recorded, Outcome.ok_bind]
    dsimp only
    rw [if_neg null, Outcome.ok_bind]
    dsimp only
    rw [if_neg null]
    rfl

/-- The call that frees the pages of a container, if `kfree` makes one, and the ranges behind it. -/
def ShrinksBy (source : PageSource σ) (env env' : σ) (ranges ranges' : List (Nat × Nat)) : Prop :=
  env' = env ∧ ranges' = ranges ∨ ∃ va pages, (va, pages) ∈ ranges ∧ source.vmmFree va pages env = .ok env' ∧
    ranges' = ranges.erase (va, pages)

/-- A free that returns on the record returns on the source, unless the source faults on a recorded range. -/
theorem kfree_recorded {final : Kheap (σ × List (Nat × Nat))}
    (returned : kfree source.recorded ptr (kheap.record ranges) = .ok final) :
    (∃ kheap' ranges', kfree source ptr kheap = .ok kheap' ∧ final = kheap'.record ranges' ∧
      ShrinksBy source kheap.env kheap'.env ranges ranges') ∨
    ∃ fault va pages, kfree source ptr kheap = .error fault ∧ (va, pages) ∈ ranges ∧
      source.vmmFree va pages kheap.env = .error fault := by
  obtain ⟨heap, mem, env⟩ := kheap
  rw [Kheap.record] at returned
  by_cases removed : FreesContainer ptr mem
  · rw [kfree_removed _ _ removed, removeContainer_unlinked] at returned
    rw [kfree_removed _ _ removed, removeContainer_unlinked]
    generalize freedContainer ptr mem = c at *
    generalize unlinked c heap (freedMemory ptr mem) = rest at *
    generalize unlinkedPages c rest.2 = pages at *
    obtain ⟨env', freed, same⟩ := Outcome.bind_eq_ok.mp returned
    have freed' : (if ranges.contains (c, pages) then
        Except.ok ((source.vmmFree c pages env).toOption.getD env, ranges.erase (c, pages))
        else .error Fault.diverges) = .ok env' := freed
    split_ifs at freed' with contained
    have member := List.contains_iff_mem.mp contained
    obtain rfl := Except.ok.inj freed'
    obtain rfl := Except.ok.inj same
    cases frees : source.vmmFree c pages env with
    | error fault => exact Or.inr ⟨fault, c, pages, rfl, member, frees⟩
    | ok next => exact Or.inl ⟨⟨rest.1, rest.2, next⟩, ranges.erase (c, pages), rfl, rfl, Or.inr ⟨c, pages, member, frees, rfl⟩⟩
  · rw [kfree_kept _ _ removed] at returned
    obtain rfl := Except.ok.inj returned
    exact Or.inl ⟨⟨heap, mergedMemory ptr mem, env⟩, ranges, kfree_kept _ _ removed, rfl, Or.inl ⟨rfl, rfl⟩⟩

/-- An allocation faults only in the call for its pages. -/
theorem HeapList.kmalloc_fault {cs : List Cont} (list : HeapList kheap.heap kheap.mem cs)
    (small : n + 3 * pageSizeInBytes < 2 ^ 64) (fresh : FreshPages source kheap.env ranges (heapPages n))
    (inside : ∀ c ∈ cs, (c.addr, c.pages) ∈ ranges) (failed : kmalloc source n kheap = .error fault) :
    source.vmmAllocBetween (heapPages n) kheap.env = .error fault := by
  rcases @kmallocSearch_spec [] cs _ _ n walkLimit list list.length_lt with
    ⟨-, unfit⟩ | ⟨b, mem', cs', -, nonnull, found⟩
  · cases obtained : source.vmmAllocBetween (heapPages n) kheap.env with
    | error reason =>
        rw [list.kmalloc_unserved unfit, createContainer_unfold, ← heapPages, obtained, Outcome.error_bind,
          Outcome.error_bind] at failed
        rw [Except.error.inj failed]
    | ok got =>
        obtain ⟨va, bytes, env'⟩ := got
        by_cases null : va = NULL
        · rw [list.kmalloc_unserved unfit, createContainer_unfold, ← heapPages, obtained, Outcome.ok_bind] at failed
          dsimp only at failed
          rw [if_pos null, Outcome.ok_bind, if_pos rfl] at failed
          cases failed
        · obtain ⟨aligned, bounded, apart⟩ := fresh va bytes env' obtained null
          have few : 5 ≤ heapPages n := le_max_left _ _
          unfold pageSizeInBytes at aligned bounded apart
          have away : ∀ c ∈ cs, va + heapPages n * 4096 ≤ c.addr ∨ c.stop ≤ va := fun c member => apart _ (inside c member)
          have places := list.places aligned (by omega) fun c member => by have far := away c member; omega
          obtain ⟨grown, -⟩ := list.create aligned null bounded few away bytes
          have created := createContainer_eq obtained null places (show heapPages n * 4096 < 2 ^ 64 by omega)
          have fits := grown.fits _ List.mem_cons_self
          obtain ⟨b, listed, serves⟩ := @freshCont_serves n va small
          obtain ⟨before, b, after, split, -, -, taken⟩ :=
            (tryAllocBlock_spec (grown.holds _ List.mem_cons_self) fits n).resolve_left fun none => none.2 b listed serves
          have nonnull := (fits.pointer (by simp [split] : b ∈ _)).2
          rw [list.kmalloc_grown unfit created null taken nonnull] at failed
          cases failed
  · have searched : kmallocSearch n walkLimit kheap.heap kheap.mem = .ok (b.header, mem') := list.heap ▸ found
    rw [show kheap = ⟨kheap.heap, kheap.mem, kheap.env⟩ from rfl, kmalloc_found source _ searched nonnull] at failed
    cases failed

end

end B0s
