import B0s.Proof.Mm.KheapFree

/-
This file proves that `kmalloc` keeps the heap well formed.
-/

namespace B0s
open ByteMemory DoublyLinked

/-- The page source answers every request, with pages or with null. -/
def HeapPages.Answers {σ : Type} (source : HeapPages σ) : Prop :=
  ∀ pages env, ∃ answer, source.vmmAllocBetween pages env = .ok answer

/-- The heap after an allocation is well formed and has one more used block. The requested bytes of this
block are aligned and overlap no header and no other used block, and the other used blocks are unchanged. -/
structure Kheap.Allocates {σ : Type} (source : HeapPages σ) (kheap : Kheap σ) (cs : List Cont) (n ptr : Nat)
    (kheap' : Kheap σ) (cs' : List Cont) : Prop where
  wellFormed : kheap'.WellFormed source cs'
  aligned : ptr % kheapAlignInBytes = 0
  taken : ∃ taken, taken.header + 40 = ptr ∧ n ≤ taken.size ∧ (usedBlks cs').Perm (taken :: usedBlks cs)
  headers : ∀ kind header, kheap'.Uses kind header → ∀ addr, ptr ≤ addr → addr < ptr + n →
    addr < header ∨ header + 40 ≤ addr
  live : ∀ d ∈ usedBlks cs, d.stop ≤ ptr ∨ ptr + n ≤ d.header
  spares : Spares cs kheap.mem kheap'.mem

section
variable {c : Cont} {before after : List Blk} {b : Blk} {n : Nat}

/-- A free block of a merged list has used neighbours, so its rest may be free. -/
theorem Cont.take_merged (merged : Merged c.blks) (split : c.blks = before ++ b :: after) (free : b.used = false) :
    Merged (c.take before b after n).blks := by
  rw [split] at merged
  obtain ⟨front, back, -⟩ := List.isChain_append.mp merged
  obtain ⟨seam, behind⟩ := List.isChain_cons.mp back
  have marked : Merged (before ++ { b with used := true } :: after) := by
    refine List.isChain_append.mpr ⟨front, List.isChain_cons.mpr ⟨fun _ _ => Or.inl rfl, behind⟩, ?_⟩
    intro p _ q member
    obtain rfl := Option.some.inj member
    exact Or.inr rfl
  unfold Cont.take
  split_ifs with full
  · exact marked
  · obtain ⟨-, -, last⟩ := List.isChain_append.mp marked
    refine List.isChain_append.mpr ⟨front, List.isChain_cons.mpr ⟨fun _ _ => Or.inl rfl, ?_⟩, ?_⟩
    · refine List.isChain_cons.mpr ⟨?_, behind⟩
      intro q member
      exact Or.inr ((seam q member).resolve_left (by simp [free]))
    · intro p member q isHead
      obtain rfl := Option.some.inj isHead
      exact Or.inr rfl

/-- The pages that `kmalloc` asks for hold the request. -/
theorem freshCont_serves {va : Nat} (small : n + 3 * pageSizeInBytes < 2 ^ 64) :
    ∃ b ∈ (freshCont va (max kheapMinAllocInPages (u64 (n + sizeofBlock) / pageSizeInBytes + 2))).blks,
      b.Serves n := by
  refine ⟨_, List.mem_singleton_self _, rfl, ?_⟩
  have large := le_max_right kheapMinAllocInPages (u64 (n + sizeofBlock) / pageSizeInBytes + 2)
  have request : u64 (n + sizeofBlock) = n + sizeofBlock :=
    Nat.mod_eq_of_lt (by unfold sizeofBlock pageSizeInBytes at *; omega)
  rw [request] at large ⊢
  show n ≤ max kheapMinAllocInPages ((n + sizeofBlock) / pageSizeInBytes + 2) * 4096 - 80
  unfold sizeofBlock pageSizeInBytes at *
  omega

end

section
variable {σ : Type} {source : HeapPages σ} {kheap kheap' : Kheap σ} {cs : List Cont} {n ptr : Nat}

/-- A call of `kmalloc` returns, and it does not reach its panic. -/
theorem kmalloc_returns (holds : kheap.Holds source cs) (small : n + 3 * pageSizeInBytes < 2 ^ 64)
    (answers : source.Answers) : ∃ result, kmalloc source n kheap = .ok result := by
  rw [kmalloc, holds.heap]
  rcases @kmallocSearch_spec [] cs _ _ n walkLimit holds.list holds.length_lt with
    ⟨none, -⟩ | ⟨b, mem', -, -, nonnull, found⟩
  · rw [none]
    obtain ⟨⟨va, bytes, env⟩, obtained⟩ :=
      answers (max kheapMinAllocInPages (u64 (n + sizeofBlock) / pageSizeInBytes + 2)) kheap.env
    by_cases null : va = NULL
    · have created : createContainer source (u64 (n + sizeofBlock) / pageSizeInBytes + 2) kheap =
          .ok (NULL, { kheap with env := env }) := by
        rw [createContainer_unfold, obtained]
        simp [bind, Except.bind, null]
      exact ⟨_, by simp [bind, Except.bind, created]; rfl⟩
    · have created : ∃ grown, createContainer source (u64 (n + sizeofBlock) / pageSizeInBytes + 2) kheap =
          .ok (va, grown) := by
        rw [createContainer_unfold, obtained]
        exact ⟨_, by simp [bind, Except.bind, null]; rfl⟩
      obtain ⟨grown, created⟩ := created
      obtain ⟨fresh, -⟩ := (holds.create created).2.2 null
      obtain ⟨b, listed, serves⟩ := @freshCont_serves n va small
      rcases tryAllocBlock_spec (fresh.holds _ List.mem_cons_self) (fresh.fits _ List.mem_cons_self) n with
        ⟨-, unfit⟩ | ⟨before, b, after, split, -, -, success⟩
      · exact absurd serves (unfit b listed)
      · have nonnull := ((fresh.fits _ List.mem_cons_self).pointer (by simp [split] : b ∈ _)).2
        have found : tryAllocBlock va n grown.mem = .ok (b.header, foundBlock b.header n grown.mem) := success
        exact ⟨_, by simp [bind, Except.bind, created, null, found, nonnull]; rfl⟩
  · rw [found]
    exact ⟨_, by simp [bind, Except.bind, nonnull]; rfl⟩

/-- A taken block keeps the heap well formed, and its bytes lie apart from everything in use. -/
theorem Kheap.WellFormed.allocates {cs' : List Cont} (wellFormed : kheap.WellFormed source cs)
    (allocated : Allocated source kheap cs n ptr kheap' cs') : Kheap.Allocates source kheap cs n ptr kheap' cs' := by
  obtain ⟨first, taken, second, usedBefore, usedAfter, named, large⟩ := allocated.used
  have stop : taken.stop = ptr + taken.size := by rw [Blk.stop, named]
  have member : taken ∈ usedBlks cs' := by simp [usedAfter]
  refine ⟨⟨allocated.holds, ?_⟩, ?_, ⟨taken, named, large, ?_⟩, ?_, ?_, allocated.spares⟩
  · obtain ⟨xs, c, ys, before, b, after, split, serves, -, rfl, origin⟩ := allocated.taken
    have merged : Merged c.blks ∧ ∀ d ∈ xs ++ ys, Merged d.blks := by
      rcases origin with ⟨rfl, -⟩ | ⟨rfl, rfl, va, pages, bytes, rfl, -⟩
      · refine ⟨wellFormed.merged c (by simp), fun d inside => wellFormed.merged d ?_⟩
        simp only [List.mem_append, List.mem_cons] at inside ⊢
        tauto
      · exact ⟨List.isChain_singleton _, fun d inside => wellFormed.merged d inside⟩
    intro d inside
    simp only [List.mem_append, List.mem_cons] at inside
    rcases inside with earlier | rfl | later
    · exact merged.2 d (List.mem_append_left _ earlier)
    · exact Cont.take_merged merged.1 split serves.1
    · exact merged.2 d (List.mem_append_right _ later)
  · obtain ⟨c, inside, listed, -⟩ := mem_usedBlks.mp member
    have place := (allocated.holds.fits c inside).inside taken listed
    unfold kheapAlignInBytes
    omega
  · rw [usedBefore, usedAfter]
    exact List.perm_middle
  · intro kind header uses addr low high
    exact allocated.holds.payload_outside (allocated.holds.uses uses) member (by omega) (by omega)
  · have apart := allocated.holds.used_apart
    rw [usedAfter, List.pairwise_append, List.pairwise_cons] at apart
    intro d inside
    rw [usedBefore, List.mem_append] at inside
    rcases inside with earlier | later
    · have away := apart.2.2 d earlier taken (by simp)
      omega
    · have away := apart.2.1.1 d later
      omega

/-- A call of `kmalloc` on a well-formed heap allocates an aligned block of enough bytes in a well-formed heap,
or it returns null and leaves the heap as it is. -/
theorem kmalloc_wellFormed (wellFormed : kheap.WellFormed source cs) (small : n + 3 * pageSizeInBytes < 2 ^ 64)
    (answers : source.Answers) :
    ∃ ptr kheap', kmalloc source n kheap = .ok (ptr, kheap') ∧
      (ptr = NULL ∧ kheap'.heap = kheap.heap ∧ kheap'.mem = kheap.mem ∧
          source.ranges kheap'.env = source.ranges kheap.env ∧ kheap'.WellFormed source cs ∨
        ptr ≠ NULL ∧ ∃ cs', Kheap.Allocates source kheap cs n ptr kheap' cs') := by
  obtain ⟨⟨ptr, kheap'⟩, returned⟩ := kmalloc_returns wellFormed.holds small answers
  refine ⟨ptr, kheap', returned, ?_⟩
  rcases kmalloc_spec wellFormed.holds returned with ⟨rfl, kept, same, pages, bytes, failed⟩ | ⟨nonnull, cs', allocated⟩
  · refine Or.inl ⟨rfl, ?_, same, source.alloc_null _ _ _ _ failed, kept, wellFormed.merged⟩
    rw [kept.heap, wellFormed.holds.heap]
  · exact Or.inr ⟨nonnull, cs', wellFormed.allocates allocated⟩

end

theorem firstFit_answers : firstFit.Answers := by
  intro pages env
  cases found : lowestFree env pages with
  | none => exact ⟨(NULL, fun _ => 0, env), by simp only [firstFit, found]⟩
  | some va => exact ⟨(va, fun _ => 0, (va, pages) :: env), by simp only [firstFit, found]⟩

/-- An allocation of eight bytes behind three blocks meets the conditions. -/
theorem kmalloc_wellFormed_firstFit : ∃ kheap : Kheap (List (Nat × Nat)),
    kheap.WellFormed firstFit [threeBlocks true] ∧
    ∃ ptr kheap', kmalloc firstFit 8 kheap = .ok (ptr, kheap') ∧
      (ptr = NULL ∧ kheap'.heap = kheap.heap ∧ kheap'.mem = kheap.mem ∧
          firstFit.ranges kheap'.env = firstFit.ranges kheap.env ∧ kheap'.WellFormed firstFit [threeBlocks true] ∨
        ptr ≠ NULL ∧ ∃ cs', Kheap.Allocates firstFit kheap [threeBlocks true] 8 ptr kheap' cs') := by
  obtain ⟨kheap, holds⟩ := threeBlocks_holds
  have wellFormed : kheap.WellFormed firstFit [threeBlocks true] := ⟨holds, threeBlocks_merged true⟩
  exact ⟨kheap, wellFormed, kmalloc_wellFormed wellFormed (by decide) firstFit_answers⟩

end B0s
