import B0s.Proof.Mm.KheapContainer

/-
This file proves what `kmalloc` and `kfree` do to the used blocks of the heap.
-/

namespace B0s
open ByteMemory DoublyLinked

/-- The used blocks of a list of containers. -/
def usedBlks (cs : List Cont) : List Blk := cs.flatMap fun c => c.blks.filter Blk.used

theorem usedBlks_append (xs : List Cont) (c : Cont) (ys : List Cont) :
    usedBlks (xs ++ c :: ys) = usedBlks xs ++ (c.blks.filter Blk.used ++ usedBlks ys) := by
  simp [usedBlks]

theorem mem_usedBlks {cs : List Cont} {d : Blk} :
    d ∈ usedBlks cs ↔ ∃ c ∈ cs, d ∈ c.blks ∧ d.used = true := by
  simp [usedBlks]

theorem spares_iff {cs : List Cont} {mem mem' : Memory} : Spares cs mem mem' ↔
    ∀ d ∈ usedBlks cs, ∀ addr, d.header + 40 ≤ addr → addr < d.stop → mem' addr = mem addr := by
  constructor
  · intro spares d member
    obtain ⟨c, inside, listed, used⟩ := mem_usedBlks.mp member
    exact spares c inside d listed used
  · intro spares c inside d listed used
    exact spares d (mem_usedBlks.mpr ⟨c, inside, listed, used⟩)

section
variable {c : Cont} {before after : List Blk} {b : Blk} {n : Nat}

/-- Taking a block adds it to the used blocks. -/
theorem Cont.take_used (split : c.blks = before ++ b :: after) (serves : b.Serves n) :
    c.blks.filter Blk.used = before.filter Blk.used ++ after.filter Blk.used ∧
    ∃ taken : Blk, taken.header = b.header ∧ n ≤ taken.size ∧ taken.used = true ∧
      (c.take before b after n).blks.filter Blk.used =
        before.filter Blk.used ++ taken :: after.filter Blk.used := by
  constructor
  · rw [split, List.filter_append, List.filter_cons_of_neg (by simp [serves.1])]
  · unfold Cont.take
    split_ifs with full
    · exact ⟨{ b with used := true }, rfl, serves.2, rfl, by simp [Cont.mark]⟩
    · exact ⟨{ b with used := true, size := n }, rfl, le_rfl, rfl, by simp [Cont.mark, Cont.split]⟩

/-- Marking a block as free takes it from the used blocks. -/
theorem Cont.mark_used (split : c.blks = before ++ b :: after) (used : b.used = true) :
    c.blks.filter Blk.used = before.filter Blk.used ++ b :: after.filter Blk.used ∧
    (c.mark before b after false).blks.filter Blk.used = before.filter Blk.used ++ after.filter Blk.used := by
  constructor
  · rw [split, List.filter_append, List.filter_cons_of_pos used]
  · simp [Cont.mark]

theorem mergedLeft_used (free : b.used = false) :
    (mergedLeft before b).1.filter Blk.used = before.filter Blk.used ∧ (mergedLeft before b).2.used = false := by
  unfold mergedLeft
  rcases before.eq_nil_or_concat' with rfl | ⟨bs, p, rfl⟩
  · simp [free]
  · by_cases used : p.used = true
    · simp [used, free]
    · have unused : p.used = false := by simpa using used
      simp [unused]

theorem mergedRight_used (free : b.used = false) :
    (mergedRight b after).1.used = false ∧ (mergedRight b after).2.filter Blk.used = after.filter Blk.used := by
  cases after with
  | nil => exact ⟨free, rfl⟩
  | cons q rest =>
      by_cases used : q.used = true
      · simp [mergedRight, used, free]
      · have unused : q.used = false := by simpa using used
        simp [mergedRight, unused, free]

/-- Releasing a free block keeps all used blocks. -/
theorem Cont.release_used (free : b.used = false) :
    (c.release before b after).blks.filter Blk.used = before.filter Blk.used ++ after.filter Blk.used := by
  obtain ⟨left, leftFree⟩ := @mergedLeft_used before b free
  obtain ⟨rightFree, right⟩ := @mergedRight_used after (mergedLeft before b).2 leftFree
  simp only [Cont.release]
  rw [List.filter_append, List.filter_cons_of_neg (by simp [rightFree]), left, right]

end

section
variable {σ : Type} {source : HeapPages σ} {kheap kheap' : Kheap σ} {cs xs ys : List Cont}

/-- A call of `kmalloc` takes a block from the heap list, or from a new container in front of it. -/
structure Allocated (source : HeapPages σ) (kheap : Kheap σ) (cs : List Cont) (n : Nat) (ptr : Nat)
    (kheap' : Kheap σ) (cs' : List Cont) : Prop where
  holds : kheap'.Holds source cs'
  spares : Spares cs kheap.mem kheap'.mem
  taken : ∃ xs c ys before b after, c.blks = before ++ b :: after ∧ b.Serves n ∧ ptr = b.header + 40 ∧
    cs' = xs ++ c.take before b after n :: ys ∧
    (cs = xs ++ c :: ys ∧ kheap'.env = kheap.env ∨
      xs = [] ∧ ys = cs ∧ ∃ va pages bytes, c = freshCont va pages ∧ 5 ≤ pages ∧
        source.vmmAllocBetween pages kheap.env = .ok (va, bytes, kheap'.env))

/-- A block of a container can be taken in place. -/
theorem Kheap.Holds.serve {c : Cont} {before after : List Blk} {b : Blk} {n : Nat}
    (holds : kheap.Holds source (xs ++ c :: ys)) (split : c.blks = before ++ b :: after) (serves : b.Serves n) :
    Kheap.Holds source { kheap with mem := foundBlock b.header n kheap.mem }
      (xs ++ c.take before b after n :: ys) ∧
    Spares (xs ++ c :: ys) kheap.mem (foundBlock b.header n kheap.mem) := by
  have becomes := (holds.holds c (by simp)).take_becomes (holds.fits c (by simp)) split serves
  have range := c.take_range before b after n
  exact holds.replace becomes range.1 range.2

theorem Cont.Fits.pointer {c : Cont} (fits : c.Fits) {b : Blk} (listed : b ∈ c.blks) :
    blockData b.header = b.header + 40 ∧ b.header ≠ NULL := by
  have place := fits.inside b listed
  have bounded := fits.bounded
  unfold Blk.stop at place
  constructor
  · exact Nat.mod_eq_of_lt (by unfold sizeofBlock; omega)
  · unfold NULL
    omega

/-- A call of `kmalloc` that returns has taken a block, or has found no pages. -/
theorem kmalloc_spec (holds : kheap.Holds source cs) {n ptr : Nat}
    (returned : kmalloc source n kheap = .ok (ptr, kheap')) :
    (ptr = NULL ∧ kheap'.Holds source cs ∧ kheap'.mem = kheap.mem ∧
      ∃ pages bytes, source.vmmAllocBetween pages kheap.env = .ok (NULL, bytes, kheap'.env)) ∨
    ptr ≠ NULL ∧ ∃ cs', Allocated source kheap cs n ptr kheap' cs' := by
  obtain ⟨⟨first, mem1⟩, searched, continued⟩ := Outcome.bind_eq_ok.mp returned
  rw [holds.heap] at searched
  rcases @kmallocSearch_spec [] cs _ _ n walkLimit holds.list holds.length_lt with
    ⟨none, -⟩ | ⟨b, mem', cs', served, nonnull, found⟩
  · obtain ⟨rfl, rfl⟩ : NULL = first ∧ kheap.mem = mem1 := by simpa [none] using searched
    obtain ⟨⟨va, grown⟩, created, rest⟩ := Outcome.bind_eq_ok.mp continued
    obtain ⟨⟨bytes, obtained⟩, failed, linked⟩ := holds.create created
    by_cases null : va = NULL
    · obtain ⟨rfl, rfl⟩ : NULL = ptr ∧ grown = kheap' := by simpa [null] using rest
      obtain ⟨kept, same⟩ := failed null
      exact Or.inl ⟨rfl, kept, same, _, bytes, null ▸ obtained⟩
    · obtain ⟨fresh, spares⟩ := linked null
      have fits := fresh.fits _ List.mem_cons_self
      have here := fresh.holds _ List.mem_cons_self
      dsimp only at rest
      rw [if_neg null] at rest
      rcases tryAllocBlock_spec here fits n with
        ⟨failure, -⟩ | ⟨before, b, after, split, serves, -, success⟩
      · rw [show (freshCont va (max kheapMinAllocInPages _)).addr = va from rfl] at failure
        rw [failure] at rest
        cases rest
      · rw [show (freshCont va (max kheapMinAllocInPages _)).addr = va from rfl] at success
        obtain ⟨data, nonnull⟩ := fits.pointer (by simp [split] : b ∈ _)
        rw [success] at rest
        obtain ⟨rfl, rfl⟩ : blockData b.header = ptr ∧
            { grown with mem := foundBlock b.header n grown.mem } = kheap' := by
          simpa [bind, Except.bind, nonnull] using rest
        have fresh' : grown.Holds source ([] ++ freshCont va _ :: cs) := fresh
        obtain ⟨taken, spares'⟩ := fresh'.serve split serves
        right
        refine ⟨?_, _, taken, ?_, [], _, cs, before, b, after, split, serves, data, rfl,
          Or.inr ⟨rfl, rfl, va, _, bytes, rfl, le_max_left _ _, obtained⟩⟩
        · rw [data]
          exact Nat.succ_ne_zero _
        · intro c member d listed used addr low high
          have later := spares' c (List.mem_cons_of_mem _ member) d listed used addr low high
          exact later.trans (spares c member d listed used addr low high)
  · obtain ⟨serves, ⟨xs, c, ys, before, after, shape, split, rfl⟩, rfl⟩ := served
    have shape' : cs = xs ++ c :: ys := shape
    subst shape'
    obtain ⟨data, -⟩ := (holds.fits c (by simp)).pointer (by simp [split] : b ∈ c.blks)
    obtain ⟨rfl, rfl⟩ : b.header = first ∧ foundBlock b.header n kheap.mem = mem1 := by
      simpa [found] using searched
    obtain ⟨rfl, rfl⟩ : blockData b.header = ptr ∧
        { kheap with mem := foundBlock b.header n kheap.mem } = kheap' := by
      simpa [nonnull] using continued
    obtain ⟨taken, spares⟩ := holds.serve split serves
    right
    refine ⟨?_, _, taken, spares, xs, c, ys, before, b, after, split, serves, data, rfl, Or.inl ⟨rfl, rfl⟩⟩
    rw [data]
    exact Nat.succ_ne_zero _

/-- Storing the cleared mark and the smaller count marks the block as free. -/
theorem Cont.Holds.unmark_becomes {c : Cont} {mem : Memory} {before after : List Blk} {b : Blk}
    (holds : c.Holds mem) (fits : c.Fits) (split : c.blks = before ++ b :: after) (used : b.used = true) :
    c.Becomes (c.mark before b after false) mem (markBlock b.header c.addr (c.usedCount - 1) 0 mem) := by
  have around := fits.around split
  have page := fits.aligned
  have bounded := fits.bounded
  have low := around.low
  have high := around.high
  have place := around.aligned
  have counted := Cont.usedCount_unmark split used
  have few := fits.usedCount_lt
  unfold Blk.stop at high
  have count : c.usedCount - 1 = (c.mark before b after false).usedCount := by omega
  refine ⟨fits.mark split false, holds.mark fits split false count (by omega), ?_⟩
  have agrees : Agrees [c.addr + 8, b.header + 8] mem (markBlock b.header c.addr (c.usedCount - 1) 0 mem) :=
    ((Agrees.refl mem).storeU8 ⟨by omega, by omega⟩).storeU64 ⟨by omega, by omega⟩
  apply fits.touches agrees
  intro word member
  simp only [List.mem_cons, List.not_mem_nil, or_false] at member
  right
  refine ⟨by omega, by omega, by omega, ?_⟩
  intro d listed _
  have away := fits.inside d listed
  rcases member with rfl | rfl
  · omega
  · exact fits.header_word (by simp [split] : b ∈ c.blks) listed (by omega) (by omega)

/-- The code of `kfree` clears the mark, and then removes the container or merges the block. -/
theorem kfree_eq {c : Cont} {before after : List Blk} {b : Blk} (holds : kheap.Holds source (xs ++ c :: ys))
    (split : c.blks = before ++ b :: after) (used : b.used = true) :
    kfree source (b.header + 40) kheap =
      if c.usedCount = 1 then
        removeContainer source c.addr
          { kheap with mem := markBlock b.header c.addr (c.usedCount - 1) 0 kheap.mem }
      else .ok ⟨kheap.heap, freeBlock b.header (b.size + 40)
        (markBlock b.header c.addr (c.usedCount - 1) 0 kheap.mem), kheap.env⟩ := by
  have fits := holds.fits c (by simp)
  have here := holds.holds c (by simp)
  have data := here.data b (by simp [split])
  have around := fits.around split
  have page := fits.aligned
  have bounded := fits.bounded
  have low := around.low
  have high := around.high
  have place := around.aligned
  have counted := Cont.usedCount_unmark split used
  have few := fits.usedCount_lt
  unfold Blk.stop at high
  have small : c.usedCount - 1 < 2 ^ 64 := by omega
  have last : c.usedCount - 1 = 0 ↔ c.usedCount = 1 := by omega
  have header : dataBlock (b.header + 40) = b.header := by
    unfold dataBlock sizeofBlock
    rw [subU64_eq (by omega) (by omega)]
    omega
  have owner : loadU64 (storeU8 (b.header + 8) 0 kheap.mem) (b.header + 32) = c.addr := by
    rw [loadU64_storeU8_ne (by omega) (by omega) (by omega) (by omega) (by omega)]
    exact data.container
  have count : loadU64 (storeU8 (b.header + 8) 0 kheap.mem) (c.addr + 8) = c.usedCount := by
    rw [loadU64_storeU8_ne (by omega) (by omega) (by omega) (by omega) (by omega)]
    exact here.used
  have less : subU64 c.usedCount 1 = c.usedCount - 1 := subU64_eq (by omega) (by omega)
  have total : u64 (loadU64 kheap.mem b.header + sizeofBlock) = b.size + 40 := by
    rw [data.size]
    exact Nat.mod_eq_of_lt (by unfold sizeofBlock; omega)
  have counter : loadU64 (markBlock b.header c.addr (c.usedCount - 1) 0 kheap.mem) (c.addr + 8) =
      c.usedCount - 1 := loadU64_storeU64 small
  unfold kfree
  rw [header]
  extract_lets start total' mem0 container mem1
  have totalEq : total' = b.size + 40 := total
  have memEq : mem1 = markBlock b.header c.addr (c.usedCount - 1) 0 kheap.mem := by
    have containerEq : container = c.addr := owner
    have counts : loadU64 mem0 (containerUsedBlocks container) = c.usedCount := by
      rw [containerEq]
      exact count
    simp only [mem1]
    rw [counts, containerEq, less]
    rfl
  have containerEq : container = c.addr := owner
  have startEq : start = b.header := rfl
  clear_value mem1 total' container start
  subst totalEq memEq containerEq startEq
  rw [containerUsedBlocks, counter]
  by_cases one : c.usedCount = 1
  · rw [if_pos (last.mpr one), if_pos one]
  · rw [if_neg fun zero => one (last.mp zero), if_neg one]
    unfold freeBlock
    generalize mergePrev b.header (b.size + 40) _ = merged
    rcases merged with ⟨kept, mem'⟩
    rfl

/-- Freeing the last used block of a container returns its pages. -/
theorem kfree_last {c : Cont} {before after : List Blk} {b : Blk} (holds : kheap.Holds source (xs ++ c :: ys))
    (split : c.blks = before ++ b :: after) (used : b.used = true) (last : c.usedCount = 1) :
    ∃ kheap', kfree source (b.header + 40) kheap = .ok kheap' ∧
      source.vmmFree c.addr c.pages kheap.env = .ok kheap'.env ∧ kheap'.Holds source (xs ++ ys) ∧
      Spares (xs ++ ys) kheap.mem kheap'.mem := by
  have becomes := (holds.holds c (by simp)).unmark_becomes (holds.fits c (by simp)) split used
  obtain ⟨marked, first⟩ := holds.replace becomes rfl rfl
  obtain ⟨kheap', removed, freed, kept, second⟩ := marked.remove
  refine ⟨kheap', ?_, freed, kept, ?_⟩
  · rw [kfree_eq holds split used, if_pos last]
    exact removed
  · intro d member e listed usedE addr low high
    rw [second d member e listed usedE addr low high]
    apply first d _ e listed usedE addr low high
    simp only [List.mem_append, List.mem_cons] at member ⊢
    tauto

/-- Freeing another block merges it into its container, unless that leaves a stale link. -/
theorem kfree_merge {c : Cont} {before after : List Blk} {b : Blk} (holds : kheap.Holds source (xs ++ c :: ys))
    (split : c.blks = before ++ b :: after) (used : b.used = true) (more : c.usedCount ≠ 1)
    (safe : ¬LeavesStale before after) :
    ∃ kheap', kfree source (b.header + 40) kheap = .ok kheap' ∧ kheap'.env = kheap.env ∧
      kheap'.Holds source
        (xs ++ (c.mark before b after false).release before { b with used := false } after :: ys) ∧
      Spares (xs ++ (c.mark before b after false).release before { b with used := false } after :: ys)
        kheap.mem kheap'.mem := by
  have becomes := (holds.holds c (by simp)).unmark_becomes (holds.fits c (by simp)) split used
  obtain ⟨marked, first⟩ := holds.replace becomes rfl rfl
  have released := becomes.holds.release becomes.fits rfl rfl safe
  obtain ⟨kept, second⟩ := marked.replace released rfl rfl
  refine ⟨⟨kheap.heap, freeBlock b.header (b.size + 40) (markBlock b.header c.addr (c.usedCount - 1) 0 kheap.mem),
    kheap.env⟩, ?_, rfl, kept, ?_⟩
  · rw [kfree_eq holds split used, if_neg more]
  · rw [spares_iff] at first second ⊢
    obtain ⟨usedBefore, usedMarked⟩ := Cont.mark_used split used
    have usedAfter := @Cont.release_used (c.mark before b after false) before after { b with used := false } rfl
    rw [usedBlks_append, usedMarked] at second
    rw [usedBlks_append, usedBefore] at first
    rw [usedBlks_append, usedAfter]
    intro d member addr low high
    apply (second d member addr low high).trans
    apply first d _ addr low high
    simp only [List.mem_append, List.mem_cons] at member ⊢
    tauto

/-- The used blocks after an allocation are those before it and the taken one. -/
theorem Allocated.used {n ptr : Nat} {cs' : List Cont} (allocated : Allocated source kheap cs n ptr kheap' cs') :
    ∃ first taken second, usedBlks cs = first ++ second ∧ usedBlks cs' = first ++ taken :: second ∧
      taken.header + 40 = ptr ∧ n ≤ taken.size := by
  obtain ⟨xs, c, ys, before, b, after, split, serves, rfl, rfl, origin⟩ := allocated.taken
  obtain ⟨usedBefore, taken, header, large, -, usedAfter⟩ := Cont.take_used split serves
  refine ⟨usedBlks xs ++ before.filter Blk.used, taken, after.filter Blk.used ++ usedBlks ys, ?_, ?_, ?_, large⟩
  · rcases origin with ⟨rfl, -⟩ | ⟨rfl, rfl, va, pages, bytes, rfl, -, -⟩
    · rw [usedBlks_append, usedBefore]
      simp
    · have none : (freshCont va pages).blks.filter Blk.used = [] := rfl
      rw [none] at usedBefore
      obtain ⟨left, right⟩ := List.append_eq_nil_iff.mp usedBefore.symm
      simp [left, right, usedBlks]
  · rw [usedBlks_append, usedAfter]
    simp
  · rw [header]

/-- A call of `kfree` returns the pages of the container of its block or merges the block. -/
structure Released (source : HeapPages σ) (kheap : Kheap σ) (cs : List Cont) (ptr : Nat) (kheap' : Kheap σ)
    (cs' : List Cont) : Prop where
  holds : kheap'.Holds source cs'
  spares : Spares cs' kheap.mem kheap'.mem
  freed : ∃ xs c ys before b after, cs = xs ++ c :: ys ∧ c.blks = before ++ b :: after ∧ b.used = true ∧
    ptr = b.header + 40 ∧
    (c.usedCount = 1 ∧ cs' = xs ++ ys ∧ source.vmmFree c.addr c.pages kheap.env = .ok kheap'.env ∨
      c.usedCount ≠ 1 ∧ kheap'.env = kheap.env ∧
        cs' = xs ++ (c.mark before b after false).release before { b with used := false } after :: ys)

/-- A call of `kfree` on a used block returns, unless it leaves a stale link. -/
theorem kfree_spec {c : Cont} {before after : List Blk} {b : Blk} (holds : kheap.Holds source (xs ++ c :: ys))
    (split : c.blks = before ++ b :: after) (used : b.used = true) (safe : ¬LeavesStale before after) :
    ∃ kheap' cs', kfree source (b.header + 40) kheap = .ok kheap' ∧
      Released source kheap (xs ++ c :: ys) (b.header + 40) kheap' cs' := by
  by_cases last : c.usedCount = 1
  · obtain ⟨kheap', returned, freed, kept, spares⟩ := kfree_last holds split used last
    exact ⟨kheap', xs ++ ys, returned, kept, spares, xs, c, ys, before, b, after, rfl, split, used, rfl,
      Or.inl ⟨last, rfl, freed⟩⟩
  · obtain ⟨kheap', returned, same, kept, spares⟩ := kfree_merge holds split used last safe
    exact ⟨kheap', _, returned, kept, spares, xs, c, ys, before, b, after, rfl, split, used, rfl,
      Or.inr ⟨last, same, rfl⟩⟩

/-- The used blocks after a free are those before it without the freed one. -/
theorem Released.used {ptr : Nat} {cs' : List Cont} (released : Released source kheap cs ptr kheap' cs') :
    ∃ first b second, usedBlks cs = first ++ b :: second ∧ usedBlks cs' = first ++ second ∧
      b.header + 40 = ptr := by
  obtain ⟨xs, c, ys, before, b, after, rfl, split, used, rfl, result⟩ := released.freed
  obtain ⟨usedBefore, -⟩ := Cont.mark_used split used
  refine ⟨usedBlks xs ++ before.filter Blk.used, b, after.filter Blk.used ++ usedBlks ys, ?_, ?_, rfl⟩
  · rw [usedBlks_append, usedBefore]
    simp
  · rcases result with ⟨last, rfl, -⟩ | ⟨-, -, rfl⟩
    · rw [Cont.usedCount, usedBefore, List.length_append, List.length_cons] at last
      have left : before.filter Blk.used = [] := List.eq_nil_of_length_eq_zero (by omega)
      have right : after.filter Blk.used = [] := List.eq_nil_of_length_eq_zero (by omega)
      simp [usedBlks, left, right]
    · have usedAfter := @Cont.release_used (c.mark before b after false) before after { b with used := false } rfl
      rw [usedBlks_append, usedAfter]
      simp

end

end B0s
