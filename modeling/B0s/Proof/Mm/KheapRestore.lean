import B0s.Proof.Mm.KheapServe

/-
This file proves when `kfree` undoes `kmalloc`.
-/

namespace B0s
open ByteMemory DoublyLinked

instance (b : Blk) (n : Nat) : Decidable (b.Serves n) := inferInstanceAs (Decidable (_ ∧ _))

/-- The block is the first one of the heap that can serve the request. -/
structure ServesFirst (xs : List Cont) (before : List Blk) (b : Blk) (n : Nat) : Prop where
  serves : b.Serves n
  containers : ∀ c ∈ xs, ∀ d ∈ c.blks, ¬d.Serves n
  blocks : ∀ d ∈ before, ¬d.Serves n

/-- A container can serve a request when the attempt to take a block from it returns one. -/
def Kheap.CanServe {σ : Type} (kheap : Kheap σ) (container n : Nat) : Prop :=
  ∃ b mem, tryAllocBlock container n kheap.mem = .ok (b, mem) ∧ b ≠ NULL

/-- A client allocates a block and frees it at once. -/
def mallocFree {σ : Type} (source : HeapPages σ) (n : Nat) (kheap : Kheap σ) : Outcome (Kheap σ) := do
  let (ptr, kheap) ← kmalloc source n kheap
  kfree source ptr kheap

def mallocFreeTimes {σ : Type} (source : HeapPages σ) (n : Nat) : Nat → Kheap σ → Outcome (Kheap σ)
  | 0, kheap => .ok kheap
  | times + 1, kheap => mallocFree source n kheap >>= mallocFreeTimes source n times

/-- A split block keeps its request, and the merge adds the rest without the slack in front of its header. -/
def Blk.returned (b : Blk) (n : Nat) : Blk :=
  if restHeaderEnd b.header n ≥ b.stop then b
  else { b with size := n + (b.stop - restHeaderEnd b.header n + 40) }

/-- The list after a block is taken and released. -/
def Cont.returned (c : Cont) (before : List Blk) (b : Blk) (after : List Blk) (n : Nat) : Cont :=
  { c with blks := before ++ b.returned n :: after }

section
variable {c : Cont} {mem : Memory} {before after : List Blk} {b : Blk} {n : Nat}

theorem Blk.returned_fields (b : Blk) (n : Nat) :
    (b.returned n).header = b.header ∧ (b.returned n).used = b.used := by
  unfold Blk.returned
  split_ifs <;> exact ⟨rfl, rfl⟩

/-- The slack in front of the header of the rest is lost. -/
theorem Blk.returned_size (serves : b.Serves n) (aligned : b.header % 16 = 8) :
    n ≤ (b.returned n).size ∧ (b.returned n).size ≤ b.size ∧
      ((b.returned n).size = b.size ↔ b.stop ≤ restHeaderEnd b.header n) := by
  have large := serves.2
  have stop : b.stop = b.header + 40 + b.size := rfl
  unfold Blk.returned restHeaderEnd at *
  split_ifs with full
  · exact ⟨large, le_rfl, iff_of_true rfl full⟩
  · dsimp only
    omega

theorem Cont.returned_self (split : c.blks = before ++ b :: after) (whole : b.stop ≤ restHeaderEnd b.header n) :
    c.returned before b after n = c := by
  rw [Cont.returned, Blk.returned, if_pos whole, ← split]

/-- An attempt takes the first block that can serve the request. -/
theorem tryAllocBlock_first (holds : c.Holds mem) (fits : c.Fits) (split : c.blks = before ++ b :: after)
    (serves : b.Serves n) (first : ∀ d ∈ before, ¬d.Serves n) :
    tryAllocBlock c.addr n mem = .ok (b.header, foundBlock b.header n mem) := by
  have found : ∀ {before after b}, c.blks = before ++ b :: after → b.Serves n → (∀ d ∈ before, ¬d.Serves n) →
      c.blks.find? (fun d => decide (d.Serves n)) = some b := by
    intro before after b split serves first
    exact List.find?_eq_some_iff_append.mpr ⟨by simpa using serves, before, after, split, by simpa using first⟩
  rcases tryAllocBlock_spec holds fits n with ⟨-, unfit⟩ | ⟨before', b', after', split', serves', first', taken⟩
  · exact absurd serves (unfit b (by simp [split]))
  · obtain rfl := Option.some.inj ((found split serves first).symm.trans (found split' serves' first'))
    exact taken

theorem canServe_iff {σ : Type} {kheap : Kheap σ} (holds : c.Holds kheap.mem) (fits : c.Fits) (n : Nat) :
    kheap.CanServe c.addr n ↔ ∃ d ∈ c.blks, d.Serves n := by
  unfold Kheap.CanServe
  rcases tryAllocBlock_spec holds fits n with ⟨none, unfit⟩ | ⟨before, b, after, split, serves, -, taken⟩
  · refine iff_of_false ?_ fun ⟨d, listed, serves⟩ => unfit d listed serves
    rintro ⟨b, mem', taken, nonnull⟩
    rw [none] at taken
    exact nonnull (Prod.mk.inj (Except.ok.inj taken)).1.symm
  · refine iff_of_true ⟨_, _, taken, ?_⟩ ⟨b, by simp [split], serves⟩
    exact (fits.pointer (by simp [split] : b ∈ c.blks)).2

/-- Taking a free block of a merged list and releasing it merges the rest back. -/
theorem Cont.release_take (merged : Merged c.blks) (split : c.blks = before ++ b :: after) (free : b.used = false) :
    ∃ taken behind, (c.take before b after n).blks = before ++ taken :: behind ∧ taken.header = b.header ∧
      taken.used = true ∧ ¬LeavesStale before behind ∧
      ((c.take before b after n).mark before taken behind false).release before { taken with used := false } behind =
        c.returned before b after n := by
  rw [split] at merged
  obtain ⟨-, back, front⟩ := List.isChain_append.mp merged
  obtain ⟨seam, -⟩ := List.isChain_cons.mp back
  have lastUsed : ∀ p, before.getLast? = some p → p.used = true := fun p last =>
    (front p last b rfl).resolve_right (by simp [free])
  have headUsed : ∀ q, after.head? = some q → q.used = true := fun q head =>
    (seam q head).resolve_left (by simp [free])
  have safe : ∀ behind, ¬LeavesStale before behind := by
    rintro behind ⟨bs, p, q, as, rfl, unused, -, -⟩
    rw [lastUsed p (by simp)] at unused
    cases unused
  have left : ∀ d, mergedLeft before d = (before, d) := by
    intro d
    unfold mergedLeft
    cases last : before.getLast? with
    | none => rfl
    | some p => simp [lastUsed p last]
  unfold Cont.take Cont.returned Blk.returned
  split_ifs with full
  · refine ⟨{ b with used := true }, after, rfl, rfl, rfl, safe _, ?_⟩
    have right : mergedRight b after = (b, after) := by
      cases after with
      | nil => rfl
      | cons q rest => simp [mergedRight, headUsed q rfl]
    have same : { b with used := false } = b := by
      rw [← free]
    simp only [Cont.release, left, right, Cont.mark, same]
  · refine ⟨{ b with used := true, size := n }, _, rfl, rfl, rfl, safe _, ?_⟩
    simp [Cont.release, left, mergedRight, Cont.mark, Cont.split, free]

end

section
variable {σ : Type} {source : HeapPages σ} {kheap : Kheap σ} {xs ys zs : List Cont} {c : Cont}
variable {before after : List Blk} {b : Blk} {n : Nat}

/-- The walk passes the containers that cannot serve the request. -/
theorem kmallocSearch_first {steps : Nat} (holds : kheap.Holds source (ys ++ xs ++ c :: zs))
    (split : c.blks = before ++ b :: after) (first : ServesFirst xs before b n) (enough : xs.length < steps) :
    kmallocSearch n steps (headAddr (xs ++ c :: zs)) kheap.mem =
      .ok (b.header, foundBlock b.header n kheap.mem) := by
  induction xs generalizing ys steps with
  | nil =>
      obtain ⟨steps, rfl⟩ := Nat.exists_eq_succ_of_ne_zero (Nat.ne_of_gt enough)
      have fits := holds.fits c (by simp)
      have nonnull : c.addr ≠ NULL := fits.nonnull
      have head : headAddr ([] ++ c :: zs) = c.addr := rfl
      have nonnullB := (fits.pointer (by simp [split] : b ∈ c.blks)).2
      rw [head, kmallocSearch, if_neg nonnull, tryAllocBlock_first (holds.holds c (by simp)) fits split first.serves
        first.blocks]
      simp [bind, Except.bind, nonnullB]
  | cons d xs ih =>
      obtain ⟨steps, rfl⟩ := Nat.exists_eq_succ_of_ne_zero (Nat.ne_of_gt (Nat.zero_lt_of_lt enough))
      have fits := holds.fits d (by simp)
      have nonnull : d.addr ≠ NULL := fits.nonnull
      have head : headAddr (d :: xs ++ c :: zs) = d.addr := rfl
      have later : kheap.Holds source ((ys ++ [d]) ++ xs ++ c :: zs) := by simpa using holds
      have whole : kheap.Holds source (ys ++ d :: (xs ++ c :: zs)) := by simpa using holds
      have next : loadU64 kheap.mem (containerNext d.addr) = headAddr (xs ++ c :: zs) := whole.next_eq
      rcases tryAllocBlock_spec (holds.holds d (by simp)) fits n with ⟨none, -⟩ | ⟨_, e, _, shape, serves, -⟩
      · have found := ih later ⟨first.serves, fun e member => first.containers e (List.mem_cons_of_mem _ member),
          first.blocks⟩ (Nat.lt_of_succ_lt_succ enough)
        rw [head, kmallocSearch, if_neg nonnull, none]
        simpa [bind, Except.bind, next] using found
      · exact absurd serves (first.containers d List.mem_cons_self e (by simp [shape]))

/-- A call of `kmalloc` takes the first block that can serve the request. -/
theorem kmalloc_first (holds : kheap.Holds source (xs ++ c :: zs)) (split : c.blks = before ++ b :: after)
    (first : ServesFirst xs before b n) :
    kmalloc source n kheap = .ok (b.header + 40, { kheap with mem := foundBlock b.header n kheap.mem }) := by
  have whole : kheap.Holds source ([] ++ xs ++ c :: zs) := holds
  have few := holds.length_lt
  rw [List.length_append] at few
  obtain ⟨data, nonnull⟩ := (holds.fits c (by simp)).pointer (by simp [split] : b ∈ c.blks)
  rw [kmalloc, holds.heap, kmallocSearch_first whole split first (by omega : _ < walkLimit)]
  simp [bind, Except.bind, nonnull, data]

/-- A client that frees what it took finds the block without the lost slack. -/
theorem Kheap.WellFormed.mallocFree (wellFormed : kheap.WellFormed source (xs ++ c :: zs))
    (split : c.blks = before ++ b :: after) (first : ServesFirst xs before b n) (live : 1 ≤ c.usedCount) :
    ∃ kheap', mallocFree source n kheap = .ok kheap' ∧
      kheap'.WellFormed source (xs ++ c.returned before b after n :: zs) := by
  have merged := wellFormed.merged c (by simp)
  have free := first.serves.1
  obtain ⟨served, -⟩ := wellFormed.holds.serve split first.serves
  obtain ⟨taken, behind, split', named, used, safe, list⟩ := @Cont.release_take c before after b n merged split free
  have more : (c.take before b after n).usedCount ≠ 1 := by
    obtain ⟨usedBefore, taken, -, -, -, usedAfter⟩ := Cont.take_used split first.serves
    rw [Cont.usedCount, usedBefore, List.length_append] at live
    rw [Cont.usedCount, usedAfter, List.length_append, List.length_cons]
    omega
  obtain ⟨kheap', freed, -, kept, -⟩ := kfree_merge served split' used more safe
  rw [list] at kept
  refine ⟨kheap', ?_, kept, ?_⟩
  · rw [named] at freed
    exact Outcome.bind_eq_ok.mpr ⟨_, kmalloc_first wellFormed.holds split first, freed⟩
  · intro d member
    have others : d ∈ xs ∨ d ∈ zs → Merged d.blks := by
      intro inside
      apply wellFormed.merged d
      simp only [List.mem_append, List.mem_cons]
      tauto
    rw [List.mem_append, List.mem_cons] at member
    rcases member with earlier | rfl | later
    · exact others (Or.inl earlier)
    · have takenMerged := @Cont.take_merged c before after b n merged split free
      rw [split'] at takenMerged
      obtain ⟨front, back, -⟩ := List.isChain_append.mp takenMerged
      rw [← list]
      exact Cont.release_merged _ front (List.isChain_cons.mp back).2
    · exact others (Or.inr later)

/-- Any number of rounds on a block that is not split keeps the list. -/
theorem Kheap.WellFormed.mallocFreeTimes (wellFormed : kheap.WellFormed source (xs ++ c :: zs))
    (split : c.blks = before ++ b :: after) (first : ServesFirst xs before b n) (live : 1 ≤ c.usedCount)
    (whole : b.stop ≤ restHeaderEnd b.header n) (times : Nat) :
    ∃ kheap', mallocFreeTimes source n times kheap = .ok kheap' ∧ kheap'.WellFormed source (xs ++ c :: zs) := by
  induction times generalizing kheap with
  | zero => exact ⟨kheap, rfl, wellFormed⟩
  | succ times ih =>
      obtain ⟨middle, done, kept⟩ := wellFormed.mallocFree split first live
      rw [Cont.returned_self split whole] at kept
      obtain ⟨kheap', later, wellFormed'⟩ := ih kept
      exact ⟨kheap', Outcome.bind_eq_ok.mpr ⟨middle, done, later⟩, wellFormed'⟩

/-- A request served by a container with another live allocation is undone by its free, and repeating this
never shrinks the largest request, if and only if the block that serves it is not split. -/
theorem mallocFree_restores_iff (wellFormed : kheap.WellFormed source (xs ++ c :: zs))
    (split : c.blks = before ++ b :: after) (first : ServesFirst xs before b n) (live : 1 ≤ c.usedCount) :
    ((∃ kheap', mallocFree source n kheap = .ok kheap' ∧ c.Holds kheap'.mem) ∧
      ∀ times, ∃ kheap', mallocFreeTimes source n times kheap = .ok kheap' ∧
        ∀ request, kheap.CanServe c.addr request → kheap'.CanServe c.addr request) ↔
      b.stop ≤ restHeaderEnd b.header n := by
  have fits := wellFormed.holds.fits c (by simp)
  have aligned := (fits.around split).aligned
  obtain ⟨-, -, kept⟩ := Blk.returned_size first.serves aligned
  constructor
  · rintro ⟨⟨kheap', done, restored⟩, -⟩
    obtain ⟨final, done', wellFormed'⟩ := wellFormed.mallocFree split first live
    obtain rfl := Except.ok.inj (done.symm.trans done')
    have data := (wellFormed'.holds.holds (c.returned before b after n) (by simp)).data (b.returned n)
      (by simp [Cont.returned])
    have before := (restored.data b (by simp [split])).size
    have after := data.size
    rw [(b.returned_fields n).1, before] at after
    exact kept.mp after.symm
  · intro whole
    constructor
    · obtain ⟨kheap', done, wellFormed'⟩ := wellFormed.mallocFree split first live
      rw [Cont.returned_self split whole] at wellFormed'
      exact ⟨kheap', done, wellFormed'.holds.holds c (by simp)⟩
    · intro times
      obtain ⟨kheap', done, wellFormed'⟩ := wellFormed.mallocFreeTimes split first live whole times
      refine ⟨kheap', done, ?_⟩
      intro request
      rw [canServe_iff (wellFormed.holds.holds c (by simp)) fits,
        canServe_iff (wellFormed'.holds.holds c (by simp)) fits]
      exact id

end

theorem threeBlocks_first {n : Nat} (small : n ≤ 20208) :
    ServesFirst [] [⟨kernelHeapStart + 40, 8, true⟩, ⟨kernelHeapStart + 104, 8, true⟩,
      ⟨kernelHeapStart + 168, 8, true⟩] ⟨kernelHeapStart + 232, 20208, false⟩ n :=
  ⟨⟨rfl, small⟩, by simp, by simp [Blk.Serves]⟩

/-- The request for the whole free block behind three blocks is undone. -/
theorem mallocFree_restores_iff_whole : ∃ kheap : Kheap (List (Nat × Nat)),
    kheap.WellFormed firstFit [threeBlocks true] ∧
    (∃ kheap', mallocFree firstFit 20208 kheap = .ok kheap' ∧ (threeBlocks true).Holds kheap'.mem) ∧
      ∀ times, ∃ kheap', mallocFreeTimes firstFit 20208 times kheap = .ok kheap' ∧
        ∀ request, kheap.CanServe kernelHeapStart request → kheap'.CanServe kernelHeapStart request := by
  obtain ⟨kheap, holds⟩ := threeBlocks_holds
  have wellFormed : kheap.WellFormed firstFit ([] ++ threeBlocks true :: []) := ⟨holds, threeBlocks_merged true⟩
  exact ⟨kheap, wellFormed,
    (mallocFree_restores_iff wellFormed rfl (threeBlocks_first le_rfl) (by decide)).mpr (by decide)⟩

/-- A request for eight bytes behind three blocks loses sixteen bytes when it is freed. -/
theorem mallocFree_shrinks : ∃ kheap kheap' : Kheap (List (Nat × Nat)),
    kheap.WellFormed firstFit [threeBlocks true] ∧ mallocFree firstFit 8 kheap = .ok kheap' ∧
      ¬(threeBlocks true).Holds kheap'.mem ∧ mallocFreeTimes firstFit 8 1 kheap = .ok kheap' ∧
      kheap.CanServe kernelHeapStart 20208 ∧ ¬kheap'.CanServe kernelHeapStart 20208 := by
  obtain ⟨kheap, holds⟩ := threeBlocks_holds
  have wellFormed : kheap.WellFormed firstFit ([] ++ threeBlocks true :: []) := ⟨holds, threeBlocks_merged true⟩
  obtain ⟨kheap', done, wellFormed'⟩ := wellFormed.mallocFree rfl (threeBlocks_first (by decide : 8 ≤ 20208)) (by decide)
  have shrunk := wellFormed'.holds.holds _ (List.mem_singleton_self _)
  have fits' := wellFormed'.holds.fits _ (List.mem_singleton_self _)
  have size := (shrunk.data ⟨kernelHeapStart + 232, 20192, false⟩ (by decide)).size
  refine ⟨kheap, kheap', wellFormed, done, ?_, ?_, ?_, ?_⟩
  · intro restored
    have same := (restored.data ⟨kernelHeapStart + 232, 20208, false⟩ (by decide)).size
    have differ : (20192 : Nat) = 20208 := size.symm.trans same
    exact absurd differ (by decide)
  · exact Outcome.bind_eq_ok.mpr ⟨kheap', done, rfl⟩
  · exact (canServe_iff (holds.holds _ (List.mem_singleton_self _)) (holds.fits _ (List.mem_singleton_self _)) _).mpr
      ⟨⟨kernelHeapStart + 232, 20208, false⟩, by decide, by decide⟩
  · intro serves
    have fewer := (canServe_iff shrunk fits' 20208).mp serves
    revert fewer
    decide

end B0s
