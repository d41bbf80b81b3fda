import B0s.Proof.Mm.KheapRun

/-
This file counts the pages and the live allocations of the containers along runs of the heap.
-/

namespace B0s
open ByteMemory DoublyLinked Runs

/-- This page source counts the pages that it handed out and the pages that were freed. -/
def HeapPages.counted {σ : Type} (source : HeapPages σ) : HeapPages (σ × Nat × Nat) where
  ranges env := source.ranges env.1
  vmmAllocBetween pages env := do
    let (va, bytes, inner) ← source.vmmAllocBetween pages env.1
    .ok (va, bytes, inner, if va = NULL then env.2.1 else env.2.1 + pages, env.2.2)
  vmmFree va pages env := do
    let inner ← source.vmmFree va pages env.1
    .ok (inner, env.2.1, env.2.2 + pages)
  alloc_null := by
    intro pages env bytes env' obtained
    obtain ⟨⟨va, bytes', inner⟩, inside, rest⟩ := Outcome.bind_eq_ok.mp obtained
    simp only [Except.ok.injEq, Prod.mk.injEq] at rest
    obtain ⟨rfl, rfl, rfl⟩ := rest
    exact source.alloc_null _ _ _ _ inside
  alloc_fresh := by
    intro pages env va bytes env' obtained nonnull
    obtain ⟨⟨va', bytes', inner⟩, inside, rest⟩ := Outcome.bind_eq_ok.mp obtained
    simp only [Except.ok.injEq, Prod.mk.injEq] at rest
    obtain ⟨rfl, rfl, rfl⟩ := rest
    exact source.alloc_fresh _ _ _ _ _ inside nonnull
  free_released := by
    intro va pages env member
    obtain ⟨inner, freed, ranges⟩ := source.free_released va pages env.1 member
    refine ⟨(inner, env.2.1, env.2.2 + pages), ?_, ranges⟩
    rw [freed]
    rfl

/-- The walk of the heap list visits its containers. -/
def containersFrom (mem : Memory) : Nat → Nat → List Nat
  | 0, _ => []
  | steps + 1, c => if c = NULL then [] else c :: containersFrom mem steps (loadU64 mem (containerNext c))

def Kheap.containers {σ : Type} (kheap : Kheap σ) : List Nat := containersFrom kheap.mem walkLimit kheap.heap

/-- The page count of a container, as `remove_container` computes it. -/
def Kheap.pageCount {σ : Type} (kheap : Kheap σ) (c : Nat) : Nat :=
  u64 (loadU64 kheap.mem (containerSizeInBytes c) + sizeofContainer) / pageSizeInBytes

/-- A pointer lies in a container. -/
def Kheap.Inside {σ : Type} (kheap : Kheap σ) (c ptr : Nat) : Prop :=
  c < ptr ∧ ptr ≤ c + kheap.pageCount c * pageSizeInBytes

instance {σ : Type} (kheap : Kheap σ) (c ptr : Nat) : Decidable (kheap.Inside c ptr) :=
  inferInstanceAs (Decidable (_ ∧ _))

/-- The pages and the used blocks add up, and only the first container may be without allocations. -/
structure HeapState.Accounted {σ : Type} (first : Nat) (state : HeapState (σ × Nat × Nat)) : Prop where
  pages : state.kheap.env.2.1 =
    state.kheap.env.2.2 + (state.kheap.containers.map state.kheap.pageCount).sum
  used : ∀ c ∈ state.kheap.containers, loadU64 state.kheap.mem (containerUsedBlocks c) =
    (state.live.filter fun entry => state.kheap.Inside c entry.1).length
  live : ∀ c ∈ state.kheap.containers, (∃ entry ∈ state.live, state.kheap.Inside c entry.1) ∨
    c = first ∧ ∀ ptr ∈ state.served, ¬state.kheap.Inside c ptr
  returned : state.live = [] → state.kheap.env.2.1 = state.kheap.env.2.2 ∨
    state.kheap.containers = [first] ∧ (∀ ptr ∈ state.served, ¬state.kheap.Inside first ptr) ∧
      state.kheap.env.2.1 = state.kheap.env.2.2 + state.kheap.pageCount first

/-- A container holds a used block, or it is the first one and no pointer was ever inside it. -/
def Cont.Serving (first : Nat) (served : List Nat) (c : Cont) : Prop :=
  0 < c.usedCount ∨ c.addr = first ∧ ∀ ptr ∈ served, ¬(c.addr < ptr ∧ ptr ≤ c.stop)

/-- The counters and the containers agree. -/
structure HeapState.Counts {σ : Type} (source : HeapPages σ) (first : Nat) (state : HeapState (σ × Nat × Nat))
    (cs : List Cont) : Prop where
  holds : state.Holds source.counted cs
  pages : state.kheap.env.2.1 = state.kheap.env.2.2 + (cs.map Cont.pages).sum
  serving : ∀ c ∈ cs, c.Serving first state.served

section
variable {σ : Type} {source : HeapPages σ} {kheap : Kheap σ} {cs xs ys : List Cont}

theorem containersFrom_eq (holds : kheap.Holds source (xs ++ ys)) {steps : Nat} (enough : ys.length < steps) :
    containersFrom kheap.mem steps (headAddr ys) = ys.map Cont.addr := by
  induction ys generalizing xs steps with
  | nil =>
      obtain ⟨steps, rfl⟩ := Nat.exists_eq_succ_of_ne_zero (Nat.ne_of_gt enough)
      rfl
  | cons c ys ih =>
      obtain ⟨steps, rfl⟩ := Nat.exists_eq_succ_of_ne_zero (Nat.ne_of_gt (Nat.zero_lt_of_lt enough))
      have nonnull : headAddr (c :: ys) ≠ NULL := (holds.fits c (by simp)).nonnull
      have next : loadU64 kheap.mem (containerNext (headAddr (c :: ys))) = headAddr ys := holds.next_eq
      have later : kheap.Holds source ((xs ++ [c]) ++ ys) := by
        rw [List.append_assoc]
        exact holds
      rw [List.length_cons] at enough
      rw [containersFrom, if_neg nonnull, next, ih later (by omega)]
      rfl

theorem Kheap.Holds.containers (holds : kheap.Holds source cs) : kheap.containers = cs.map Cont.addr := by
  have whole : kheap.Holds source ([] ++ cs) := holds
  rw [Kheap.containers, holds.heap]
  exact containersFrom_eq whole holds.length_lt

theorem Kheap.Holds.pageCount (holds : kheap.Holds source cs) {c : Cont} (member : c ∈ cs) :
    kheap.pageCount c.addr = c.pages := by
  have bounded := (holds.fits c member).bounded
  have size : loadU64 kheap.mem c.addr + sizeofContainer = c.pages * 4096 := (holds.holds c member).size
  have small : u64 (c.pages * 4096) = c.pages * 4096 := by
    unfold Cont.stop at bounded
    exact Nat.mod_eq_of_lt (by omega)
  rw [Kheap.pageCount, containerSizeInBytes, size, small]
  exact Nat.mul_div_cancel _ (by decide)

theorem Kheap.Holds.inside_iff (holds : kheap.Holds source cs) {c : Cont} (member : c ∈ cs) {ptr : Nat} :
    kheap.Inside c.addr ptr ↔ c.addr < ptr ∧ ptr ≤ c.stop := by
  rw [Kheap.Inside, holds.pageCount member]
  rfl

/-- A pointer of a used block lies in no other container. -/
theorem Kheap.Holds.pointer_inside (holds : kheap.Holds source cs) {c c' : Cont} (member : c ∈ cs) (member' : c' ∈ cs)
    {d : Blk} (listed : d ∈ c'.blks) : (c.addr < d.header + 40 ∧ d.header + 40 ≤ c.stop) ↔ c = c' := by
  have place := (holds.fits c' member').inside d listed
  unfold Blk.stop at place
  constructor
  · intro inside
    by_contra different
    have away := holds.apart_of_ne member member' different
    omega
  · rintro rfl
    omega

/-- The used blocks inside a container are its own. -/
theorem Kheap.Holds.used_inside {c : Cont} (holds : kheap.Holds source (xs ++ c :: ys)) :
    (usedBlks (xs ++ c :: ys)).filter (fun d => c.addr < d.header + 40 ∧ d.header + 40 ≤ c.stop) =
      c.blks.filter Blk.used := by
  have distinct := holds.distinct
  rw [List.map_append, List.map_cons, List.nodup_middle, List.nodup_cons, ← List.map_append] at distinct
  have other : ∀ c' ∈ xs ++ ys, c ≠ c' := by
    rintro c' member rfl
    exact distinct.1 (List.mem_map_of_mem member)
  have none : ∀ zs, (∀ c' ∈ zs, c' ∈ xs ++ ys) →
      (usedBlks zs).filter (fun d => c.addr < d.header + 40 ∧ d.header + 40 ≤ c.stop) = [] := by
    intro zs sub
    rw [List.filter_eq_nil_iff]
    intro d member
    obtain ⟨c', inside, listed, -⟩ := mem_usedBlks.mp member
    have outer : c' ∈ xs ++ c :: ys := by
      have part := sub c' inside
      simp only [List.mem_append, List.mem_cons] at part ⊢
      tauto
    have different := other c' (sub c' inside)
    have apart := (holds.pointer_inside (by simp : c ∈ xs ++ c :: ys) outer listed).not.mpr different
    simpa using apart
  rw [usedBlks_append, List.filter_append, List.filter_append, none xs (by simp +contextual),
    none ys (by simp +contextual)]
  rw [List.nil_append, List.append_nil, List.filter_eq_self]
  intro d member
  have whole := (holds.pointer_inside (by simp : c ∈ xs ++ c :: ys) (by simp : c ∈ xs ++ c :: ys)
    (List.mem_of_mem_filter member)).mpr rfl
  simpa using whole

end

section
variable {σ : Type} {source : HeapPages σ} {first : Nat} {state state' : HeapState (σ × Nat × Nat)} {cs : List Cont}

/-- The live allocations inside a container are as many as its used blocks. -/
theorem HeapState.Holds.live_inside {σ : Type} {source : HeapPages σ} {state : HeapState σ} {cs : List Cont} {c : Cont}
    (holds : state.Holds source cs) (member : c ∈ cs) :
    (state.live.filter fun entry => state.kheap.Inside c.addr entry.1).length = c.usedCount := by
  obtain ⟨xs, ys, rfl⟩ := List.append_of_mem member
  have heap := holds.heap
  have inside : ∀ ptr, decide (state.kheap.Inside c.addr ptr) = decide (c.addr < ptr ∧ ptr ≤ c.stop) := fun ptr =>
    decide_eq_decide.mpr (heap.inside_iff member)
  have pointers := (holds.pointers.filter fun ptr => decide (c.addr < ptr ∧ ptr ≤ c.stop)).length_eq
  rw [List.filter_map, List.length_map, List.filter_map, List.length_map] at pointers
  have own := congrArg List.length heap.used_inside
  simp only [inside]
  exact pointers.trans own

theorem HeapState.Counts.accounted (counts : state.Counts source first cs) : state.Accounted first := by
  have heap := counts.holds.heap
  have containers := heap.containers
  have sum : (state.kheap.containers.map state.kheap.pageCount).sum = (cs.map Cont.pages).sum := by
    rw [containers, List.map_map]
    congr 1
    exact List.map_congr_left fun c member => heap.pageCount member
  have live : ∀ c ∈ state.kheap.containers, (∃ entry ∈ state.live, state.kheap.Inside c entry.1) ∨
      c = first ∧ ∀ ptr ∈ state.served, ¬state.kheap.Inside c ptr := by
    intro addr listed
    rw [containers] at listed
    obtain ⟨c, member, rfl⟩ := List.mem_map.mp listed
    rcases counts.serving c member with used | ⟨here, never⟩
    · left
      rw [← counts.holds.live_inside member] at used
      obtain ⟨entry, found⟩ := List.exists_mem_of_length_pos used
      rw [List.mem_filter] at found
      exact ⟨entry, found.1, by simpa using found.2⟩
    · refine Or.inr ⟨here, ?_⟩
      intro ptr served inside
      exact never ptr served ((heap.inside_iff member).mp inside)
  refine ⟨?_, ?_, live, ?_⟩
  · rw [sum]
    exact counts.pages
  · intro addr listed
    rw [containers] at listed
    obtain ⟨c, member, rfl⟩ := List.mem_map.mp listed
    rw [counts.holds.live_inside member]
    exact (heap.holds c member).used
  · intro empty
    have only : ∀ c ∈ state.kheap.containers, c = first ∧ ∀ ptr ∈ state.served, ¬state.kheap.Inside c ptr := by
      intro c member
      rcases live c member with ⟨entry, found, -⟩ | here
      · rw [empty] at found
        cases found
      · exact here
    cases cs with
    | nil =>
        left
        simpa using counts.pages
    | cons c rest =>
        right
        have here := only c.addr (by simp [containers])
        have single : rest = [] := by
          cases rest with
          | nil => rfl
          | cons d more =>
              have there := only d.addr (by simp [containers])
              have distinct := heap.distinct
              simp [here.1, there.1] at distinct
        subst single
        refine ⟨by simp [containers, here.1], here.1 ▸ here.2, ?_⟩
        have total := counts.pages
        rw [← here.1, heap.pageCount (by simp)]
        simpa using total

theorem counted_alloc {pages va : Nat} {bytes : Memory} {env env' : σ × Nat × Nat}
    (obtained : source.counted.vmmAllocBetween pages env = .ok (va, bytes, env')) :
    env'.2.1 = (if va = NULL then env.2.1 else env.2.1 + pages) ∧ env'.2.2 = env.2.2 := by
  obtain ⟨⟨va', bytes', inner⟩, -, rest⟩ := Outcome.bind_eq_ok.mp obtained
  simp only [Except.ok.injEq, Prod.mk.injEq] at rest
  obtain ⟨rfl, -, rfl⟩ := rest
  exact ⟨rfl, rfl⟩

theorem counted_free {pages va : Nat} {env env' : σ × Nat × Nat}
    (freed : source.counted.vmmFree va pages env = .ok env') : env'.2.1 = env.2.1 ∧ env'.2.2 = env.2.2 + pages := by
  obtain ⟨inner, -, rest⟩ := Outcome.bind_eq_ok.mp freed
  obtain rfl := Except.ok.inj rest
  exact ⟨rfl, rfl⟩

/-- A pointer to a block of one container is in no other container of the list. -/
theorem Kheap.Holds.pointer_elsewhere {σ : Type} {source : HeapPages σ} {kheap : Kheap σ} {xs ys : List Cont} {c d : Cont}
    (holds : kheap.Holds source (xs ++ c :: ys)) (member : d ∈ xs ++ ys) {b : Blk} (listed : b ∈ c.blks) :
    ¬(d.addr < b.header + 40 ∧ b.header + 40 ≤ d.stop) := by
  have distinct := holds.distinct
  rw [List.map_append, List.map_cons, List.nodup_middle, List.nodup_cons, ← List.map_append] at distinct
  have outer : d ∈ xs ++ c :: ys := by
    simp only [List.mem_append, List.mem_cons] at member ⊢
    tauto
  rw [holds.pointer_inside outer (by simp : c ∈ xs ++ c :: ys) listed]
  rintro rfl
  exact distinct.1 (List.mem_map_of_mem member)

theorem HeapState.Counts.allocated (counts : state.Counts source first cs) {n ptr : Nat} {cs' : List Cont}
    (holds : state'.Holds source.counted cs')
    (allocated : Allocated source.counted state.kheap cs n ptr state'.kheap cs')
    (served : state'.served = ptr :: state.served) : state'.Counts source first cs' := by
  obtain ⟨xs, c, ys, before, b, after, split, serves, rfl, rfl, origin⟩ := allocated.taken
  obtain ⟨-, taken, header, -, used, usedAfter⟩ := Cont.take_used split serves
  have range := c.take_range before b after n
  have listed : taken ∈ (c.take before b after n).blks := by
    have member : taken ∈ (c.take before b after n).blks.filter Blk.used := by simp [usedAfter]
    exact List.mem_of_mem_filter member
  have before' : ∀ d ∈ xs ++ ys, d.Serving first state.served := by
    intro d member
    rcases origin with ⟨rfl, -⟩ | ⟨rfl, rfl, -⟩
    · apply counts.serving
      simp only [List.mem_append, List.mem_cons] at member ⊢
      tauto
    · exact counts.serving d member
  refine ⟨holds, ?_, ?_⟩
  · have total := counts.pages
    rcases origin with ⟨rfl, same⟩ | ⟨rfl, rfl, va, pages, bytes, rfl, -, obtained⟩
    · rw [same]
      simpa [range.2] using total
    · have counters := counted_alloc obtained
      have nonnull : va ≠ NULL := by
        have fits := holds.heap.fits ((freshCont va pages).take before b after n) (by simp)
        have nonnull := fits.nonnull
        rw [range.1] at nonnull
        exact nonnull
      have size : ((freshCont va pages).take before b after n).pages = pages := range.2
      rw [if_neg nonnull] at counters
      rw [counters.1, counters.2, total, List.nil_append, List.map_cons, List.sum_cons, size]
      omega
  · intro d member
    rw [served]
    have other : d ∈ xs ++ ys → d.Serving first ((b.header + 40) :: state.served) := by
      intro inside
      rcases before' d inside with busy | ⟨here, never⟩
      · exact Or.inl busy
      · refine Or.inr ⟨here, ?_⟩
        intro ptr listed'
        rcases List.mem_cons.mp listed' with rfl | older
        · rw [← header]
          exact holds.heap.pointer_elsewhere inside listed
        · exact never ptr older
    simp only [List.mem_append, List.mem_cons] at member other
    rcases member with earlier | rfl | later
    · exact other (Or.inl earlier)
    · left
      rw [Cont.usedCount, usedAfter]
      simp
    · exact other (Or.inr later)

theorem HeapState.Counts.released (counts : state.Counts source first cs) {ptr : Nat} {cs' : List Cont}
    (holds : state'.Holds source.counted cs')
    (released : Released source.counted state.kheap cs ptr state'.kheap cs')
    (served : state'.served = state.served) : state'.Counts source first cs' := by
  obtain ⟨xs, c, ys, before, b, after, rfl, split, used, rfl, result⟩ := released.freed
  have total := counts.pages
  have serving := counts.serving
  rcases result with ⟨last, rfl, freed⟩ | ⟨more, same, rfl⟩
  · have counters := counted_free freed
    refine ⟨holds, ?_, ?_⟩
    · rw [counters.1, counters.2, total]
      simp only [List.map_append, List.map_cons, List.sum_append, List.sum_cons]
      omega
    · intro d member
      rw [served]
      apply serving
      simp only [List.mem_append, List.mem_cons] at member ⊢
      tauto
  · refine ⟨holds, ?_, ?_⟩
    · rw [same]
      simpa [Cont.release, Cont.mark] using total
    · intro d member
      rw [served]
      simp only [List.mem_append, List.mem_cons] at member serving
      rcases member with earlier | rfl | later
      · exact serving d (Or.inl earlier)
      · left
        have usedBefore := (Cont.mark_used split used).1
        have usedAfter := @Cont.release_used (c.mark before b after false) before after { b with used := false } rfl
        rw [Cont.usedCount, usedBefore, List.length_append, List.length_cons] at more
        rw [Cont.usedCount, usedAfter, List.length_append]
        omega
      · exact serving d (Or.inr (Or.inr later))

/-- A call that the clients may make, and that leaves no stale link, keeps the counts. -/
theorem HeapState.Counts.step (counts : state.Counts source first cs) {call : HeapCall} (allowed : state.Allows call)
    (safe : state.Safe call) (steps : heapStep source.counted call state state') :
    ∃ cs', state'.Counts source first cs' := by
  cases call with
  | kmalloc n =>
      rcases counts.holds.kmalloc steps with ⟨kept, same, served, pages, bytes, failed⟩ | ⟨ptr, cs', kept, allocated, served⟩
      · have counters := counted_alloc failed
        rw [if_pos rfl] at counters
        refine ⟨cs, kept, ?_, ?_⟩
        · rw [counters.1, counters.2]
          exact counts.pages
        · rw [served]
          exact counts.serving
      · exact ⟨cs', counts.allocated kept allocated served⟩
  | kfree ptr =>
      obtain ⟨final, cs', returned, kept, released, served⟩ := counts.holds.kfree allowed safe
      obtain rfl : final = state' := Except.ok.inj (returned.symm.trans steps)
      exact ⟨cs', counts.released kept released served⟩
  | write addr byte =>
      obtain rfl : _ = state' := Except.ok.inj steps
      exact ⟨cs, counts.holds.write allowed, counts.pages, counts.serving⟩

/-- After `kheap_init`, every run that frees no block between a free block and a used block keeps the
pages and the used blocks of all containers accounted. -/
theorem heapRun_accounted {mem : Memory} {env : σ} {sizeInPages : Nat} {kheap : Kheap (σ × Nat × Nat)}
    (init : kheapInit source.counted sizeInPages ⟨NULL, mem, env, 0, 0⟩ = .ok kheap) {calls : List HeapCall}
    (along : Along (heapStep source.counted) (fun call state => state.Allows call ∧ state.Safe call) calls
      ⟨kheap, [], []⟩) {final : HeapState (σ × Nat × Nat)}
    (path : Path (heapStep source.counted) calls ⟨kheap, [], []⟩ final) : final.Accounted kheap.heap := by
  obtain ⟨va, pages, bytes, holds, nonnull, obtained⟩ := kheapInit_holds init
  have counters := counted_alloc obtained
  rw [if_neg nonnull] at counters
  have start : ∃ cs, HeapState.Counts source kheap.heap ⟨kheap, [], []⟩ cs := by
    refine ⟨[freshCont va pages], ⟨holds, List.Perm.refl _, by simp⟩, ?_, ?_⟩
    · dsimp only
      rw [counters.1, counters.2]
      simp [freshCont]
    · intro c member
      right
      obtain rfl := List.mem_singleton.mp member
      exact ⟨holds.heap.symm, by simp⟩
  have keeps : ∀ call state state', (∃ cs, HeapState.Counts source kheap.heap state cs) →
      state.Allows call ∧ state.Safe call → heapStep source.counted call state state' →
      ∃ cs, HeapState.Counts source kheap.heap state' cs := by
    rintro call state state' ⟨cs, counts⟩ ⟨allowed, safe⟩ steps
    exact counts.step allowed safe steps
  obtain ⟨cs, counts⟩ := Path.keeps keeps start along path
  exact counts.accounted

theorem counted_zeros (zeros : source.Zeros) : source.counted.Zeros := by
  intro pages env va bytes env' obtained
  obtain ⟨⟨va', bytes', inner⟩, inside, rest⟩ := Outcome.bind_eq_ok.mp obtained
  simp only [Except.ok.injEq, Prod.mk.injEq] at rest
  rw [← rest.2.1]
  exact zeros _ _ _ _ _ inside

/-- The first container is in the heap list, so its used blocks are counted. -/
theorem HeapState.Accounted.first_used (accounted : state.Accounted first) (nonnull : state.kheap.heap ≠ NULL) :
    loadU64 state.kheap.mem (containerUsedBlocks state.kheap.heap) ≤ state.live.length := by
  have member : state.kheap.heap ∈ state.kheap.containers := by
    have limit : walkLimit = (2 ^ 64 - 1) + 1 := by norm_num [walkLimit]
    rw [Kheap.containers, limit, containersFrom, if_neg nonnull]
    exact List.mem_cons_self
  rw [accounted.used _ member]
  exact List.length_filter_le _ _

end

/-- An allocation and its free meet the condition. -/
theorem heapRun_accounted_firstFit : ∃ kheap final,
    kheapInit firstFit.counted 1 ⟨NULL, fun _ => 0, [], 0, 0⟩ = .ok kheap ∧
    Path (heapStep firstFit.counted) [.kmalloc 8, .kfree (kernelHeapStart + 80)] ⟨kheap, [], []⟩ final ∧
      final.Accounted kheap.heap := by
  have zeros := counted_zeros firstFit_zeros
  obtain ⟨kheap, init, shows⟩ := @wordStart_shows _ firstFit.counted zeros ([], 0, 0) (by decide +kernel)
  have along := @WordState.Show.safely _ _ _ _ shows zeros
    [.kmalloc 8, .kfree (kernelHeapStart + 80)] (by decide +kernel)
  obtain ⟨final, path⟩ := @WordState.Show.reaches _ _ _ _ shows zeros
    [.kmalloc 8, .kfree (kernelHeapStart + 80)] (by decide +kernel)
  exact ⟨kheap, final, init, path, heapRun_accounted init along path⟩

/-- A stale link leads into the header of a live block, whose `container` link is overwritten, so the
free of that block is not counted. -/
theorem heapRun_miscounts : ∃ kheap final,
    kheapInit firstFit.counted 1 ⟨NULL, fun _ => 0, [], 0, 0⟩ = .ok kheap ∧
    Along (heapStep firstFit.counted) (fun call state => state.Allows call)
      [.kmalloc 40, .kmalloc 8, .kmalloc 8, .kmalloc 8, .kmalloc 8, .kmalloc 8, .kfree (kernelHeapStart + 304),
        .kfree (kernelHeapStart + 80), .kfree (kernelHeapStart + 176), .kfree (kernelHeapStart + 240), .kmalloc 8,
        .kmalloc 24, .kfree (kernelHeapStart + 368), .kfree (kernelHeapStart + 144)] ⟨kheap, [], []⟩ ∧
    Path (heapStep firstFit.counted)
      [.kmalloc 40, .kmalloc 8, .kmalloc 8, .kmalloc 8, .kmalloc 8, .kmalloc 8, .kfree (kernelHeapStart + 304),
        .kfree (kernelHeapStart + 80), .kfree (kernelHeapStart + 176), .kfree (kernelHeapStart + 240), .kmalloc 8,
        .kmalloc 24, .kfree (kernelHeapStart + 368), .kfree (kernelHeapStart + 144)] ⟨kheap, [], []⟩ final ∧
    ¬final.Accounted kheap.heap := by
  have zeros := counted_zeros firstFit_zeros
  obtain ⟨kheap, init, shows⟩ := @wordStart_shows _ firstFit.counted zeros ([], 0, 0) (by decide +kernel)
  have check : (wordRun firstFit.counted
      [.kmalloc 40, .kmalloc 8, .kmalloc 8, .kmalloc 8, .kmalloc 8, .kmalloc 8, .kfree (kernelHeapStart + 304),
        .kfree (kernelHeapStart + 80), .kfree (kernelHeapStart + 176), .kfree (kernelHeapStart + 240), .kmalloc 8,
        .kmalloc 24, .kfree (kernelHeapStart + 368), .kfree (kernelHeapStart + 144)]
      (wordStart firstFit.counted ([], 0, 0))).any (fun state => state.wordHeap.heap ≠ NULL ∧ state.live.length = 2 ∧
        state.wordHeap.words.loadU64 (containerUsedBlocks state.wordHeap.heap) = some 3) = true := by
    decide +kernel
  obtain ⟨wordState, run, check⟩ := (Option.any_eq_true _ _).mp check
  obtain ⟨final, path, shows'⟩ := shows.path zeros run
  obtain ⟨nonnull, live, used⟩ := of_decide_eq_true check
  refine ⟨kheap, final, init, shows.allowed zeros (by decide +kernel), path, ?_⟩
  intro accounted
  have few := accounted.first_used (shows'.kheap.heap ▸ nonnull)
  rw [shows'.kheap.heap, shows'.kheap.words.loadU64 used, shows'.live, live] at few
  exact absurd few (by decide)

end B0s
