import B0s.Proof.Mm.KheapRun

/-
This file proves when `kfree` keeps the heap well formed.
-/

namespace B0s
open ByteMemory DoublyLinked

/-- No two consecutive blocks of the list are free. -/
def Merged (blks : List Blk) : Prop := blks.IsChain fun b b' => b.used = true ∨ b'.used = true

/-- The headers in memory describe the containers, and no two consecutive blocks are free. -/
structure Kheap.WellFormed {σ : Type} (source : HeapPages σ) (kheap : Kheap σ) (cs : List Cont) : Prop where
  holds : kheap.Holds source cs
  merged : ∀ c ∈ cs, Merged c.blks

/-- The heap after a free is well formed, the other used blocks keep their address, size and mark, and
the container of the block is removed when this was its last used block. -/
structure Kheap.Frees {σ : Type} (source : HeapPages σ) (cs : List Cont) (c : Cont) (b : Blk) (kheap' : Kheap σ)
    (cs' : List Cont) : Prop where
  wellFormed : kheap'.WellFormed source cs'
  others : (usedBlks cs).Perm (b :: usedBlks cs')
  containers : cs'.map Cont.addr =
    if c.usedCount = 1 then (cs.map Cont.addr).erase c.addr else cs.map Cont.addr

section
variable {before after : List Blk} {b : Blk}

theorem mergedLeft_merged (merged : Merged before) :
    Merged (mergedLeft before b).1 ∧ ∀ p ∈ (mergedLeft before b).1.getLast?, p.used = true := by
  rcases before.eq_nil_or_concat' with rfl | ⟨bs, p, rfl⟩
  · exact ⟨merged, by simp [mergedLeft]⟩
  · by_cases used : p.used = true
    · have kept : mergedLeft (bs ++ [p]) b = (bs ++ [p], b) := by simp [mergedLeft, used]
      rw [kept]
      exact ⟨merged, by simp [used]⟩
    · have absorbed : (mergedLeft (bs ++ [p]) b).1 = bs := by simp [mergedLeft, used]
      rw [absorbed]
      obtain ⟨front, -, seam⟩ := List.isChain_append.mp merged
      refine ⟨front, ?_⟩
      intro last member
      exact (seam last member p rfl).resolve_right used

theorem mergedRight_merged (merged : Merged after) :
    Merged (mergedRight b after).2 ∧ ∀ q ∈ (mergedRight b after).2.head?, q.used = true := by
  cases after with
  | nil => exact ⟨merged, by simp [mergedRight]⟩
  | cons q rest =>
      by_cases used : q.used = true
      · have kept : mergedRight b (q :: rest) = (b, q :: rest) := by simp [mergedRight, used]
        rw [kept]
        exact ⟨merged, by simp [used]⟩
      · have absorbed : (mergedRight b (q :: rest)).2 = rest := by simp [mergedRight, used]
        rw [absorbed]
        obtain ⟨seam, back⟩ := List.isChain_cons.mp merged
        refine ⟨back, ?_⟩
        intro first member
        exact (seam first member).resolve_left used

/-- A released block has no free neighbour. -/
theorem Cont.release_merged (c : Cont) (front : Merged before) (back : Merged after) :
    Merged (c.release before b after).blks := by
  obtain ⟨left, lastUsed⟩ := @mergedLeft_merged before b front
  obtain ⟨right, firstUsed⟩ := @mergedRight_merged after (mergedLeft before b).2 back
  simp only [Cont.release]
  refine List.isChain_append.mpr ⟨left, List.isChain_cons.mpr ⟨?_, right⟩, ?_⟩
  · intro q member
    exact Or.inr (firstUsed q member)
  · intro p member _ _
    exact Or.inl (lastUsed p member)

end

section
variable {σ : Type} {source : HeapPages σ} {kheap kheap' : Kheap σ} {cs xs ys : List Cont} {c : Cont}
variable {before after : List Blk} {b : Blk}

/-- The used blocks of the heap are those of the container and those elsewhere. -/
theorem usedBlks_perm (split : c.blks = before ++ b :: after) (used : b.used = true) :
    (usedBlks (xs ++ c :: ys)).Perm
      (b :: (usedBlks xs ++ (before.filter Blk.used ++ after.filter Blk.used ++ usedBlks ys))) := by
  obtain ⟨usedBefore, -⟩ := Cont.mark_used split used
  rw [usedBlks_append, usedBefore]
  have shape : usedBlks xs ++ (before.filter Blk.used ++ b :: after.filter Blk.used ++ usedBlks ys) =
      (usedBlks xs ++ before.filter Blk.used) ++ b :: (after.filter Blk.used ++ usedBlks ys) := by
    simp
  rw [shape]
  apply List.perm_middle.trans
  simp

/-- Outside the stale case, a free keeps the heap well formed. -/
theorem Kheap.WellFormed.frees (wellFormed : kheap.WellFormed source (xs ++ c :: ys))
    (split : c.blks = before ++ b :: after) (used : b.used = true) (safe : ¬LeavesStale before after) :
    ∃ kheap' cs', kfree source (b.header + 40) kheap = .ok kheap' ∧
      Kheap.Frees source (xs ++ c :: ys) c b kheap' cs' := by
  have holds := wellFormed.holds
  have merged : ∀ d, d ∈ xs ∨ d ∈ ys → Merged d.blks := by
    intro d member
    apply wellFormed.merged d
    simp only [List.mem_append, List.mem_cons]
    tauto
  have usedPerm := @usedBlks_perm xs ys c before after b split used
  by_cases last : c.usedCount = 1
  · obtain ⟨kheap', returned, -, kept, -⟩ := kfree_last holds split used last
    refine ⟨kheap', xs ++ ys, returned, ⟨kept, ?_⟩, ?_, ?_⟩
    · intro d member
      exact merged d (List.mem_append.mp member)
    · rw [Cont.usedCount, (Cont.mark_used split used).1, List.length_append, List.length_cons] at last
      have left : before.filter Blk.used = [] := List.eq_nil_of_length_eq_zero (by omega)
      have right : after.filter Blk.used = [] := List.eq_nil_of_length_eq_zero (by omega)
      rw [left, right] at usedPerm
      simpa [usedBlks] using usedPerm
    · have distinct := holds.distinct
      rw [List.map_append, List.map_cons, List.nodup_append] at distinct
      have absent : c.addr ∉ xs.map Cont.addr := by
        intro member
        exact distinct.2.2 _ member _ List.mem_cons_self rfl
      rw [if_pos last, List.map_append, List.map_append, List.map_cons, List.erase_append_right _ absent,
        List.erase_cons_head]
  · obtain ⟨kheap', returned, -, kept, -⟩ := kfree_merge holds split used last safe
    refine ⟨kheap', _, returned, ⟨kept, ?_⟩, ?_, ?_⟩
    · intro d member
      rw [List.mem_append, List.mem_cons] at member
      rcases member with first | rfl | second
      · exact merged d (Or.inl first)
      · have here := wellFormed.merged c (by simp)
        rw [split] at here
        obtain ⟨front, back, -⟩ := List.isChain_append.mp here
        exact Cont.release_merged _ front (List.isChain_cons.mp back).2
      · exact merged d (Or.inr second)
    · have usedAfter := @Cont.release_used (c.mark before b after false) before after { b with used := false } rfl
      apply usedPerm.trans
      rw [usedBlks_append _ _ ys, usedAfter]
    · rw [if_neg last]
      simp [Cont.release, Cont.mark]

/-- In the stale case, the block behind still leads back to the freed block, which the block in front
no longer leads to. -/
theorem kfree_stale (holds : kheap.Holds source (xs ++ c :: ys)) {bs as : List Blk} {p q : Blk}
    (split : c.blks = (bs ++ [p]) ++ b :: (q :: as)) (used : b.used = true) (unusedP : p.used = false)
    (usedQ : q.used = true) :
    ∃ kheap', kfree source (b.header + 40) kheap = .ok kheap' ∧
      loadU64 kheap'.mem (q.header + 16) = b.header ∧ loadU64 kheap'.mem (b.header + 16) = p.header ∧
      loadU64 kheap'.mem (p.header + 24) = q.header := by
  have fits := holds.fits c (by simp)
  have marked := ((holds.holds c (by simp)).unmark_becomes fits split used).holds
  have more : c.usedCount ≠ 1 := by
    rw [Cont.usedCount, split, List.filter_append, List.filter_cons_of_pos used, List.filter_cons_of_pos usedQ,
      List.length_append, List.length_cons, List.length_cons]
    omega
  rw [kfree_eq holds split used, if_neg more]
  generalize markBlock b.header c.addr (c.usedCount - 1) 0 kheap.mem = mem at marked ⊢
  have splitB : (c.mark (bs ++ [p]) b (q :: as) false).blks =
    (bs ++ [p]) ++ { b with used := false } :: (q :: as) := rfl
  have splitQ : (c.mark (bs ++ [p]) b (q :: as) false).blks =
    (bs ++ [p] ++ [{ b with used := false }]) ++ q :: as := by simp [Cont.mark]
  have linkB := marked.prev_eq splitB
  have linkQ := marked.prev_eq splitQ
  have nextB := marked.next_eq splitB
  have dataP := marked.data p (by simp [Cont.mark])
  have dataQ := marked.data q (by simp [Cont.mark])
  have around := fits.around split
  have page := fits.aligned
  have nonzero : c.addr ≠ 0 := fits.nonnull
  have bounded := fits.bounded
  have placeB := around.aligned
  have highB := around.high
  have placeP := around.before p (by simp)
  have placeQ := around.after q (by simp)
  unfold Blk.stop at highB placeP placeQ
  have namedP : prevHeader (bs ++ [p]) = p.header := by simp [prevHeader]
  have namedB : prevHeader (bs ++ [p] ++ [{ b with used := false }]) = b.header := by simp [prevHeader]
  have namedQ : nextHeader (q :: as) = q.header := rfl
  rw [namedP] at linkB
  rw [namedB] at linkQ
  rw [namedQ] at nextB
  have nonnull : p.header ≠ NULL := by
    unfold NULL
    omega
  obtain ⟨mem', merged, agrees, -, forth⟩ := @mergePrev_free mem b.header (b.size + 40) p.header q.header p.size
    linkB nonnull (dataP.used_iff.mpr unusedP) dataP.size nextB (by omega) (by omega) (by omega) (by omega) (by omega)
  have aligned : ∀ word ∈ [p.header, p.header + 24], word % 8 = 0 := by
    intro word member
    simp only [List.mem_cons, List.not_mem_nil, or_false] at member
    omega
  have usedAt : loadU8 mem' (q.header + 8) ≠ 0 := by
    rw [agrees.loadU8 aligned ⟨by omega, by omega⟩ (by simp; omega), dataQ.used_iff.ne, usedQ]
    simp
  have stays : mergeNext p.header mem' = mem' := mergeNext_kept forth (Or.inr usedAt)
  rw [freeBlock, merged]
  refine ⟨_, rfl, ?_, ?_, ?_⟩ <;> dsimp only <;> rw [stays]
  · rw [agrees.loadU64 aligned ⟨by omega, by omega⟩ (by simp; omega), linkQ]
  · rw [agrees.loadU64 aligned ⟨by omega, by omega⟩ (by simp; omega), linkB]
  · exact forth

/-- In the stale case, no list of containers describes the heap after the free. -/
theorem Kheap.WellFormed.not_frees (wellFormed : kheap.WellFormed source (xs ++ c :: ys))
    (split : c.blks = before ++ b :: after) (used : b.used = true) (stale : LeavesStale before after) :
    ¬∃ kheap' cs', kfree source (b.header + 40) kheap = .ok kheap' ∧
      Kheap.Frees source (xs ++ c :: ys) c b kheap' cs' := by
  rintro ⟨kheap', cs', returned, frees⟩
  obtain ⟨bs, p, q, as, rfl, unusedP, rfl, usedQ⟩ := stale
  have holds := wellFormed.holds
  have fits := holds.fits c (by simp)
  obtain ⟨kheap'', freed, backQ, backB, forthP⟩ := kfree_stale holds split used unusedP usedQ
  obtain rfl : kheap' = kheap'' := Except.ok.inj (returned.symm.trans freed)
  have order := (fits.around split).after q (by simp)
  unfold Blk.stop at order
  have apart : q.header ≠ b.header := by
    omega
  have listed : q ∈ usedBlks cs' := by
    have before : q ∈ usedBlks (xs ++ c :: ys) := mem_usedBlks.mpr ⟨c, by simp, by simp [split], usedQ⟩
    exact (List.mem_cons.mp (frees.others.mem_iff.mp before)).resolve_left fun same => apart (same ▸ rfl)
  obtain ⟨c', member, listedQ, -⟩ := mem_usedBlks.mp listed
  have links := (frees.wellFormed.holds.holds c' member).links
  have nonnull : ∀ d ∈ c.blks, d.header ≠ NULL := fun d listed => (fits.pointer listed).2
  have nodeQ := links.prev_node (List.mem_map_of_mem listedQ)
  rw [backQ] at nodeQ
  obtain ⟨memberB, -⟩ := nodeQ.resolve_left (nonnull b (by simp [split]))
  have nodeB := links.prev_node memberB
  rw [backB] at nodeB
  obtain ⟨-, forthB⟩ := nodeB.resolve_left (nonnull p (by simp [split]))
  rw [forthP] at forthB
  exact apart forthB

/-- A free of a used block keeps a well-formed heap well formed exactly when it does not merge the
block to the front while a used block follows. -/
theorem kfree_wellFormed_iff (wellFormed : kheap.WellFormed source cs) (member : c ∈ cs) (listed : b ∈ c.blks)
    (used : b.used = true) :
    (∃ kheap' cs', kfree source (b.header + 40) kheap = .ok kheap' ∧ Kheap.Frees source cs c b kheap' cs') ↔
      ¬kheap.MergesBeforeUsed (b.header + 40) := by
  obtain ⟨xs, ys, rfl⟩ := List.append_of_mem member
  obtain ⟨before, after, split⟩ := List.append_of_mem listed
  rw [wellFormed.holds.mergesBeforeUsed_iff split]
  constructor
  · intro frees stale
    exact wellFormed.not_frees split used stale frees
  · exact wellFormed.frees split used

end

/-- The first container of the heap window, with three blocks of eight bytes and the rest. -/
def threeBlocks (first : Bool) : Cont :=
  ⟨kernelHeapStart, 5, [⟨kernelHeapStart + 40, 8, first⟩, ⟨kernelHeapStart + 104, 8, true⟩,
    ⟨kernelHeapStart + 168, 8, true⟩, ⟨kernelHeapStart + 232, 20208, false⟩]⟩

theorem threeBlocks_merged (first : Bool) : ∀ c ∈ [threeBlocks first], Merged c.blks := by
  intro c member
  obtain rfl := List.mem_singleton.mp member
  simp [Merged, threeBlocks]

/-- The first container of the heap window is one free block. -/
theorem firstHeap_holds : ∃ kheap : Kheap (List (Nat × Nat)),
    kheap.Holds firstFit [⟨kernelHeapStart, 5, [⟨kernelHeapStart + 40, 20400, false⟩]⟩] := by
  have empty : Kheap.Holds firstFit ⟨NULL, fun _ => 0, []⟩ [] :=
    ⟨rfl, trivial, by simp, by simp, List.Pairwise.nil, by simp⟩
  have obtained : firstFit.vmmAllocBetween (max kheapMinAllocInPages 1) [] =
      .ok (kernelHeapStart, fun _ => 0, [(kernelHeapStart, 5)]) := by
    rfl
  have nonnull : kernelHeapStart ≠ NULL := by decide
  have created : createContainer firstFit 1 ⟨NULL, fun _ => 0, []⟩ = .ok (kernelHeapStart, ⟨kernelHeapStart,
      containerMemory kernelHeapStart (max kheapMinAllocInPages 1) (fun _ => 0) NULL fun _ => 0,
      [(kernelHeapStart, 5)]⟩) := by
    rw [createContainer_unfold, obtained]
    simp only [bind, Except.bind]
    rw [if_neg nonnull]
  exact ⟨_, ((empty.create created).2.2 nonnull).1⟩

/-- Three allocations of eight bytes take three blocks from the front of the container. -/
theorem threeBlocks_holds : ∃ kheap : Kheap (List (Nat × Nat)), kheap.Holds firstFit [threeBlocks true] := by
  obtain ⟨kheap, start⟩ := firstHeap_holds
  have first := (@Kheap.Holds.serve _ _ _ [] [] _ [] [] _ 8 start rfl ⟨rfl, by decide⟩).1
  have second := (@Kheap.Holds.serve _ _ _ [] [] _ [_] [] _ 8 first rfl ⟨rfl, by decide⟩).1
  have third := (@Kheap.Holds.serve _ _ _ [] [] _ [_, _] [] _ 8 second rfl ⟨rfl, by decide⟩).1
  exact ⟨_, third⟩

theorem not_leavesStale_nil {after : List Blk} : ¬LeavesStale [] after := by
  rintro ⟨bs, p, q, as, shape, -⟩
  simp at shape

/-- The free of the first of three blocks meets the condition. -/
theorem kfree_wellFormed_firstFit : ∃ kheap kheap' : Kheap (List (Nat × Nat)), ∃ cs',
    kheap.WellFormed firstFit [threeBlocks true] ∧ kfree firstFit (kernelHeapStart + 80) kheap = .ok kheap' ∧
      Kheap.Frees firstFit [threeBlocks true] (threeBlocks true) ⟨kernelHeapStart + 40, 8, true⟩ kheap' cs' := by
  obtain ⟨kheap, holds⟩ := threeBlocks_holds
  have wellFormed : kheap.WellFormed firstFit [threeBlocks true] := ⟨holds, threeBlocks_merged true⟩
  have safe : ¬kheap.MergesBeforeUsed (kernelHeapStart + 80) := by
    have stale := @Kheap.Holds.mergesBeforeUsed_iff _ _ _ [] [] (threeBlocks true) [] _ _ holds rfl
    exact fun merges => not_leavesStale_nil (stale.mp merges)
  obtain ⟨kheap', cs', returned, frees⟩ :=
    (kfree_wellFormed_iff wellFormed (List.mem_singleton_self _) List.mem_cons_self rfl).mpr safe
  exact ⟨kheap, kheap', cs', wellFormed, returned, frees⟩

/-- After the free of the first of three blocks, the free of the second leaves a stale link. -/
theorem kfree_not_wellFormed : ∃ kheap : Kheap (List (Nat × Nat)),
    kheap.WellFormed firstFit [threeBlocks false] ∧
      ¬∃ kheap' cs', kfree firstFit (kernelHeapStart + 144) kheap = .ok kheap' ∧
        Kheap.Frees firstFit [threeBlocks false] (threeBlocks false) ⟨kernelHeapStart + 104, 8, true⟩ kheap' cs' := by
  obtain ⟨kheap, holds⟩ := threeBlocks_holds
  obtain ⟨kheap', -, -, freed, -⟩ :=
    @kfree_merge _ _ _ [] [] (threeBlocks true) [] _ _ holds rfl rfl (by decide) not_leavesStale_nil
  have wellFormed : kheap'.WellFormed firstFit [threeBlocks false] := ⟨freed, threeBlocks_merged false⟩
  refine ⟨kheap', wellFormed, ?_⟩
  have stale : LeavesStale [⟨kernelHeapStart + 40, 8, false⟩]
      [⟨kernelHeapStart + 168, 8, true⟩, ⟨kernelHeapStart + 232, 20208, false⟩] := ⟨[], _, _, _, rfl, rfl, rfl, rfl⟩
  exact @Kheap.WellFormed.not_frees _ _ _ [] [] (threeBlocks false) _ _ ⟨kernelHeapStart + 104, 8, true⟩
    wellFormed rfl rfl stale

end B0s
