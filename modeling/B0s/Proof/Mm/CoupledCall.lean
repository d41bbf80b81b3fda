import B0s.Proof.Mm.Coupled

/-
This file proves that the calls on spaces keep region lists and page tables coupled, and owned pages private.
-/

namespace B0s
open DoublyLinked RangeMap

variable {σ : Type}

/-- The spaces are coupled, and the owned pages are private. -/
structure Coexist (alloc : KernelAllocator σ) (member : Nat → Prop) (own : Nat → Nat → Prop) (lists : Nat → List Nat)
    (kernel : Kernel σ) : Prop where
  coupled : Coupled alloc member lists kernel
  pages : PrivatePages alloc.toFrameAllocator member own kernel

section
variable {alloc : KernelAllocator σ} {member : Nat → Prop} {own : Nat → Nat → Prop} {lists : Nat → List Nat}
  {kernel middle kernel' : Kernel σ} {space start stop flags : Nat}

/-- A call with a vacant window of owned pages maps it, unless the frame allocator faults or a region follows it. -/
theorem Coexist.allocAt_cases {va sizeInPages : Nat} (coexist : Coexist alloc member own lists kernel)
    (belongs : member space) (window : HalfWindow va (va + sizeInPages * pageSizeInBytes)) (nonnull : va ≠ NULL)
    (mine : ∀ {page}, WindowPage va (va + sizeInPages * pageSizeInBytes) page → own space page)
    (valid : PageFlags flags) (vacant : kernel.Vacant (lists space) va (va + sizeInPages * pageSizeInBytes)) :
    (∃ fault env, vmmAllocAt alloc space va sizeInPages flags kernel = .error fault ∧ alloc.pmmXalloc env = .error fault) ∨
    (∃ fault, vmmAllocAt alloc space va sizeInPages flags kernel = .error fault ∧
      ∃ range ∈ kernel.ranges (lists space), range.start = va + sizeInPages * pageSizeInBytes) ∨
    ∃ kernel' lists', vmmAllocAt alloc space va sizeInPages flags kernel = .ok (va, kernel') ∧
      Coexist alloc member own lists' kernel' ∧
      LeavesChanged member (Fills flags) kernel kernel' space va (va + sizeInPages * pageSizeInBytes) := by
  have limit := window.addressable
  have size : u64 (sizeInPages * pageSizeInBytes) = sizeInPages * pageSizeInBytes := Nat.mod_eq_of_lt (by omega)
  have stop : u64 (va + sizeInPages * pageSizeInBytes) = va + sizeInPages * pageSizeInBytes := Nat.mod_eq_of_lt limit
  have listed := coexist.coupled.listed belongs
  have whole := coexist.coupled.pages belongs
  obtain ⟨region, middle, ptrs, ranges, added, relisted, inside, inserts⟩ :=
    vmmAddRange_vacant listed whole.canonical whole.bounded window.nonempty flags vacant
  have present := relisted.listed.ne_null inside
  rw [vmmAllocAt, if_neg nonnull, size, stop, added]
  simp only [bind, Except.bind, if_neg present]
  rcases coexist.coupled.allocate coexist.pages belongs window mine valid relisted inserts with
    ⟨fault, env, failed, exhausted⟩ | ⟨page, failed, meets⟩ | ⟨final, done, coupled, pages, changed⟩
  · exact Or.inl ⟨fault, env, by rw [failed], exhausted⟩
  · refine Or.inr (Or.inl ⟨_, by rw [failed], meets.resolve_left ?_⟩)
    rintro ⟨page, inWindow, mapped⟩
    exact mapped (coexist.coupled.leaf_vacant belongs vacant window.span inWindow)
  · exact Or.inr (Or.inr ⟨final, _, by rw [done], ⟨coupled, pages⟩, changed⟩)

/-- A call that returns has filled its window. -/
theorem Coexist.allocAt {va sizeInPages ret : Nat} (coexist : Coexist alloc member own lists kernel)
    (belongs : member space) (window : HalfWindow va (va + sizeInPages * pageSizeInBytes)) (nonnull : va ≠ NULL)
    (mine : ∀ {page}, WindowPage va (va + sizeInPages * pageSizeInBytes) page → own space page)
    (valid : PageFlags flags) (done : vmmAllocAt alloc space va sizeInPages flags kernel = .ok (ret, kernel')) :
    ∃ lists', Coexist alloc member own lists' kernel' ∧
      LeavesChanged member (Fills flags) kernel kernel' space va (va + sizeInPages * pageSizeInBytes) := by
  have vacant : kernel.Vacant (lists space) va (va + sizeInPages * pageSizeInBytes) := by
    have limit := window.addressable
    have size : u64 (sizeInPages * pageSizeInBytes) = sizeInPages * pageSizeInBytes := Nat.mod_eq_of_lt (by omega)
    have stop : u64 (va + sizeInPages * pageSizeInBytes) = va + sizeInPages * pageSizeInBytes := Nat.mod_eq_of_lt limit
    rw [vmmAllocAt, if_neg nonnull, size, stop] at done
    obtain ⟨⟨region, middle⟩, added, -⟩ := Outcome.bind_eq_ok.mp done
    obtain ⟨-, -, -, -, -, vacant⟩ := coexist.coupled.added belongs window.nonempty added
    exact vacant
  rcases coexist.allocAt_cases belongs window nonnull mine valid vacant with
    ⟨fault, env, failed, -⟩ | ⟨fault, failed, -⟩ | ⟨final, lists', returned, coexist', changed⟩
  · rw [failed] at done
    cases done
  · rw [failed] at done
    cases done
  · rw [returned] at done
    obtain ⟨-, rfl⟩ := Prod.mk.inj (Except.ok.inj done)
    exact ⟨lists', coexist', changed⟩

/-- A free of owned pages that returns has cleared its window. -/
theorem Coexist.free {va sizeInPages : Nat} (coexist : Coexist alloc member own lists kernel)
    (belongs : member space) (window : HalfWindow va (va + sizeInPages * pageSizeInBytes))
    (mine : ∀ {page}, WindowPage va (va + sizeInPages * pageSizeInBytes) page → own space page)
    (done : vmmFree alloc space va sizeInPages kernel = .ok kernel') :
    ∃ lists', Coexist alloc member own lists' kernel' ∧
      LeavesChanged member Clears kernel kernel' space va (va + sizeInPages * pageSizeInBytes) := by
  have limit := window.addressable
  have size : u64 (sizeInPages * pageSizeInBytes) = sizeInPages * pageSizeInBytes := Nat.mod_eq_of_lt (by omega)
  have stop : u64 (va + sizeInPages * pageSizeInBytes) = va + sizeInPages * pageSizeInBytes := Nat.mod_eq_of_lt limit
  unfold vmmFree at done
  rw [size, stop] at done
  obtain ⟨middle, removed, done⟩ := Outcome.bind_eq_ok.mp done
  have listed := coexist.coupled.listed belongs
  have whole := coexist.coupled.pages belongs
  by_cases contained : ∃ range ∈ kernel.ranges (lists space),
      range.start ≤ va ∧ va + sizeInPages * pageSizeInBytes ≤ range.stop
  · obtain ⟨middle', ptrs, ranges, removed', relisted, canonical, denotes⟩ :=
      vmmRemoveRange_contained listed whole.canonical whole.bounded window.nonempty contained
    obtain rfl := Except.ok.inj (removed.symm.trans removed')
    obtain ⟨changed, pages⟩ := vmmUnmapPages_private (coexist.pages.relisted relisted.frame) mine window.span done
    exact ⟨_, ⟨coexist.coupled.clear belongs window.span relisted canonical denotes changed, pages⟩,
      changed.toLeavesChanged.relisted relisted.frame⟩
  · obtain ⟨reason, panics⟩ := vmmRemoveRange_uncontained listed whole.canonical whole.bounded contained
    rw [removed] at panics
    cases panics

/-- A window whose pages are mapped with the same flags lies in one region. -/
theorem Coupled.contains (coupled : Coupled alloc member lists kernel) (belongs : member space) (span : PageSpan start stop)
    (nonempty : start < stop) (mapped : ∀ {va}, WindowPage start stop va →
      mmuLeaf space va kernel ≠ 0 ∧ mmuLeaf space va kernel % pageSizeInBytes = flags) :
    ∃ range ∈ kernel.ranges (lists space), range.start ≤ start ∧ stop ≤ range.stop := by
  have whole := coupled.pages belongs
  have denoted : ∀ {va}, WindowPage start stop va → Denotes (kernel.ranges (lists space)) va flags := by
    intro va page
    exact (coupled.mapped belongs (span.pages va page.lower page.upper page.aligned)).mpr (mapped page)
  obtain ⟨range, inside, contains, flagged⟩ := denoted (.first span.alignedStart nonempty)
  refine ⟨range, inside, contains.1, ?_⟩
  by_contra short
  have behind : WindowPage start stop range.stop := ⟨contains.2.le, not_le.mp short, (whole.span inside).alignedStop⟩
  exact whole.canonical.stop_vacant inside (flagged ▸ denoted behind)

/-- A free of owned pages that are mapped with the same flags faults only with the frame allocator. -/
theorem Coexist.free_returns {va sizeInPages : Nat} (coexist : Coexist alloc member own lists kernel)
    (belongs : member space) (window : HalfWindow va (va + sizeInPages * pageSizeInBytes))
    (mine : ∀ {page}, WindowPage va (va + sizeInPages * pageSizeInBytes) page → own space page)
    (mapped : ∀ {page}, WindowPage va (va + sizeInPages * pageSizeInBytes) page →
      mmuLeaf space page kernel ≠ 0 ∧ mmuLeaf space page kernel % pageSizeInBytes = flags) :
    (∃ fault, vmmFree alloc space va sizeInPages kernel = .error fault ∧ alloc.Faults fault) ∨
    ∃ kernel', vmmFree alloc space va sizeInPages kernel = .ok kernel' := by
  have limit := window.addressable
  have size : u64 (sizeInPages * pageSizeInBytes) = sizeInPages * pageSizeInBytes := Nat.mod_eq_of_lt (by omega)
  have stop : u64 (va + sizeInPages * pageSizeInBytes) = va + sizeInPages * pageSizeInBytes := Nat.mod_eq_of_lt limit
  have listed := coexist.coupled.listed belongs
  have whole := coexist.coupled.pages belongs
  obtain ⟨middle, ptrs, ranges, removed, relisted, -, -⟩ := vmmRemoveRange_contained listed whole.canonical whole.bounded
    window.nonempty (coexist.coupled.contains belongs window.span window.nonempty mapped)
  have leaf : ∀ page, mmuLeaf space page middle = mmuLeaf space page kernel :=
    fun page => mmuLeaf_congr relisted.frame.word (congrFun relisted.frame.root space)
  have enough : va + sizeInPages * pageSizeInBytes - va < walkLimit * pageSizeInBytes := by
    unfold walkLimit pageSizeInBytes at *
    omega
  have call : vmmFree alloc space va sizeInPages kernel =
      vmmUnmapPages alloc space va (va + sizeInPages * pageSizeInBytes) walkLimit va middle := by
    simp only [vmmFree, size, stop, removed, Outcome.ok_bind]
  rw [call]
  exact vmmUnmapPages_returns (coexist.pages.relisted relisted.frame) mine window.span
    (fun page => leaf _ ▸ (mapped page).1) enough

/-- A search between bounds faults with the frame allocator, finds no window and changes nothing, or fills a window of owned
pages between them. -/
theorem Coexist.allocBetween_cases {lowerVa upperVa sizeInPages : Nat} (coexist : Coexist alloc member own lists kernel)
    (belongs : member space) (request : BetweenRequest lowerVa sizeInPages flags) (positive : 0 < sizeInPages)
    (half : 2 ^ 64 - 2 ^ 47 ≤ lowerVa) (clears : ClearsLower (kernel.ranges (lists space)) lowerVa)
    (room : ∀ range ∈ kernel.ranges (lists space), range.stop + (sizeInPages + 2) * pageSizeInBytes < 2 ^ 64)
    (mine : ∀ {va}, lowerVa ≤ va → va < upperVa → own space va) :
    (∃ fault env, vmmAllocBetween alloc space lowerVa upperVa sizeInPages flags kernel = .error fault ∧
      alloc.pmmXalloc env = .error fault) ∨
    vmmAllocBetween alloc space lowerVa upperVa sizeInPages flags kernel = .ok (NULL, kernel) ∨
    ∃ ret kernel' lists', vmmAllocBetween alloc space lowerVa upperVa sizeInPages flags kernel = .ok (ret, kernel') ∧
      lowerVa < ret ∧ ret + sizeInPages * pageSizeInBytes < upperVa ∧
      HalfWindow ret (ret + sizeInPages * pageSizeInBytes) ∧ Coexist alloc member own lists' kernel' ∧
      LeavesChanged member (Fills flags) kernel kernel' space ret (ret + sizeInPages * pageSizeInBytes) := by
  have fits := request.room
  have listed := coexist.coupled.listed belongs
  have whole := coexist.coupled.pages belongs
  have canonical := whole.canonical
  have size : u64 (sizeInPages * pageSizeInBytes) = sizeInPages * pageSizeInBytes :=
    Nat.mod_eq_of_lt (by unfold pageSizeInBytes at *; omega)
  obtain ⟨passed, rest, va, split, search, found⟩ : ∃ passed rest va, passed ++ rest = lists space ∧
      vmmAllocBetweenSearch kernel lowerVa (u64 (sizeInPages * pageSizeInBytes)) (2 * pageSizeInBytes) walkLimit lowerVa
        NULL (kernel.space space).region = .ok (va, passed.getLastD NULL, rest.headD NULL) ∧
      GapFound lowerVa (u64 (u64 (sizeInPages * pageSizeInBytes) + 2 * pageSizeInBytes)) (kernel.ranges passed)
        (kernel.ranges rest) va := by
    have start : SpaceList alloc.toObjectAllocator kernel space ([] ++ lists space) := listed
    rw [listed.head]
    exact vmmAllocBetweenSearch_found start (Kernel.Bounded.length_lt whole.bounded canonical) (allPassed_nil _ _)
  rw [← split, Kernel.ranges_append] at clears canonical room
  have low := found.inside canonical clears
  have noWrap : va + sizeInPages * pageSizeInBytes + 2 * pageSizeInBytes < 2 ^ 64 := by
    rcases found.place with same | ⟨range, inside, same⟩
    · rw [Nat.add_mul] at fits
      omega
    · have stops := room range (List.mem_append_left _ inside)
      rw [Nat.add_mul] at stops
      omega
  by_cases refused : upperVa ≤ u64 (va + u64 (sizeInPages * pageSizeInBytes) + 2 * pageSizeInBytes)
  · exact Or.inr (Or.inl (by rw [vmmAllocBetween_searched search, if_pos refused]))
  have accepted : va + sizeInPages * pageSizeInBytes + 2 * pageSizeInBytes < upperVa := by
    rw [size, u64, Nat.mod_eq_of_lt noWrap] at refused
    exact not_le.mp refused
  have padded : u64 (u64 (sizeInPages * pageSizeInBytes) + 2 * pageSizeInBytes) =
      sizeInPages * pageSizeInBytes + 2 * pageSizeInBytes := by
    rw [size]
    exact Nat.mod_eq_of_lt (by omega)
  rw [padded] at found
  have behind := found.behind canonical
  have after := found.after canonical fun head tail shape => low.2 head (shape ▸ List.mem_cons_self)
  have guard : 0 < pageSizeInBytes := by decide
  have begins : u64 (va + pageSizeInBytes) = va + pageSizeInBytes := Nat.mod_eq_of_lt (by omega)
  have ends : u64 (va + pageSizeInBytes + sizeInPages * pageSizeInBytes) =
      va + pageSizeInBytes + sizeInPages * pageSizeInBytes := Nat.mod_eq_of_lt (by omega)
  have before : ∀ range ∈ kernel.ranges passed, range.stop ≤ va + pageSizeInBytes :=
    fun range inside => (behind range inside).trans (Nat.le_add_right _ _)
  have above : ∀ range ∈ kernel.ranges rest, va + pageSizeInBytes + sizeInPages * pageSizeInBytes ≤ range.start := by
    intro range inside
    have place := after range inside
    omega
  rw [← split] at listed
  obtain ⟨region, middle, ptrs, inserted, relisted, inside, range⟩ := vmmInsertRange_fits listed flags before above
  have inserts : Inserts (kernel.ranges (passed ++ rest))
      ⟨va + pageSizeInBytes, va + pageSizeInBytes + sizeInPages * pageSizeInBytes, flags⟩ _ (middle.region region).range :=
    ⟨_, _, by rw [Kernel.ranges_append], before, above, rfl, range⟩
  have alignedVa : va % pageSizeInBytes = 0 := by
    rcases found.place with same | ⟨range, inside, same⟩
    · exact same ▸ request.aligned
    · rw [same]
      apply whole.stop_aligned
      rw [← split, Kernel.ranges_append]
      exact List.mem_append_left _ inside
  have window : HalfWindow (va + pageSizeInBytes) (va + pageSizeInBytes + sizeInPages * pageSizeInBytes) := by
    have lower := low.1
    unfold pageSizeInBytes at *
    refine ⟨?_, ?_, ?_, ?_, ?_⟩ <;> (try unfold pageSizeInBytes) <;> omega
  have owned : ∀ {page}, WindowPage (va + pageSizeInBytes) (va + pageSizeInBytes + sizeInPages * pageSizeInBytes) page →
      own space page := by
    intro page inside
    have lower := low.1
    have first := inside.lower
    have last := inside.upper
    exact mine (by omega) (by omega)
  have vacant : kernel.Vacant (lists space) (va + pageSizeInBytes)
      (va + pageSizeInBytes + sizeInPages * pageSizeInBytes) := by
    intro range member meets
    rw [← split, Kernel.ranges_append, List.mem_append] at member
    rcases member with earlier | later
    · exact absurd meets.2 (not_lt.mpr (before range earlier))
    · exact absurd meets.1 (not_lt.mpr (above range later))
  rw [vmmAllocBetween_searched search, if_neg refused, begins, size, ends, inserted, Outcome.ok_bind]
  dsimp only
  rw [if_neg (relisted.listed.ne_null inside)]
  rw [split] at relisted inserts
  rcases coexist.coupled.allocate coexist.pages belongs window owned request.flags relisted inserts with
    ⟨fault, env, failed, exhausted⟩ | ⟨page, failed, meets⟩ | ⟨final, done, coupled, pages, changed⟩
  · exact Or.inl ⟨fault, env, by rw [failed]; rfl, exhausted⟩
  · exfalso
    rcases meets with ⟨page, inWindow, mapped⟩ | ⟨range, member, touches⟩
    · exact mapped (coexist.coupled.leaf_vacant belongs vacant window.span inWindow)
    · -- The second page of the padding lies between the window and the next region.
      rw [← split, Kernel.ranges_append, List.mem_append] at member
      rcases member with earlier | later
      · have nonempty := whole.canonical.nonempty range
          (by rw [← split, Kernel.ranges_append]; exact List.mem_append_left _ earlier)
        have place := behind range earlier
        omega
      · have place := after range later
        omega
  · exact Or.inr (Or.inr ⟨_, final, _, by rw [done]; rfl, by have lower := low.1; omega, by omega, window,
      ⟨coupled, pages⟩, changed⟩)

end

end B0s
