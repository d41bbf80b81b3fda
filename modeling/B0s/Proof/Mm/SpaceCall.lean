import B0s.Proof.Mm.Coherent
import B0s.Proof.Mm.GapSearch
import B0s.Proof.Mm.PageAlloc

/-
This file proves that each call on an address space keeps its regions and page tables coherent.
-/

namespace B0s
open DoublyLinked RangeMap

variable {σ : Type}

/-- The window of a call has at least one page, does not wrap, and lies in one canonical half. -/
structure HalfWindow (start stop : Nat) : Prop where
  alignedStart : start % pageSizeInBytes = 0
  alignedStop : stop % pageSizeInBytes = 0
  nonempty : start < stop
  addressable : stop < 2 ^ 64
  half : stop ≤ 2 ^ 47 ∨ 2 ^ 64 - 2 ^ 47 ≤ start

instance (start stop : Nat) : Decidable (HalfWindow start stop) :=
  decidable_of_iff (start % pageSizeInBytes = 0 ∧ stop % pageSizeInBytes = 0 ∧ start < stop ∧
    stop < 2 ^ 64 ∧ (stop ≤ 2 ^ 47 ∨ 2 ^ 64 - 2 ^ 47 ≤ start))
    ⟨fun ⟨one, two, three, four, five⟩ => ⟨one, two, three, four, five⟩,
      fun ⟨one, two, three, four, five⟩ => ⟨one, two, three, four, five⟩⟩

theorem HalfWindow.span {start stop : Nat} (window : HalfWindow start stop) : PageSpan start stop where
  alignedStart := window.alignedStart
  alignedStop := window.alignedStop
  addressable := window.addressable
  pages va lower upper aligned := by
    have half := window.half
    have limit := window.addressable
    exact ⟨aligned, by omega, by omega⟩

section
variable {alloc : KernelAllocator σ} {member : Nat → Prop} {lists : Nat → List Nat}
  {kernel middle kernel' : Kernel σ} {space : Nat} {ptrs : List Nat} {ranges : List (Range Nat Nat)}

/-- The loop that follows an insertion fills the window, or it would meet a mapped page. -/
theorem Coherent.allocate {start stop flags region steps : Nat} {overwrite : Nat → Panic}
    (coherent : Coherent alloc member lists kernel) (belongs : member space)
    (window : HalfWindow start stop) (valid : PageFlags flags)
    (relisted : Relisted alloc.toObjectAllocator kernel middle space (lists space) ptrs ranges)
    (inserts : Inserts (kernel.ranges (lists space)) ⟨start, stop, flags⟩ ranges
      (middle.region region).range)
    (done : vmmMapPages alloc space region flags overwrite steps start middle = .ok kernel') :
    Coherent alloc member (Function.update lists space ptrs) kernel' := by
  have pages := coherent.pages belongs
  have span := window.span
  have after := pages.insert span window.nonempty inserts
  have alignedStop := after.stop_aligned inserts.mem
  have reach : PageSpan start (middle.region region).vaStop := by
    refine ⟨window.alignedStart, alignedStop, ?_, ?_⟩
    · have nonempty := after.canonical.nonempty _ inserts.mem
      have last : Denotes ranges ((middle.region region).vaStop - 1) (middle.region region).flags :=
        ⟨_, inserts.mem, ⟨Nat.le_sub_one_of_lt nonempty, Nat.sub_one_lt_of_lt nonempty⟩, rfl⟩
      have bound := after.bounded _ _ last
      omega
    · intro va lower upper aligned
      have start := inserts.start_le pages.canonical
      have denoted : Denotes ranges va (middle.region region).flags :=
        ⟨_, inserts.mem, ⟨start.trans lower, upper⟩, rfl⟩
      have page := after.pages va _ denoted
      rw [pageOf_aligned aligned] at page
      exact page
  have filled := vmmMapPages_fills (coherent.backing.relisted relisted.frame) belongs reach rfl valid
    done
  rcases inserts.stop_cases with same | ⟨other, listed, joins, stops⟩
  · have exact : (middle.region region).vaStop = stop := same
    rw [exact] at filled
    exact coherent.fill belongs span window.nonempty relisted inserts filled
  · have starts : other.start = stop := joins.1.symm
    have nonempty := pages.canonical.nonempty other listed
    have denoted : Denotes (kernel.ranges (lists space)) stop other.flags :=
      ⟨other, listed, ⟨starts.le, starts ▸ nonempty⟩, rfl⟩
    have page := pages.pages stop _ denoted
    rw [pageOf_aligned window.alignedStop] at page
    have mapped := ((coherent.mapped belongs page).mp denoted).1
    have inside : stop < (middle.region region).vaStop :=
      calc stop < other.stop := starts ▸ nonempty
        _ = (middle.region region).vaStop := stops
    have vacant := (filled.inside stop window.nonempty.le inside window.alignedStop).1
    rw [mmuLeaf_congr relisted.frame.word (congrFun relisted.frame.root space)] at vacant
    exact absurd vacant mapped

/-- A successful addition inserts its range. -/
theorem Coherent.added {start stop flags region : Nat}
    (coherent : Coherent alloc member lists kernel) (belongs : member space) (nonempty : start < stop)
    (added : vmmAddRange alloc.toObjectAllocator space start stop flags kernel = .ok (region, middle)) :
    ∃ ptrs ranges, Relisted alloc.toObjectAllocator kernel middle space (lists space) ptrs ranges ∧
      region ≠ NULL ∧
      Inserts (kernel.ranges (lists space)) ⟨start, stop, flags⟩ ranges (middle.region region).range := by
  have listed := coherent.listed belongs
  have pages := coherent.pages belongs
  by_cases vacant : kernel.Vacant (lists space) start stop
  · obtain ⟨region', middle', ptrs, ranges, added', relisted, inside, inserts⟩ :=
      vmmAddRange_vacant listed pages.canonical pages.bounded nonempty flags vacant
    obtain ⟨rfl, rfl⟩ := Prod.mk.inj (Except.ok.inj (added.symm.trans added'))
    exact ⟨ptrs, ranges, relisted, relisted.listed.ne_null inside, inserts⟩
  · obtain ⟨reason, panics⟩ :=
      vmmAddRange_occupied listed pages.canonical pages.bounded nonempty flags vacant
    rw [added] at panics
    cases panics

theorem vmmAllocAt_coherent {va sizeInPages flags ret : Nat}
    (coherent : Coherent alloc member lists kernel) (belongs : member space)
    (window : HalfWindow va (va + sizeInPages * pageSizeInBytes)) (valid : PageFlags flags)
    (done : vmmAllocAt alloc space va sizeInPages flags kernel = .ok (ret, kernel')) :
    ∃ lists', Coherent alloc member lists' kernel' := by
  have limit := window.addressable
  have size : u64 (sizeInPages * pageSizeInBytes) = sizeInPages * pageSizeInBytes :=
    Nat.mod_eq_of_lt (by omega)
  have stop : u64 (va + sizeInPages * pageSizeInBytes) = va + sizeInPages * pageSizeInBytes :=
    Nat.mod_eq_of_lt limit
  unfold vmmAllocAt at done
  rw [size, stop] at done
  split_ifs at done with null
  · obtain ⟨-, rfl⟩ := Prod.mk.inj (Except.ok.inj done)
    exact ⟨lists, coherent⟩
  · obtain ⟨⟨region, middle⟩, added, done⟩ := Outcome.bind_eq_ok.mp done
    obtain ⟨ptrs, ranges, relisted, nonnull, inserts⟩ :=
      coherent.added belongs window.nonempty added
    simp only [if_neg nonnull] at done
    obtain ⟨final, filled, done⟩ := Outcome.bind_eq_ok.mp done
    obtain ⟨-, rfl⟩ := Prod.mk.inj (Except.ok.inj done)
    exact ⟨_, coherent.allocate belongs window valid relisted inserts filled⟩

theorem vmmMap_coherent {va pa flags ret : Nat}
    (coherent : Coherent alloc member lists kernel) (belongs : member space)
    (window : HalfWindow va (va + pageSizeInBytes)) (valid : PageFlags flags)
    (aligned : pa % pageSizeInBytes = 0) (bounded : pa < 2 ^ 64) (unmanaged : ¬alloc.managed pa)
    (done : vmmMap alloc space va pa flags kernel = .ok (ret, kernel')) :
    ∃ lists', Coherent alloc member lists' kernel' := by
  have stop : u64 (va + pageSizeInBytes) = va + pageSizeInBytes :=
    Nat.mod_eq_of_lt window.addressable
  unfold vmmMap at done
  rw [stop] at done
  obtain ⟨⟨region, middle⟩, added, done⟩ := Outcome.bind_eq_ok.mp done
  obtain ⟨ptrs, ranges, relisted, nonnull, inserts⟩ := coherent.added belongs window.nonempty added
  simp only [if_neg nonnull] at done
  obtain ⟨⟨old, final⟩, mapped, done⟩ := Outcome.bind_eq_ok.mp done
  simp only at done
  split_ifs at done with overwritten
  obtain ⟨-, rfl⟩ := Prod.mk.inj (Except.ok.inj done)
  have backing := coherent.backing.relisted relisted.frame
  have page := window.span.page window.nonempty
  obtain ⟨oldLeaf, set⟩ := mmuMapPage_leafSet backing.tables belongs page valid.small mapped
  have vacant : mmuLeaf space va middle = 0 := oldLeaf.symm.trans (not_not.mp overwritten)
  have spare : pa ||| flags ≠ 0 →
      Spare alloc.toFrameAllocator member middle (pageAddr (pa ||| flags)) := by
    intro _ managed
    rw [pageAddr_or aligned bounded valid.small] at managed
    exact absurd managed unmanaged
  have changed := set.pagesChanged backing spare window.alignedStart
    (vacant.symm ▸ valid.fills aligned)
  exact ⟨_, coherent.fill belongs window.span window.nonempty relisted inserts changed⟩

theorem vmmFree_coherent {va sizeInPages : Nat}
    (coherent : Coherent alloc member lists kernel) (belongs : member space)
    (window : HalfWindow va (va + sizeInPages * pageSizeInBytes))
    (done : vmmFree alloc space va sizeInPages kernel = .ok kernel') :
    ∃ lists', Coherent alloc member lists' kernel' := by
  have limit := window.addressable
  have size : u64 (sizeInPages * pageSizeInBytes) = sizeInPages * pageSizeInBytes :=
    Nat.mod_eq_of_lt (by omega)
  have stop : u64 (va + sizeInPages * pageSizeInBytes) = va + sizeInPages * pageSizeInBytes :=
    Nat.mod_eq_of_lt limit
  unfold vmmFree at done
  rw [size, stop] at done
  obtain ⟨middle, removed, done⟩ := Outcome.bind_eq_ok.mp done
  have listed := coherent.listed belongs
  have pages := coherent.pages belongs
  by_cases contained : ∃ range ∈ kernel.ranges (lists space),
      range.start ≤ va ∧ va + sizeInPages * pageSizeInBytes ≤ range.stop
  · obtain ⟨middle', ptrs, ranges, removed', relisted, canonical, denotes⟩ :=
      vmmRemoveRange_contained listed pages.canonical pages.bounded window.nonempty contained
    obtain rfl := Except.ok.inj (removed.symm.trans removed')
    have changed := vmmUnmapPages_clears (coherent.backing.relisted relisted.frame) belongs
      window.span done
    refine ⟨_, coherent.update belongs relisted changed (pages.remove window.span canonical denotes) ?_⟩
    intro va' flags page
    have before : mmuLeaf space va' middle = mmuLeaf space va' kernel :=
      mmuLeaf_congr relisted.frame.word (congrFun relisted.frame.root space)
    rw [denotes, coherent.mapped belongs page]
    by_cases inside : va ≤ va' ∧ va' < va + sizeInPages * pageSizeInBytes
    · have cleared := (changed.inside va' inside.1 inside.2 page.aligned).2
      simp [inside, cleared]
    · have outside := changed.outside belongs page fun window => inside window.2
      simp [inside, outside, before]
  · obtain ⟨reason, panics⟩ :=
      vmmRemoveRange_uncontained listed pages.canonical pages.bounded contained
    rw [removed] at panics
    cases panics

/-- The end of a listed region is an addressable page boundary. -/
theorem Coherent.stop_bounds (coherent : Coherent alloc member lists kernel) (belongs : member space)
    {ptr : Nat} (inside : ptr ∈ lists space) :
    (kernel.region ptr).vaStop % pageSizeInBytes = 0 ∧ (kernel.region ptr).vaStop < 2 ^ 64 := by
  have pages := coherent.pages belongs
  have listed : (kernel.region ptr).range ∈ kernel.ranges (lists space) :=
    List.mem_map.mpr ⟨ptr, inside, rfl⟩
  have nonempty : (kernel.region ptr).vaStart < (kernel.region ptr).vaStop :=
    pages.canonical.nonempty _ listed
  have last := pages.bounded ((kernel.region ptr).vaStop - 1) (kernel.region ptr).flags
    ⟨_, listed, ⟨Nat.le_sub_one_of_lt nonempty, Nat.sub_one_lt_of_lt nonempty⟩, rfl⟩
  exact ⟨pages.stop_aligned listed, by omega⟩

/-- The lower bound leaves room for the pages and their padding. -/
structure BetweenRequest (lowerVa sizeInPages flags : Nat) : Prop where
  aligned : lowerVa % pageSizeInBytes = 0
  room : lowerVa + (sizeInPages + 2) * pageSizeInBytes < 2 ^ 64
  flags : PageFlags flags

section
variable {lowerVa upperVa sizeInPages flags va : Nat} {passed rest : List Nat}

/-- The search of a coherent space finds a gap. -/
theorem Coherent.gapFound (coherent : Coherent alloc member lists kernel) (belongs : member space)
    (lowerVa sizeInBytes padding : Nat) : ∃ passed rest va, passed ++ rest = lists space ∧
      vmmAllocBetweenSearch kernel lowerVa sizeInBytes padding walkLimit lowerVa NULL (kernel.space space).region =
        .ok (va, passed.getLastD NULL, rest.headD NULL) ∧
      GapFound lowerVa (u64 (sizeInBytes + padding)) (kernel.ranges passed) (kernel.ranges rest) va := by
  have listed := coherent.listed belongs
  have pages := coherent.pages belongs
  have whole : SpaceList alloc.toObjectAllocator kernel space ([] ++ lists space) := listed
  rw [listed.head]
  exact vmmAllocBetweenSearch_found whole (Kernel.Bounded.length_lt pages.bounded pages.canonical)
    (allPassed_nil _ _)

/-- Behind the search the call refuses, or it inserts a region and maps it. -/
theorem vmmAllocBetween_searched {calls : KernelCalls σ} {prev cur : Nat}
    (search : vmmAllocBetweenSearch kernel lowerVa (u64 (sizeInPages * pageSizeInBytes)) (2 * pageSizeInBytes) walkLimit
      lowerVa NULL (kernel.space space).region = .ok (va, prev, cur)) :
    vmmAllocBetween calls space lowerVa upperVa sizeInPages flags kernel =
      if u64 (va + u64 (sizeInPages * pageSizeInBytes) + 2 * pageSizeInBytes) ≥ upperVa then .ok (NULL, kernel)
      else vmmInsertRange calls.toObjectCalls space prev cur (u64 (va + pageSizeInBytes))
          (u64 (u64 (va + pageSizeInBytes) + u64 (sizeInPages * pageSizeInBytes))) flags kernel >>= fun inserted =>
        if inserted.1 = NULL then .ok (NULL, inserted.2)
        else (vmmMapPages calls space inserted.1 flags .vmmAllocBetweenOverwrite walkLimit (u64 (va + pageSizeInBytes))
          inserted.2).map fun kernel => (u64 (va + pageSizeInBytes), kernel) := by
  rw [vmmAllocBetween, search]
  simp only [bind, Except.bind]
  split_ifs with full
  · rfl
  · cases vmmInsertRange calls.toObjectCalls space prev cur (u64 (va + pageSizeInBytes))
      (u64 (u64 (va + pageSizeInBytes) + u64 (sizeInPages * pageSizeInBytes))) flags kernel with
    | error fault => rfl
    | ok inserted =>
        simp only
        split_ifs with none
        · rfl
        · cases vmmMapPages calls space inserted.1 flags .vmmAllocBetweenOverwrite walkLimit
            (u64 (va + pageSizeInBytes)) inserted.2 <;> rfl

/-- An insertion that ends inside a region panics. -/
theorem vmmInsertRange_fitted {start stop : Nat} {objects : ObjectAllocator σ} {inserted : Nat × Kernel σ}
    (listed : SpaceList objects kernel space (passed ++ rest)) (canonical : Canonical (kernel.ranges (passed ++ rest)))
    (done : vmmInsertRange objects space (passed.getLastD NULL) (rest.headD NULL) start stop flags kernel =
      .ok inserted) :
    (∀ range ∈ kernel.ranges passed, range.stop ≤ start) ∧ ∀ range ∈ kernel.ranges rest, stop ≤ range.start := by
  by_contra misfit
  obtain ⟨reason, panics⟩ := vmmInsertRange_panics listed canonical flags misfit
  rw [done] at panics
  cases panics

/-- A call that is not refused and returns has put its region between the passed regions and the others. -/
structure BetweenInserted (alloc : KernelAllocator σ) (kernel kernel' : Kernel σ) (space sizeInPages flags va ret : Nat)
    (passed rest : List Nat) : Prop where
  start : ret = u64 (va + pageSizeInBytes)
  behind : ∀ range ∈ kernel.ranges passed, range.stop ≤ ret
  after : ∀ range ∈ kernel.ranges rest, u64 (ret + u64 (sizeInPages * pageSizeInBytes)) ≤ range.start
  mapped : ∃ region middle ptrs ranges,
    Relisted alloc.toObjectAllocator kernel middle space (passed ++ rest) ptrs ranges ∧
    Inserts (kernel.ranges (passed ++ rest)) ⟨ret, u64 (ret + u64 (sizeInPages * pageSizeInBytes)), flags⟩ ranges
      (middle.region region).range ∧
    vmmMapPages alloc space region flags .vmmAllocBetweenOverwrite walkLimit ret middle = .ok kernel'

theorem vmmAllocBetween_inserted (listed : SpaceList alloc.toObjectAllocator kernel space (passed ++ rest))
    (canonical : Canonical (kernel.ranges (passed ++ rest)))
    (search : vmmAllocBetweenSearch kernel lowerVa (u64 (sizeInPages * pageSizeInBytes)) (2 * pageSizeInBytes) walkLimit
      lowerVa NULL (kernel.space space).region = .ok (va, passed.getLastD NULL, rest.headD NULL))
    (accepted : ¬upperVa ≤ u64 (va + u64 (sizeInPages * pageSizeInBytes) + 2 * pageSizeInBytes)) {ret : Nat}
    (done : vmmAllocBetween alloc space lowerVa upperVa sizeInPages flags kernel = .ok (ret, kernel')) :
    BetweenInserted alloc kernel kernel' space sizeInPages flags va ret passed rest := by
  rw [vmmAllocBetween_searched search, if_neg accepted] at done
  obtain ⟨⟨region, middle⟩, inserted, mapped⟩ := Outcome.bind_eq_ok.mp done
  have fits := vmmInsertRange_fitted listed canonical inserted
  obtain ⟨region', middle', ptrs, inserted', relisted, inside, range⟩ := vmmInsertRange_fits listed flags fits.1 fits.2
  obtain ⟨rfl, rfl⟩ := Prod.mk.inj (Except.ok.inj (inserted.symm.trans inserted'))
  dsimp only at mapped
  rw [if_neg (relisted.listed.ne_null inside)] at mapped
  obtain ⟨final, looped, same⟩ := Outcome.map_eq_ok.mp mapped
  obtain ⟨rfl, rfl⟩ := Prod.mk.inj same
  exact ⟨rfl, fits.1, fits.2, region, middle, ptrs, _, relisted,
    ⟨_, _, by rw [Kernel.ranges_append], fits.1, fits.2, rfl, range⟩, looped⟩

theorem vmmAllocBetween_coherent {ret : Nat} (coherent : Coherent alloc member lists kernel) (belongs : member space)
    (request : BetweenRequest lowerVa sizeInPages flags)
    (done : vmmAllocBetween alloc space lowerVa upperVa sizeInPages flags kernel = .ok (ret, kernel'))
    (fits : ret ≠ NULL → HalfWindow ret (ret + sizeInPages * pageSizeInBytes)) :
    ∃ lists', Coherent alloc member lists' kernel' := by
  have room := request.room
  have aligned := request.aligned
  have listed := coherent.listed belongs
  have canonical := (coherent.pages belongs).canonical
  have size : u64 (sizeInPages * pageSizeInBytes) = sizeInPages * pageSizeInBytes :=
    Nat.mod_eq_of_lt (by unfold pageSizeInBytes at *; omega)
  obtain ⟨passed, rest, va, split, search, found⟩ := coherent.gapFound belongs lowerVa
    (u64 (sizeInPages * pageSizeInBytes)) (2 * pageSizeInBytes)
  by_cases refused : upperVa ≤ u64 (va + u64 (sizeInPages * pageSizeInBytes) + 2 * pageSizeInBytes)
  · rw [vmmAllocBetween_searched search, if_pos refused] at done
    obtain ⟨-, rfl⟩ := Prod.mk.inj (Except.ok.inj done)
    exact ⟨lists, coherent⟩
  rw [← split] at listed canonical
  obtain ⟨start, behind, -, region, middle, ptrs, ranges, relisted, inserts, looped⟩ :=
    vmmAllocBetween_inserted listed canonical search refused done
  have noWrap : ret = va + pageSizeInBytes := by
    rw [start]
    apply Nat.mod_eq_of_lt
    rcases found.place with same | ⟨range, inside, same⟩
    · unfold pageSizeInBytes at *
      omega
    · have before := behind range inside
      obtain ⟨ptr, member, rfl⟩ := List.mem_map.mp inside
      have bound : (kernel.region ptr).vaStop % pageSizeInBytes = 0 ∧ (kernel.region ptr).vaStop < 2 ^ 64 :=
        coherent.stop_bounds belongs (split ▸ List.mem_append_left rest member)
      simp only [VmmRegion.range] at before same
      unfold u64 pageSizeInBytes at *
      omega
  have window := fits (by
    rw [noWrap]
    exact Nat.ne_of_gt (Nat.add_pos_right _ (by decide)))
  have stop : u64 (ret + sizeInPages * pageSizeInBytes) = ret + sizeInPages * pageSizeInBytes :=
    Nat.mod_eq_of_lt window.addressable
  rw [split] at relisted inserts
  rw [size, stop] at inserts
  exact ⟨_, coherent.allocate belongs window request.flags relisted inserts looped⟩

end

/-- A created space is a new one without regions, and its root is planted beside the roots of the others. -/
structure SpaceCreated (alloc : KernelAllocator σ) (member : Nat → Prop) (kernel kernel' : Kernel σ) (space : Nat) :
    Prop where
  unknown : ¬member space
  regions : kernel'.region = kernel.region
  spaces : ∀ {other}, member other → kernel'.space other = kernel.space other
  head : (kernel'.space space).region = NULL
  live : ∀ type ptr, alloc.live kernel'.env type ptr ↔
    alloc.live kernel.env type ptr ∨ type = .vmmSpace ∧ ptr = space
  planted : ∃ started, started.word = kernel.word ∧ started.root = kernel.root ∧
    (∀ frame, alloc.held started.env frame ↔ alloc.held kernel.env frame) ∧
    RootSet alloc.toFrameAllocator member (fun other => member other ∨ other = space) started kernel' space

theorem SpaceCreated.tables (made : SpaceCreated alloc member kernel kernel' space) :
    PageTables alloc.toFrameAllocator (fun other => member other ∨ other = space) kernel' := by
  obtain ⟨_, -, -, -, planted⟩ := made.planted
  exact planted.tables

/-- No page of a created space is mapped. -/
theorem SpaceCreated.leaf_self (made : SpaceCreated alloc member kernel kernel' space) (va : Nat) :
    mmuLeaf space va kernel' = 0 := by
  obtain ⟨_, -, -, -, planted⟩ := made.planted
  exact planted.self va

theorem SpaceCreated.leaf_other (made : SpaceCreated alloc member kernel kernel' space) {other : Nat}
    (belongs : member other) (va : Nat) : mmuLeaf other va kernel' = mmuLeaf other va kernel := by
  obtain ⟨started, word, root, -, planted⟩ := made.planted
  have different : other ≠ space := fun same => made.unknown (same ▸ belongs)
  exact (planted.other (Or.inl belongs) different).trans (mmuLeaf_congr word (congrFun root other))

theorem SpaceCreated.ranges_eq (made : SpaceCreated alloc member kernel kernel' space) (ptrs : List Nat) :
    kernel'.ranges ptrs = kernel.ranges ptrs :=
  Kernel.ranges_congr fun ptr _ => by rw [made.regions]

/-- The regions of the other spaces stay listed. -/
theorem SpaceCreated.listed_other (made : SpaceCreated alloc member kernel kernel' space) {other : Nat}
    (belongs : member other) (listed : SpaceList alloc.toObjectAllocator kernel other ptrs) :
    SpaceList alloc.toObjectAllocator kernel' other ptrs := by
  refine ⟨?_, ?_, listed.distinct, fun ptr inside => (made.live _ _).mpr (Or.inl (listed.live ptr inside))⟩
  · rw [made.spaces belongs]
    exact listed.head
  · rw [made.regions]
    exact listed.linked

theorem SpaceCreated.listed_self (made : SpaceCreated alloc member kernel kernel' space) :
    SpaceList alloc.toObjectAllocator kernel' space [] :=
  ⟨made.head, trivial, List.nodup_nil, fun _ inside => absurd inside List.not_mem_nil⟩

theorem SpaceCreated.created (made : SpaceCreated alloc member kernel kernel' space)
    (created : ∀ {other}, member other → alloc.live kernel.env .vmmSpace other) {other : Nat}
    (belongs : member other ∨ other = space) : alloc.live kernel'.env .vmmSpace other := by
  rcases belongs with belongs | rfl
  · exact (made.live _ _).mpr (Or.inl (created belongs))
  · exact (made.live _ _).mpr (Or.inr ⟨rfl, rfl⟩)

/-- Over an allocator that obeys the contract, a creation faults only when the root has no frame. -/
theorem vmmCreateSpace_calls (alloc : KernelAllocator σ) (vaStart vaStop : Nat) (kernel : Kernel σ) :
    vmmCreateSpace alloc vaStart vaStop kernel =
      (let (space, env) := alloc.blockAlloc .vmmSpace kernel.env
      mmuInit alloc.toFrameAllocator space ({ kernel with env := env }.setHead space NULL) >>= fun kernel =>
        .ok (space, kernel)) := rfl

/-- The creation of a space faults only with the frame allocator. -/
theorem vmmCreateSpace_fault {vaStart vaStop : Nat} {fault : Fault}
    (faults : vmmCreateSpace alloc vaStart vaStop kernel = .error fault) : ∃ env, alloc.pmmXalloc env = .error fault := by
  rw [vmmCreateSpace_calls] at faults
  unfold mmuInit at faults
  rcases Outcome.bind_eq_error.mp faults with first | ⟨final, -, second⟩
  · rcases Outcome.bind_eq_error.mp first with exhausted | ⟨result, -, rest⟩
    · exact ⟨_, exhausted⟩
    · cases rest
  · cases second

/-- A returning creation allocates the space and plants its root. -/
theorem vmmCreateSpace_created {vaStart vaStop : Nat} (tables : PageTables alloc.toFrameAllocator member kernel)
    (created : ∀ {other}, member other → alloc.live kernel.env .vmmSpace other)
    (done : vmmCreateSpace alloc vaStart vaStop kernel = .ok (space, kernel')) :
    SpaceCreated alloc member kernel kernel' space := by
  rw [vmmCreateSpace_calls] at done
  obtain ⟨final, initialised, done⟩ := Outcome.bind_eq_ok.mp done
  obtain ⟨named, rfl⟩ := Prod.mk.inj (Except.ok.inj done)
  have alive := alloc.alloc_live .vmmSpace kernel.env
  have fresh := alloc.alloc_fresh .vmmSpace kernel.env
  have held := alloc.alloc_held .vmmSpace kernel.env
  rw [named] at alive fresh initialised
  have unknown : ¬member space := fun belongs => fresh (created belongs)
  have only : ∀ other, member other ∨ other = space → other ≠ space → member other :=
    fun other belongs different => belongs.resolve_right different
  generalize (alloc.blockAlloc .vmmSpace kernel.env).2 = env at *
  have root : (({ kernel with env := env } : Kernel σ).setHead space NULL).root = kernel.root := by
    funext other
    by_cases same : other = space
    · subst same
      simp [Kernel.root, Kernel.setHead]
    · simp [Kernel.root, Kernel.setHead, same]
  have started : PageTables alloc.toFrameAllocator member ({ kernel with env := env }.setHead space NULL) :=
    tables.transport rfl root held
  have planted := mmuInit_rootSet started only initialised
  refine ⟨unknown, planted.regions, ?_, ?_, fun type ptr => (planted.env.alive type ptr).trans (alive type ptr),
    { kernel with env := env }.setHead space NULL, rfl, root, held, planted⟩
  · intro other belongs
    have different : other ≠ space := fun same => unknown (same ▸ belongs)
    rw [planted.spaces other different]
    exact Function.update_of_ne different _ _
  · rw [planted.list]
    simp [Kernel.setHead]

/-- A new space starts without regions and without mapped pages. -/
theorem vmmCreateSpace_coherent {vaStart vaStop : Nat} (coherent : Coherent alloc member lists kernel)
    (done : vmmCreateSpace alloc vaStart vaStop kernel = .ok (space, kernel')) :
    ¬member space ∧ Coherent alloc (fun other => member other ∨ other = space)
      (Function.update lists space []) kernel' := by
  have made := vmmCreateSpace_created coherent.backing.tables coherent.created done
  have cases : ∀ {other}, member other ∨ other = space → member other ∧
      Function.update lists space [] other = lists other ∨
      other = space ∧ Function.update lists space [] other = [] := by
    rintro other (belongs | rfl)
    · have different : other ≠ space := fun same => made.unknown (same ▸ belongs)
      exact Or.inl ⟨belongs, Function.update_of_ne different _ _⟩
    · exact Or.inr ⟨rfl, Function.update_self _ _ _⟩
  refine ⟨made.unknown, ?_, made.created coherent.created, ?_, ?_, ?_, ?_⟩
  · obtain ⟨started, word, root, held, planted⟩ := made.planted
    exact (coherent.backing.transport word root held).plant planted
      fun other belongs different => belongs.resolve_right different
  · intro other belongs
    rcases cases belongs with ⟨old, same⟩ | ⟨rfl, same⟩
    · rw [same]
      exact made.listed_other old (coherent.listed old)
    · rw [same]
      exact made.listed_self
  · intro first second belongs belongs' different
    rcases cases belongs with ⟨old, same⟩ | ⟨-, same⟩
    · rcases cases belongs' with ⟨old', same'⟩ | ⟨-, same'⟩
      · rw [same, same']
        exact coherent.apart old old' different
      · rw [same']
        exact List.disjoint_nil_right _
    · rw [same]
      exact List.disjoint_nil_left _
  · intro other belongs
    rw [made.ranges_eq]
    rcases cases belongs with ⟨old, same⟩ | ⟨-, same⟩
    · rw [same]
      exact coherent.pages old
    · rw [same]
      exact wholePages_nil
  · intro other va flags belongs page
    rw [made.ranges_eq]
    rcases cases belongs with ⟨old, same⟩ | ⟨rfl, same⟩
    · rw [same, made.leaf_other old]
      exact coherent.mapped old page
    · rw [same, made.leaf_self]
      simp

end

end B0s
