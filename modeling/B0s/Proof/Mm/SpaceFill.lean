import B0s.Proof.Mm.Coherent
import B0s.Proof.Mm.FrameReserve

/-
This file proves how a new space is filled page by page.
-/

namespace B0s
open DoublyLinked RangeMap TableForest

variable {σ : Type}

/-- A call changes page tables only, and it takes frames for them. -/
structure TablesOnly (alloc : KernelAllocator σ) (kernel kernel' : Kernel σ) : Prop where
  regions : kernel'.region = kernel.region
  spaces : kernel'.space = kernel.space
  env : alloc.toFrameAllocator.Grows kernel.env kernel'.env

theorem TablesOnly.trans {alloc : KernelAllocator σ} {first second third : Kernel σ}
    (one : TablesOnly alloc first second) (two : TablesOnly alloc second third) : TablesOnly alloc first third :=
  ⟨two.regions.trans one.regions, two.spaces.trans one.spaces, one.env.trans two.env⟩

/-- A space that is being filled has these leaf entries, and the frames last for the tables that it still needs. -/
structure Filling (alloc : KernelAllocator σ) (space : Nat) (all : Finset (List (Fin 512))) (entry : Nat → Nat)
    (kernel : Kernel σ) : Prop where
  tables : PageTables alloc.toFrameAllocator (· = space) kernel
  created : alloc.live kernel.env .vmmSpace space
  leaf : ∀ {va}, CanonicalPage va → mmuLeaf space va kernel = entry va
  demand : ∃ made, (∀ path : List (Fin 512), path.length ≤ 3 → path ≠ [] →
    (kernel.Missing space path ↔ path ∉ made)) ∧ alloc.Lasts (all \ made).card kernel.env

section
variable {alloc : KernelAllocator σ} {space : Nat} {all : Finset (List (Fin 512))} {entry : Nat → Nat}
  {kernel kernel' : Kernel σ}

/-- A change of the region list keeps the filling. -/
theorem Filling.relisted {ptrs : List Nat} (filling : Filling alloc space all entry kernel)
    (frame : RegionFrame alloc.toObjectAllocator kernel kernel' space ptrs) :
    Filling alloc space all entry kernel' := by
  obtain ⟨made, missing, lasts⟩ := filling.demand
  refine ⟨filling.tables.transport frame.word frame.root frame.env.held, (frame.created space).mpr filling.created, ?_,
    made, ?_, lasts.records frame.env.records⟩
  · intro va page
    rw [mmuLeaf_congr frame.word (congrFun frame.root space)]
    exact filling.leaf page
  · intro path short nonempty
    rw [← missing path short nonempty, Kernel.Missing, Kernel.Missing, frame.word, frame.root]

/-- An empty page is mapped while the frames last. -/
theorem Filling.map (filling : Filling alloc space all entry kernel) (pa : Nat) {va perm : Nat} (page : CanonicalPage va)
    (needed : walkTables va ⊆ all) (empty : entry va = 0) (small : perm < pageSizeInBytes) :
    ∃ kernel', mmuMapPage alloc.toFrameAllocator space va pa perm kernel = .ok (0, kernel') ∧
      TablesOnly alloc kernel kernel' ∧ Filling alloc space all (Function.update entry va (pa ||| perm)) kernel' := by
  obtain ⟨made, missing, lasts⟩ := filling.demand
  have absent : (walkTables va).filter (kernel.Missing space) = walkTables va \ made := by
    ext path
    rw [Finset.mem_filter, Finset.mem_sdiff]
    refine and_congr_right fun passed => ?_
    exact missing path (walkTables_length passed) (walkTables_ne_nil passed)
  have count : (all \ made).card = (all \ (walkTables va ∪ made)).card + (walkTables va \ made).card := by
    have split : all \ made = all \ (walkTables va ∪ made) ∪ walkTables va \ made := by
      ext path
      have inside := @needed path
      simp only [Finset.mem_sdiff, Finset.mem_union]
      tauto
    have apart : Disjoint (all \ (walkTables va ∪ made)) (walkTables va \ made) := by
      apply Finset.disjoint_left.mpr
      intro path outside inside
      simp only [Finset.mem_sdiff, Finset.mem_union] at outside inside
      tauto
    rw [split, Finset.card_union_of_disjoint apart]
  rw [count, ← absent] at lasts
  obtain ⟨⟨old, final⟩, mapped, left⟩ := mmuMapPage_lasts filling.tables rfl small lasts
  obtain ⟨oldLeaf, set⟩ := mmuMapPage_leafSet filling.tables rfl page small mapped
  have adds := mmuMapPage_adds filling.tables rfl small mapped
  obtain rfl : old = 0 := by rw [oldLeaf, filling.leaf page, empty]
  refine ⟨final, mapped, ⟨set.regions, set.spaces, set.env⟩, set.tables,
    (set.env.alive _ _).mpr filling.created, ?_, walkTables va ∪ made, ?_, left⟩
  · intro other page'
    by_cases same : other = va
    · subst same
      rw [Function.update_self]
      exact set.self
    · rw [Function.update_of_ne same, set.other rfl page' fun both => same both.2, filling.leaf page']
  · intro path short nonempty
    rw [adds path short, missing path short nonempty, Finset.mem_union]
    tauto

/-- Only the entries of canonical pages matter. -/
theorem Filling.congr (filling : Filling alloc space all entry kernel) {entry' : Nat → Nat}
    (same : ∀ va, CanonicalPage va → entry va = entry' va) : Filling alloc space all entry' kernel :=
  ⟨filling.tables, filling.created, fun page => (filling.leaf page).trans (same _ page), filling.demand⟩

end

section
variable {objects : ObjectAllocator σ} {kernel : Kernel σ} {space vaStart vaStop flags : Nat} {ptrs : List Nat}

/-- A range behind all regions, which joins none of them, gets a region of its own at the end of the list. -/
theorem vmmAddRange_behind (listed : SpaceList objects kernel space ptrs) (canonical : Canonical (kernel.ranges ptrs))
    (bounded : kernel.Bounded ptrs) (nonempty : vaStart < vaStop)
    (behind : ∀ range ∈ kernel.ranges ptrs, range.stop ≤ vaStart)
    (unjoined : ∀ last, ptrs.getLast? = some last → ¬(kernel.region last).range.Joins ⟨vaStart, vaStop, flags⟩) :
    ∃ region kernel', vmmAddRange objects space vaStart vaStop flags kernel = .ok (region, kernel') ∧
      Relisted objects kernel kernel' space ptrs (ptrs ++ [region]) (kernel.ranges ptrs ++ [⟨vaStart, vaStop, flags⟩]) := by
  rcases created : createRegion objects space vaStart vaStop flags (ptrs.getLastD NULL) NULL kernel
    with ⟨region, kernel'⟩
  have end' : SpaceList objects kernel space (ptrs ++ []) := by rwa [List.append_nil]
  have relisted := createRegion_relisted end' created
  rw [List.append_nil] at relisted
  refine ⟨region, kernel', ?_, relisted⟩
  unfold vmmAddRange
  rw [listed.head]
  cases ptrs with
  | nil => exact (if_pos rfl).trans (congrArg Except.ok created)
  | cons head rest =>
      have nonnull : head ≠ NULL := listed.ne_null (by simp)
      have whole : SpaceList objects kernel space ([] ++ head :: rest) := listed
      have vacant : kernel.Vacant ([] ++ head :: rest) vaStart vaStop := by
        rintro range member ⟨-, later⟩
        exact absurd (behind range member) (Nat.not_le.mpr later)
      obtain ⟨first, second, split, found, fits⟩ :=
        vmmAddRangeSearch_split whole canonical nonempty (bounded.length_lt canonical) (by simp)
      obtain ⟨-, after⟩ := fits vacant
      obtain rfl : second = [] := by
        cases second with
        | nil => rfl
        | cons next others =>
            have member : (kernel.region next).range ∈ kernel.ranges (head :: rest) := by
              rw [List.nil_append] at split
              rw [← split]
              exact List.mem_map.mpr ⟨next, by simp, rfl⟩
            have low := after (kernel.region next).range (by simp)
            have high := behind _ member
            have room := canonical.nonempty _ member
            omega
      obtain rfl : first = head :: rest := by simpa using split
      change vmmAddRangeSearch kernel vaStart vaStop walkLimit NULL head = _ at found
      rw [List.headD_cons, if_neg nonnull, found]
      change vmmInsertRange objects space ((head :: rest).getLastD NULL) NULL vaStart vaStop flags kernel = _
      have prevFits : ¬((head :: rest).getLastD NULL ≠ NULL ∧
          vaStart < (kernel.region ((head :: rest).getLastD NULL)).vaStop) := by
        rintro ⟨-, overlaps⟩
        rcases (head :: rest).eq_nil_or_concat' with absurd' | ⟨init, last, shape⟩
        · cases absurd'
        · rw [shape, List.getLastD_concat] at overlaps
          have bound := behind (kernel.region last).range (by rw [shape]; simp [Kernel.ranges_append])
          exact absurd bound (Nat.not_le.mpr overlaps)
      have apart : ¬((head :: rest).getLastD NULL ≠ NULL ∧ vaStart = (kernel.region ((head :: rest).getLastD NULL)).vaStop ∧
          flags = (kernel.region ((head :: rest).getLastD NULL)).flags) := by
        rintro ⟨-, touches, flagged⟩
        rcases (head :: rest).eq_nil_or_concat' with absurd' | ⟨init, last, shape⟩
        · cases absurd'
        · rw [shape, List.getLastD_concat] at touches flagged
          exact unjoined last (by rw [shape, List.getLast?_concat]) ⟨touches.symm, flagged.symm⟩
      unfold vmmInsertRange
      rw [if_neg (fun both => both.1 rfl), if_neg prevFits]
      dsimp only
      rw [if_neg (fun both => apart both.1), if_neg apart, if_neg (fun both => both.1 rfl),
        vmmCreateRegion_calls, created]

end

/-- These records list these regions of whole pages. -/
structure Windows (alloc : KernelAllocator σ) (space : Nat) (ptrs : List Nat) (ranges : List (Range Nat Nat))
    (kernel : Kernel σ) : Prop where
  listed : SpaceList alloc.toObjectAllocator kernel space ptrs
  ranges_eq : kernel.ranges ptrs = ranges
  pages : WholePages ranges

section
variable {alloc : KernelAllocator σ} {space : Nat} {ptrs : List Nat} {ranges : List (Range Nat Nat)}
  {kernel kernel' : Kernel σ}

/-- The records stay in place while their pages are mapped. -/
theorem Windows.mapped (windows : Windows alloc space ptrs ranges kernel) (only : TablesOnly alloc kernel kernel') :
    Windows alloc space ptrs ranges kernel' := by
  have listed := windows.listed
  refine ⟨⟨?_, ?_, listed.distinct, fun ptr inside => (only.env.alive _ _).mpr (listed.live ptr inside)⟩, ?_, windows.pages⟩
  · rw [only.spaces]
    exact listed.head
  · rw [only.regions]
    exact listed.linked
  · rw [← windows.ranges_eq, Kernel.ranges, Kernel.ranges, only.regions]

/-- A window behind the others gets a record of its own. -/
theorem Windows.append {all : Finset (List (Fin 512))} {entry : Nat → Nat} {start stop flags : Nat}
    (windows : Windows alloc space ptrs ranges kernel) (filling : Filling alloc space all entry kernel)
    (span : PageSpan start stop) (canonical : Canonical (ranges ++ [⟨start, stop, flags⟩])) :
    ∃ region kernel', vmmAddRange alloc.toObjectAllocator space start stop flags kernel = .ok (region, kernel') ∧
      Windows alloc space (ptrs ++ [region]) (ranges ++ [⟨start, stop, flags⟩]) kernel' ∧
      Filling alloc space all entry kernel' := by
  obtain ⟨listed, rfl, pages⟩ := windows
  obtain ⟨-, single, between, seam⟩ := (canonical_append _ _).mp canonical
  have nonempty : start < stop := single.nonempty _ List.mem_cons_self
  have behind : ∀ range ∈ kernel.ranges ptrs, range.stop ≤ start := fun range inside =>
    between range inside ⟨start, stop, flags⟩ List.mem_cons_self
  have unjoined : ∀ last, (kernel.ranges ptrs).getLast? = some last → ¬last.Joins ⟨start, stop, flags⟩ :=
    fun last final => seam last final _ rfl
  obtain ⟨region, kernel', added, relisted⟩ := vmmAddRange_behind listed pages.canonical pages.bounded nonempty behind
    fun last final => unjoined _ (by rw [Kernel.ranges, List.getLast?_map, final]; rfl)
  have apart : joined (kernel.ranges ptrs) [] ⟨start, stop, flags⟩ = ⟨start, stop, flags⟩ ∧
      insertBetween (kernel.ranges ptrs) [] ⟨start, stop, flags⟩ = kernel.ranges ptrs ++ [⟨start, stop, flags⟩] :=
    insertBetween_apart unjoined (by simp)
  have inserts : Inserts (kernel.ranges ptrs) ⟨start, stop, flags⟩
      (kernel.ranges ptrs ++ [⟨start, stop, flags⟩]) ⟨start, stop, flags⟩ :=
    ⟨_, [], (List.append_nil _).symm, behind, by simp, apart.2.symm, apart.1.symm⟩
  exact ⟨region, kernel', added, ⟨relisted.listed, relisted.ranges_eq, pages.insert span nonempty inserts⟩,
    filling.relisted relisted.frame⟩

end

/-- The regions of a space denote these addresses. -/
def Listing (alloc : KernelAllocator σ) (space : Nat) (denotes : Nat → Nat → Prop) (kernel : Kernel σ) : Prop :=
  ∃ ptrs ranges, Windows alloc space ptrs ranges kernel ∧ ∀ va flags, Denotes ranges va flags ↔ denotes va flags

section
variable {alloc : KernelAllocator σ} {space : Nat} {denotes : Nat → Nat → Prop} {kernel kernel' : Kernel σ}

/-- A change of page tables keeps the regions. -/
theorem Listing.mapped (listing : Listing alloc space denotes kernel) (only : TablesOnly alloc kernel kernel') :
    Listing alloc space denotes kernel' := by
  obtain ⟨ptrs, ranges, windows, same⟩ := listing
  exact ⟨ptrs, ranges, windows.mapped only, same⟩

/-- A window that no region meets is added to the regions. -/
theorem Listing.add {all : Finset (List (Fin 512))} {entry : Nat → Nat} {start stop : Nat}
    (listing : Listing alloc space denotes kernel) (filling : Filling alloc space all entry kernel)
    (span : PageSpan start stop) (nonempty : start < stop) (flags : Nat)
    (vacant : ∀ va flags, denotes va flags → ¬(start ≤ va ∧ va < stop)) :
    ∃ region kernel', vmmAddRange alloc.toObjectAllocator space start stop flags kernel = .ok (region, kernel') ∧
      region ≠ NULL ∧ Filling alloc space all entry kernel' ∧
      Listing alloc space (fun va flags' => start ≤ va ∧ va < stop ∧ flags = flags' ∨ denotes va flags') kernel' := by
  obtain ⟨ptrs, _, ⟨listed, rfl, pages⟩, same⟩ := listing
  have clear : kernel.Vacant ptrs start stop := by
    rintro range member ⟨before, behind⟩
    have room := pages.canonical.nonempty range member
    have point : Denotes (kernel.ranges ptrs) (max range.start start) range.flags :=
      ⟨range, member, ⟨le_max_left _ _, max_lt room behind⟩, rfl⟩
    exact vacant _ _ ((same _ _).mp point) ⟨le_max_right _ _, max_lt before nonempty⟩
  obtain ⟨region, kernel', ptrs', ranges, added, relisted, inside, inserts⟩ :=
    vmmAddRange_vacant listed pages.canonical pages.bounded nonempty flags clear
  refine ⟨region, kernel', added, relisted.listed.ne_null inside,
    filling.relisted relisted.frame, ptrs', ranges, ⟨relisted.listed, relisted.ranges_eq, pages.insert span nonempty inserts⟩, ?_⟩
  intro va flags'
  rw [inserts.denotes pages.canonical nonempty, same]
  unfold Range.Contains
  tauto

end

end B0s
