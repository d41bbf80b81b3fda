import B0s.Proof.Mm.PageOwner
import B0s.Proof.Mm.SpaceCopy

/-
This file couples region lists with page tables without a condition on shared frames.
-/

namespace B0s
open DoublyLinked RangeMap

variable {σ : Type}

/-- Regions and leaf entries of every member space agree. -/
structure Coupled (alloc : KernelAllocator σ) (member : Nat → Prop) (lists : Nat → List Nat) (kernel : Kernel σ) :
    Prop where
  created : ∀ {space}, member space → alloc.live kernel.env .vmmSpace space
  listed : ∀ {space}, member space → SpaceList alloc.toObjectAllocator kernel space (lists space)
  apart : ∀ {space space'}, member space → member space' → space ≠ space' →
    List.Disjoint (lists space) (lists space')
  pages : ∀ {space}, member space → WholePages (kernel.ranges (lists space))
  mapped : ∀ {space va flags}, member space → CanonicalPage va →
    (Denotes (kernel.ranges (lists space)) va flags ↔
      mmuLeaf space va kernel ≠ 0 ∧ mmuLeaf space va kernel % pageSizeInBytes = flags)

section
variable {alloc : KernelAllocator σ} {member : Nat → Prop} {own : Nat → Nat → Prop} {lists : Nat → List Nat}
  {kernel middle kernel' : Kernel σ} {space start stop flags : Nat} {ptrs : List Nat} {ranges : List (Range Nat Nat)}

/-- The pages of a region are mapped with its flags. -/
theorem Coupled.leaf_flags (coupled : Coupled alloc member lists kernel) (belongs : member space) {range : Range Nat Nat}
    (inside : range ∈ kernel.ranges (lists space)) {va : Nat} (page : WindowPage range.start range.stop va) :
    mmuLeaf space va kernel ≠ 0 ∧ mmuLeaf space va kernel % pageSizeInBytes = range.flags :=
  (coupled.mapped belongs (((coupled.pages belongs).span inside).pages va page.lower page.upper page.aligned)).mp
    ⟨range, inside, ⟨page.lower, page.upper⟩, rfl⟩

/-- A window that no region meets is unmapped. -/
theorem Coupled.leaf_vacant (coupled : Coupled alloc member lists kernel) (belongs : member space)
    (vacant : kernel.Vacant (lists space) start stop) (span : PageSpan start stop) {va : Nat}
    (page : WindowPage start stop va) : mmuLeaf space va kernel = 0 := by
  by_contra mapped
  have canonical := span.pages va page.lower page.upper page.aligned
  obtain ⟨range, inside, contains, -⟩ := (coupled.mapped belongs canonical).mpr ⟨mapped, rfl⟩
  exact vacant range inside ⟨lt_of_le_of_lt contains.1 page.upper, page.lower.trans_lt contains.2⟩

/-- A new region list and a change of its pages keep the coupling of all spaces. -/
theorem Coupled.update {change : Nat → Nat → Prop} (coupled : Coupled alloc member lists kernel)
    (belongs : member space)
    (relisted : Relisted alloc.toObjectAllocator kernel middle space (lists space) ptrs ranges)
    (changed : WindowChanged alloc member change middle kernel' space start stop) (pages : WholePages ranges)
    (mapped : ∀ va flags, CanonicalPage va → (Denotes ranges va flags ↔
      mmuLeaf space va kernel' ≠ 0 ∧ mmuLeaf space va kernel' % pageSizeInBytes = flags)) :
    Coupled alloc member (Function.update lists space ptrs) kernel' := by
  have frame := relisted.frame
  have own : kernel'.ranges ptrs = ranges := by
    rw [← relisted.ranges_eq]
    exact Kernel.ranges_congr fun ptr _ => by rw [changed.regions]
  -- The records of the other spaces lie apart from the changed list.
  have others : ∀ {other}, member other → other ≠ space → ∀ ptr ∈ lists other,
      ptr ∉ lists space ∧ alloc.live kernel.env .vmmRegion ptr := by
    intro other belongs' different ptr listed
    exact ⟨fun inside => coupled.apart belongs' belongs different listed inside,
      (coupled.listed belongs').live ptr listed⟩
  have kept : ∀ {other}, member other → other ≠ space → ∀ ptr ∈ lists other,
      kernel'.region ptr = kernel.region ptr ∧ alloc.live kernel'.env .vmmRegion ptr := by
    intro other belongs' different ptr listed
    obtain ⟨outside, alive⟩ := others belongs' different ptr listed
    obtain ⟨same, alive'⟩ := frame.region ptr alive outside
    rw [changed.regions]
    exact ⟨same, (changed.alive _ _).mpr alive'⟩
  have ranges' : ∀ {other}, member other → other ≠ space →
      kernel'.ranges (lists other) = kernel.ranges (lists other) := by
    intro other belongs' different
    exact Kernel.ranges_congr fun ptr listed => by rw [(kept belongs' different ptr listed).1]
  have fresh : ∀ {other}, member other → other ≠ space → List.Disjoint ptrs (lists other) := by
    intro other belongs' distinct ptr inside listed
    obtain ⟨outside, alive⟩ := others belongs' distinct ptr listed
    exact outside (relisted.fresh ptr inside alive)
  refine ⟨?_, ?_, ?_, ?_, ?_⟩
  · intro other belongs'
    exact (changed.alive _ _).mpr ((frame.created other).mpr (coupled.created belongs'))
  · intro other belongs'
    by_cases same : other = space
    · subst same
      rw [Function.update_self]
      have listed := relisted.listed
      refine ⟨?_, ?_, listed.distinct, fun ptr inside => (changed.alive _ _).mpr (listed.live ptr inside)⟩
      · rw [changed.spaces]
        exact listed.head
      · rw [changed.regions]
        exact listed.linked
    · rw [Function.update_of_ne same]
      have listed := coupled.listed belongs'
      refine ⟨?_, ?_, listed.distinct, fun ptr inside => (kept belongs' same ptr inside).2⟩
      · rw [changed.spaces, frame.spaces other same]
        exact listed.head
      · apply listed.linked.transport
        intro ptr inside
        exact ⟨congrArg VmmRegion.next (kept belongs' same ptr inside).1,
          congrArg VmmRegion.prev (kept belongs' same ptr inside).1⟩
  · intro first second belongsFirst belongsSecond different
    by_cases one : first = space
    · subst one
      rw [Function.update_self, Function.update_of_ne (Ne.symm different)]
      exact fresh belongsSecond (Ne.symm different)
    · rw [Function.update_of_ne one]
      by_cases two : second = space
      · subst two
        rw [Function.update_self]
        exact (fresh belongsFirst one).symm
      · rw [Function.update_of_ne two]
        exact coupled.apart belongsFirst belongsSecond different
  · intro other belongs'
    by_cases same : other = space
    · subst same
      rw [Function.update_self, own]
      exact pages
    · rw [Function.update_of_ne same, ranges' belongs' same]
      exact coupled.pages belongs'
  · intro other va flags belongs' page
    by_cases same : other = space
    · subst same
      rw [Function.update_self, own]
      exact mapped va flags page
    · have leaf : mmuLeaf other va kernel' = mmuLeaf other va kernel :=
        (changed.outside belongs' page fun inside => same inside.1).trans
          (mmuLeaf_congr frame.word (congrFun frame.root other))
      rw [Function.update_of_ne same, ranges' belongs' same, leaf]
      exact coupled.mapped belongs' page

/-- Inserting a range and filling its pages keeps the coupling. -/
theorem Coupled.fill {result : Range Nat Nat} (coupled : Coupled alloc member lists kernel) (belongs : member space)
    (span : PageSpan start stop) (nonempty : start < stop)
    (relisted : Relisted alloc.toObjectAllocator kernel middle space (lists space) ptrs ranges)
    (inserts : Inserts (kernel.ranges (lists space)) ⟨start, stop, flags⟩ ranges result)
    (changed : WindowChanged alloc member (Fills flags) middle kernel' space start stop) :
    Coupled alloc member (Function.update lists space ptrs) kernel' := by
  have pages := coupled.pages belongs
  have denotes := inserts.denotes pages.canonical nonempty
  apply coupled.update belongs relisted changed (pages.insert span nonempty inserts)
  intro va flags' page
  have before : mmuLeaf space va middle = mmuLeaf space va kernel :=
    mmuLeaf_congr relisted.frame.word (congrFun relisted.frame.root space)
  rw [denotes, coupled.mapped belongs page]
  by_cases inside : start ≤ va ∧ va < stop
  · obtain ⟨vacant, filled, permissions⟩ := changed.inside ⟨inside.1, inside.2, page.aligned⟩
    rw [before] at vacant
    have contained : Range.Contains (⟨start, stop, flags⟩ : Range Nat Nat) va := inside
    simp [contained, vacant, filled, permissions]
  · have outside := changed.outside belongs page fun window => inside window.2
    have apart : ¬Range.Contains (⟨start, stop, flags⟩ : Range Nat Nat) va := inside
    simp [apart, outside, before]

/-- Removing a window and clearing its pages keeps the coupling. -/
theorem Coupled.clear (coupled : Coupled alloc member lists kernel) (belongs : member space)
    (span : PageSpan start stop)
    (relisted : Relisted alloc.toObjectAllocator kernel middle space (lists space) ptrs ranges)
    (canonical : Canonical ranges)
    (denotes : ∀ va flags, Denotes ranges va flags ↔
      Denotes (kernel.ranges (lists space)) va flags ∧ ¬(start ≤ va ∧ va < stop))
    (changed : WindowChanged alloc member Clears middle kernel' space start stop) :
    Coupled alloc member (Function.update lists space ptrs) kernel' := by
  refine coupled.update belongs relisted changed ((coupled.pages belongs).remove span canonical denotes) ?_
  intro va flags page
  have before : mmuLeaf space va middle = mmuLeaf space va kernel :=
    mmuLeaf_congr relisted.frame.word (congrFun relisted.frame.root space)
  rw [denotes, coupled.mapped belongs page]
  by_cases inside : start ≤ va ∧ va < stop
  · have cleared := (changed.inside ⟨inside.1, inside.2, page.aligned⟩).2
    simp [inside, cleared]
  · have outside := changed.outside belongs page fun window => inside window.2
    simp [inside, outside, before]

/-- A successful addition inserts its range into a vacant window. -/
theorem Coupled.added {region : Nat} (coupled : Coupled alloc member lists kernel) (belongs : member space)
    (nonempty : start < stop)
    (added : vmmAddRange alloc.toObjectAllocator space start stop flags kernel = .ok (region, middle)) :
    ∃ ptrs ranges, Relisted alloc.toObjectAllocator kernel middle space (lists space) ptrs ranges ∧ region ≠ NULL ∧
      Inserts (kernel.ranges (lists space)) ⟨start, stop, flags⟩ ranges (middle.region region).range ∧
      kernel.Vacant (lists space) start stop := by
  have listed := coupled.listed belongs
  have pages := coupled.pages belongs
  by_cases vacant : kernel.Vacant (lists space) start stop
  · obtain ⟨region', middle', ptrs, ranges, added', relisted, inside, inserts⟩ :=
      vmmAddRange_vacant listed pages.canonical pages.bounded nonempty flags vacant
    obtain ⟨rfl, rfl⟩ := Prod.mk.inj (Except.ok.inj (added.symm.trans added'))
    exact ⟨ptrs, ranges, relisted, relisted.listed.ne_null inside, inserts, vacant⟩
  · obtain ⟨reason, panics⟩ :=
      vmmAddRange_occupied listed pages.canonical pages.bounded nonempty flags vacant
    rw [added] at panics
    cases panics

/-- A change of one region list keeps the owned pages. -/
theorem PrivatePages.relisted (pages : PrivatePages alloc.toFrameAllocator member own kernel)
    (frame : RegionFrame alloc.toObjectAllocator kernel kernel' space ptrs) :
    PrivatePages alloc.toFrameAllocator member own kernel' :=
  pages.transport frame.word frame.root frame.env.held

/-- A created space is coupled with the others, and it may own pages. -/
theorem vmmCreateSpace_coupled {own' : Nat → Nat → Prop}
    (coupled : Coupled alloc member lists kernel) (pages : PrivatePages alloc.toFrameAllocator member own kernel)
    (made : SpaceCreated alloc member kernel kernel' space)
    (belongs : ∀ {other va}, own' other va → member other ∨ other = space)
    (only : ∀ {other va}, own' other va → other ≠ space → own other va) :
    Coupled alloc (fun other => member other ∨ other = space) (Function.update lists space []) kernel' ∧
      PrivatePages alloc.toFrameAllocator (fun other => member other ∨ other = space) own' kernel' := by
  have cases : ∀ {other}, member other ∨ other = space → member other ∧
      Function.update lists space [] other = lists other ∨
      other = space ∧ Function.update lists space [] other = [] := by
    rintro other (belongs | rfl)
    · have different : other ≠ space := fun same => made.unknown (same ▸ belongs)
      exact Or.inl ⟨belongs, Function.update_of_ne different _ _⟩
    · exact Or.inr ⟨rfl, Function.update_self _ _ _⟩
  refine ⟨⟨made.created coupled.created, ?_, ?_, ?_, ?_⟩, ?_⟩
  · intro other belongs
    rcases cases belongs with ⟨old, same⟩ | ⟨rfl, same⟩
    · rw [same]
      exact made.listed_other old (coupled.listed old)
    · rw [same]
      exact made.listed_self
  · intro first second belongs belongs' different
    rcases cases belongs with ⟨old, same⟩ | ⟨-, same⟩
    · rcases cases belongs' with ⟨old', same'⟩ | ⟨-, same'⟩
      · rw [same, same']
        exact coupled.apart old old' different
      · rw [same']
        exact List.disjoint_nil_right _
    · rw [same]
      exact List.disjoint_nil_left _
  · intro other belongs
    rw [made.ranges_eq]
    rcases cases belongs with ⟨old, same⟩ | ⟨-, same⟩
    · rw [same]
      exact coupled.pages old
    · rw [same]
      exact wholePages_nil
  · intro other va flags belongs page
    rw [made.ranges_eq]
    rcases cases belongs with ⟨old, same⟩ | ⟨rfl, same⟩
    · rw [same, made.leaf_other old]
      exact coupled.mapped old page
    · rw [same, made.leaf_self]
      simp
  · obtain ⟨started, word, root, held, planted⟩ := made.planted
    exact (pages.transport word root held).plant planted belongs only

/-- A change of one region list keeps the leaf entries. -/
theorem LeavesChanged.relisted {change : Nat → Nat → Prop} {other : Nat}
    (changed : LeavesChanged member change middle kernel' space start stop)
    (frame : RegionFrame alloc.toObjectAllocator kernel middle other ptrs) :
    LeavesChanged member change kernel kernel' space start stop := by
  have leaf : ∀ space va, mmuLeaf space va middle = mmuLeaf space va kernel :=
    fun space va => mmuLeaf_congr frame.word (congrFun frame.root space)
  refine ⟨fun page => ?_, fun belongs page apart => (changed.outside belongs page apart).trans (leaf _ _)⟩
  rw [← leaf]
  exact changed.inside page

/-- The loop behind an insertion faults with the frame allocator, runs into a region that follows the window, or fills the
window with frames of its own. -/
theorem Coupled.allocate {region : Nat} {overwrite : Nat → Panic} (coupled : Coupled alloc member lists kernel)
    (pages : PrivatePages alloc.toFrameAllocator member own kernel) (belongs : member space)
    (window : HalfWindow start stop) (mine : ∀ {va}, WindowPage start stop va → own space va) (valid : PageFlags flags)
    (relisted : Relisted alloc.toObjectAllocator kernel middle space (lists space) ptrs ranges)
    (inserts : Inserts (kernel.ranges (lists space)) ⟨start, stop, flags⟩ ranges (middle.region region).range) :
    (∃ fault env, vmmMapPages alloc space region flags overwrite walkLimit start middle = .error fault ∧
      alloc.pmmXalloc env = .error fault) ∨
    (∃ va, vmmMapPages alloc space region flags overwrite walkLimit start middle = .error (.panic (overwrite va)) ∧
      ((∃ page, WindowPage start stop page ∧ mmuLeaf space page kernel ≠ 0) ∨
        ∃ range ∈ kernel.ranges (lists space), range.start = stop)) ∨
    ∃ kernel', vmmMapPages alloc space region flags overwrite walkLimit start middle = .ok kernel' ∧
      Coupled alloc member (Function.update lists space ptrs) kernel' ∧
      PrivatePages alloc.toFrameAllocator member own kernel' ∧
      LeavesChanged member (Fills flags) kernel kernel' space start stop := by
  have whole := coupled.pages belongs
  have after := whole.insert window.span window.nonempty inserts
  have leaf : ∀ va, mmuLeaf space va middle = mmuLeaf space va kernel :=
    fun va => mmuLeaf_congr relisted.frame.word (congrFun relisted.frame.root space)
  have span : PageSpan start (middle.region region).vaStop := by
    have result := after.span inserts.mem
    refine ⟨window.alignedStart, result.alignedStop, result.addressable, fun va lower => result.pages va ?_⟩
    exact (inserts.start_le whole.canonical).trans lower
  have room : stop ≤ (middle.region region).vaStop := by
    rcases inserts.stop_cases with same | ⟨other, listed, joins, stops⟩
    · exact same.ge
    · have nonempty := whole.canonical.nonempty other listed
      have starts : other.start = stop := joins.1.symm
      have stops' : (middle.region region).vaStop = other.stop := stops.symm
      omega
  have joined : stop < (middle.region region).vaStop → ∃ range ∈ kernel.ranges (lists space), range.start = stop := by
    intro further
    rcases inserts.stop_cases with same | ⟨other, listed, joins, -⟩
    · exact absurd same (Nat.ne_of_gt further)
    · exact ⟨other, listed, joins.1.symm⟩
  have blocked : stop < (middle.region region).vaStop → mmuLeaf space stop middle ≠ 0 := by
    intro further
    obtain ⟨range, listed, starts⟩ := joined further
    rw [leaf]
    exact (coupled.leaf_flags belongs listed ⟨starts.le, starts ▸ whole.canonical.nonempty range listed,
      window.alignedStop⟩).1
  have enough : (middle.region region).vaStop - start < walkLimit * pageSizeInBytes := by
    have addressable := span.addressable
    unfold walkLimit pageSizeInBytes
    omega
  rcases vmmMapPages_private (pages.relisted relisted.frame) belongs mine span valid rfl ⟨window.nonempty.le, room⟩
    window.alignedStop blocked enough with failed | ⟨va, page, occupied, failed⟩ | ⟨exact', kernel', done, changed, kept⟩
  · exact Or.inl failed
  · refine Or.inr (Or.inl ⟨va, failed, ?_⟩)
    by_cases inside : va < stop
    · exact Or.inl ⟨va, ⟨page.lower, inside, page.aligned⟩, leaf va ▸ occupied⟩
    · exact Or.inr (joined (lt_of_le_of_lt (not_lt.mp inside) page.upper))
  · refine Or.inr (Or.inr ⟨kernel', done, ?_, kept, changed.toLeavesChanged.relisted relisted.frame⟩)
    exact coupled.fill belongs window.span window.nonempty relisted inserts changed

end

end B0s
