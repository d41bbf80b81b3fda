import B0s.Proof.Mm.RegionRange
import B0s.Proof.Mm.PageLoop

/-
This file couples the region list of every space with its page tables.
-/

namespace B0s
open DoublyLinked RangeMap

variable {σ : Type}

/-- This is the first address of the page of an address. -/
def pageOf (va : Nat) : Nat := va / pageSizeInBytes * pageSizeInBytes

theorem pageOf_aligned {va : Nat} (aligned : va % pageSizeInBytes = 0) : pageOf va = va := by
  unfold pageOf pageSizeInBytes at *
  omega

/-- An aligned window holds an address exactly when it holds its page. -/
theorem contains_pageOf (flags : Nat) {start stop : Nat} (alignedStart : start % pageSizeInBytes = 0)
    (alignedStop : stop % pageSizeInBytes = 0) (va : Nat) :
    Range.Contains (⟨start, stop, flags⟩ : Range Nat Nat) va ↔
      Range.Contains (⟨start, stop, flags⟩ : Range Nat Nat) (pageOf va) := by
  unfold Range.Contains pageOf pageSizeInBytes at *
  simp only
  omega

/-- The listed regions consist of whole canonical pages. -/
structure WholePages (ranges : List (Range Nat Nat)) : Prop where
  canonical : Canonical ranges
  bounded : ∀ va flags, Denotes ranges va flags → va < 2 ^ 64 - 1
  whole : ∀ va flags, Denotes ranges va flags ↔ Denotes ranges (pageOf va) flags
  pages : ∀ va flags, Denotes ranges va flags → CanonicalPage (pageOf va)

theorem wholePages_nil : WholePages [] :=
  ⟨canonical_nil, fun va flags denoted => absurd denoted (denotes_nil va flags), fun va flags => by simp,
    fun va flags denoted => absurd denoted (denotes_nil va flags)⟩

/-- A region of whole pages ends at a page boundary. -/
theorem WholePages.stop_aligned {ranges : List (Range Nat Nat)} (pages : WholePages ranges)
    {range : Range Nat Nat} (member : range ∈ ranges) : range.stop % pageSizeInBytes = 0 := by
  by_contra unaligned
  have nonempty := pages.canonical.nonempty range member
  have last : Denotes ranges (range.stop - 1) range.flags :=
    ⟨range, member, ⟨by omega, by omega⟩, rfl⟩
  have same : pageOf (range.stop - 1) = pageOf range.stop := by
    unfold pageOf pageSizeInBytes at *
    omega
  have next := (pages.whole _ _).mp last
  rw [same] at next
  exact pages.canonical.stop_vacant member ((pages.whole _ _).mpr next)

/-- A region of whole pages is a span of canonical pages. -/
theorem WholePages.span {ranges : List (Range Nat Nat)} (pages : WholePages ranges) {range : Range Nat Nat}
    (member : range ∈ ranges) : PageSpan range.start range.stop := by
  have nonempty := pages.canonical.nonempty range member
  have first : Denotes ranges range.start range.flags := ⟨range, member, ⟨le_rfl, nonempty⟩, rfl⟩
  have last : Denotes ranges (range.stop - 1) range.flags := ⟨range, member, ⟨by omega, by omega⟩, rfl⟩
  have bounded := pages.bounded _ _ last
  refine ⟨?_, pages.stop_aligned member, by omega, ?_⟩
  · obtain ⟨other, listed, inside, -⟩ := (pages.whole _ _).mp first
    have stop := pages.stop_aligned listed
    have reaches : other.Contains range.start := by
      obtain ⟨lower, upper⟩ := inside
      unfold pageOf pageSizeInBytes at *
      exact ⟨by omega, by omega⟩
    obtain ⟨before, after, shape⟩ := List.append_of_mem member
    have same : other = range :=
      (shape ▸ pages.canonical).eq_of_contains (shape ▸ listed) ⟨le_rfl, nonempty⟩ reaches
    have lower := inside.1
    rw [same] at lower
    unfold pageOf pageSizeInBytes at *
    omega
  · intro va lower upper aligned
    have page := pages.pages va range.flags ⟨range, member, ⟨lower, upper⟩, rfl⟩
    rwa [pageOf_aligned aligned] at page

/-- Inserting a span of pages keeps the regions whole. -/
theorem WholePages.insert {ranges ranges' : List (Range Nat Nat)} (pages : WholePages ranges)
    {start stop flags : Nat} {result : Range Nat Nat} (span : PageSpan start stop)
    (nonempty : start < stop) (inserts : Inserts ranges ⟨start, stop, flags⟩ ranges' result) :
    WholePages ranges' := by
  have denotes := inserts.denotes pages.canonical nonempty
  have window := contains_pageOf flags span.alignedStart span.alignedStop
  have limit := span.addressable
  refine ⟨inserts.canonical pages.canonical nonempty, ?_, ?_, ?_⟩
  · intro va flags' denoted
    rcases (denotes va flags').mp denoted with ⟨⟨-, upper⟩, -⟩ | old
    · simp only at upper
      omega
    · exact pages.bounded va flags' old
  · intro va flags'
    rw [denotes, denotes, window va, pages.whole va]
  · intro va flags' denoted
    rcases (denotes va flags').mp denoted with ⟨inside, -⟩ | old
    · obtain ⟨lower, upper⟩ := (window va).mp inside
      exact span.pages _ lower upper (Nat.mul_mod_left _ _)
    · exact pages.pages va flags' old

/-- Removing an aligned window keeps the regions whole. -/
theorem WholePages.remove {ranges ranges' : List (Range Nat Nat)} (pages : WholePages ranges)
    {start stop : Nat} (span : PageSpan start stop) (canonical : Canonical ranges')
    (denotes : ∀ va flags, Denotes ranges' va flags ↔
      Denotes ranges va flags ∧ ¬(start ≤ va ∧ va < stop)) : WholePages ranges' := by
  have window := contains_pageOf 0 span.alignedStart span.alignedStop
  refine ⟨canonical, ?_, ?_, ?_⟩
  · intro va flags denoted
    exact pages.bounded va flags ((denotes va flags).mp denoted).1
  · intro va flags
    have same : (start ≤ va ∧ va < stop) ↔ start ≤ pageOf va ∧ pageOf va < stop := window va
    rw [denotes, denotes, pages.whole va, same]
  · intro va flags denoted
    exact pages.pages va flags ((denotes va flags).mp denoted).1

/-- Regions and leaf entries of every member space agree. -/
structure Coherent (alloc : KernelAllocator σ) (member : Nat → Prop) (lists : Nat → List Nat)
    (kernel : Kernel σ) : Prop where
  backing : Backing alloc.toFrameAllocator member kernel
  created : ∀ {space}, member space → alloc.live kernel.env .vmmSpace space
  listed : ∀ {space}, member space → SpaceList alloc.toObjectAllocator kernel space (lists space)
  apart : ∀ {space space'}, member space → member space' → space ≠ space' →
    List.Disjoint (lists space) (lists space')
  pages : ∀ {space}, member space → WholePages (kernel.ranges (lists space))
  mapped : ∀ {space va flags}, member space → CanonicalPage va →
    (Denotes (kernel.ranges (lists space)) va flags ↔
      mmuLeaf space va kernel ≠ 0 ∧ mmuLeaf space va kernel % pageSizeInBytes = flags)

section
variable {alloc : KernelAllocator σ} {member : Nat → Prop} {lists : Nat → List Nat}
  {kernel middle kernel' : Kernel σ} {space : Nat} {ptrs : List Nat} {ranges : List (Range Nat Nat)}

theorem ObjectAllocator.Reaches.held {env env' : σ}
    (reaches : alloc.toObjectAllocator.Reaches env env') (frame : Nat) :
    alloc.held env' frame ↔ alloc.held env frame := by
  induction reaches with
  | refl => exact Iff.rfl
  | alloc _ ih => exact (alloc.alloc_held _ _ _).trans ih
  | free _ ptr ih => exact (alloc.blockFree_held _ _ _ _).trans ih

/-- A change of one region list keeps every root. -/
theorem RegionFrame.root {objects : ObjectAllocator σ} {ptrs : List Nat}
    (frame : RegionFrame objects kernel kernel' space ptrs) : kernel'.root = kernel.root := by
  funext other
  by_cases same : other = space
  · subst same
    exact frame.directory
  · exact congrArg VmmSpace.pageDirectory (frame.spaces other same)

/-- A change of one region list keeps the backing. -/
theorem Backing.relisted (backing : Backing alloc.toFrameAllocator member kernel)
    (frame : RegionFrame alloc.toObjectAllocator kernel kernel' space ptrs) :
    Backing alloc.toFrameAllocator member kernel' :=
  backing.transport frame.word frame.root frame.env.held

/-- A new region list and a change of its pages keep the coupling of all spaces. -/
theorem Coherent.update {change : Nat → Nat → Prop} {start stop : Nat}
    (coherent : Coherent alloc member lists kernel) (belongs : member space)
    (relisted : Relisted alloc.toObjectAllocator kernel middle space (lists space) ptrs ranges)
    (changed : PagesChanged alloc member change middle kernel' space start stop)
    (pages : WholePages ranges)
    (mapped : ∀ va flags, CanonicalPage va → (Denotes ranges va flags ↔
      mmuLeaf space va kernel' ≠ 0 ∧ mmuLeaf space va kernel' % pageSizeInBytes = flags)) :
    Coherent alloc member (Function.update lists space ptrs) kernel' := by
  have frame := relisted.frame
  have own : kernel'.ranges ptrs = ranges := by
    rw [← relisted.ranges_eq]
    apply Kernel.ranges_congr
    intro ptr _
    rw [changed.regions]
  have others : ∀ {other}, member other → other ≠ space → ∀ ptr ∈ lists other,
      ptr ∉ lists space ∧ alloc.live kernel.env .vmmRegion ptr := by
    intro other belongs' different ptr listed
    exact ⟨fun inside => coherent.apart belongs' belongs different listed inside,
      (coherent.listed belongs').live ptr listed⟩
  have kept : ∀ {other}, member other → other ≠ space → ∀ ptr ∈ lists other,
      kernel'.region ptr = kernel.region ptr ∧ alloc.live kernel'.env .vmmRegion ptr := by
    intro other belongs' different ptr listed
    obtain ⟨outside, alive⟩ := others belongs' different ptr listed
    obtain ⟨same, alive'⟩ := frame.region ptr alive outside
    rw [changed.regions]
    exact ⟨same, (changed.alive _ _).mpr alive'⟩
  have ranges' : ∀ {other}, member other → other ≠ space →
      kernel'.ranges (lists other) = kernel.ranges (lists other) := by
    intro other belongs' different
    apply Kernel.ranges_congr
    intro ptr listed
    rw [(kept belongs' different ptr listed).1]
  have leaves : ∀ {other va}, member other → other ≠ space → CanonicalPage va →
      mmuLeaf other va kernel' = mmuLeaf other va kernel := by
    intro other va belongs' different page
    rw [changed.outside belongs' page fun inside => different inside.1]
    exact mmuLeaf_congr frame.word (congrFun frame.root other)
  refine ⟨changed.backing, ?_, ?_, ?_, ?_, ?_⟩
  · intro other belongs'
    exact (changed.alive _ _).mpr ((frame.created other).mpr (coherent.created belongs'))
  · intro other belongs'
    by_cases same : other = space
    · subst same
      rw [Function.update_self]
      have listed := relisted.listed
      refine ⟨?_, ?_, listed.distinct, fun ptr inside => (changed.alive _ _).mpr (listed.live ptr inside)⟩
      · rw [changed.spaces]
        exact listed.head
      · rw [changed.regions]
        exact listed.linked
    · rw [Function.update_of_ne same]
      have listed := coherent.listed belongs'
      refine ⟨?_, ?_, listed.distinct, fun ptr inside => (kept belongs' same ptr inside).2⟩
      · rw [changed.spaces, frame.spaces other same]
        exact listed.head
      · apply listed.linked.transport
        · intro ptr inside
          exact ⟨congrArg VmmRegion.next (kept belongs' same ptr inside).1,
            congrArg VmmRegion.prev (kept belongs' same ptr inside).1⟩
  · intro first second belongsFirst belongsSecond different
    have fresh : ∀ {other}, member other → other ≠ space → List.Disjoint ptrs (lists other) := by
      intro other belongs' distinct ptr inside listed
      obtain ⟨outside, alive⟩ := others belongs' distinct ptr listed
      exact outside (relisted.fresh ptr inside alive)
    by_cases one : first = space
    · subst one
      rw [Function.update_self, Function.update_of_ne (Ne.symm different)]
      exact fresh belongsSecond (Ne.symm different)
    · rw [Function.update_of_ne one]
      by_cases two : second = space
      · subst two
        rw [Function.update_self]
        exact (fresh belongsFirst one).symm
      · rw [Function.update_of_ne two]
        exact coherent.apart belongsFirst belongsSecond different
  · intro other belongs'
    by_cases same : other = space
    · subst same
      rw [Function.update_self, own]
      exact pages
    · rw [Function.update_of_ne same, ranges' belongs' same]
      exact coherent.pages belongs'
  · intro other va flags belongs' page
    by_cases same : other = space
    · subst same
      rw [Function.update_self, own]
      exact mapped va flags page
    · rw [Function.update_of_ne same, ranges' belongs' same, leaves belongs' same page]
      exact coherent.mapped belongs' page

/-- Inserting a range and filling its pages keeps the coupling. -/
theorem Coherent.fill {start stop flags : Nat} {result : Range Nat Nat}
    (coherent : Coherent alloc member lists kernel) (belongs : member space)
    (span : PageSpan start stop) (nonempty : start < stop)
    (relisted : Relisted alloc.toObjectAllocator kernel middle space (lists space) ptrs ranges)
    (inserts : Inserts (kernel.ranges (lists space)) ⟨start, stop, flags⟩ ranges result)
    (changed : PagesChanged alloc member (Fills flags) middle kernel' space start stop) :
    Coherent alloc member (Function.update lists space ptrs) kernel' := by
  have pages := coherent.pages belongs
  have denotes := inserts.denotes pages.canonical nonempty
  apply coherent.update belongs relisted changed (pages.insert span nonempty inserts)
  intro va flags' page
  have before : mmuLeaf space va middle = mmuLeaf space va kernel :=
    mmuLeaf_congr relisted.frame.word (congrFun relisted.frame.root space)
  rw [denotes, coherent.mapped belongs page]
  by_cases inside : start ≤ va ∧ va < stop
  · obtain ⟨vacant, filled, permissions⟩ := changed.inside va inside.1 inside.2 page.aligned
    rw [before] at vacant
    have contained : Range.Contains (⟨start, stop, flags⟩ : Range Nat Nat) va := inside
    simp [contained, vacant, filled, permissions]
  · have outside := changed.outside belongs page fun window => inside window.2
    have apart : ¬Range.Contains (⟨start, stop, flags⟩ : Range Nat Nat) va := inside
    simp [apart, outside, before]

end

end B0s
