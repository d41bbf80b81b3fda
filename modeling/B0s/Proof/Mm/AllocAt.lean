import B0s.Proof.Mm.SpaceRun

/-
This file settles which calls of `vmm_alloc_at` map exactly their range.
-/

namespace B0s
open DoublyLinked RangeMap

variable {σ : Type}

section
variable {alloc : KernelAllocator σ} {member : Nat → Prop} {lists : Nat → List Nat}
  {kernel middle kernel' : Kernel σ} {space : Nat} {ptrs : List Nat} {ranges : List (Range Nat Nat)}
  {start stop flags region steps : Nat} {overwrite : Nat → Panic}

/-- The pages of a canonical window without regions are free. -/
theorem Coherent.windowFree (coherent : Coherent alloc member lists kernel) (belongs : member space)
    (window : HalfWindow start stop) (vacant : kernel.Vacant (lists space) start stop) :
    WindowFree kernel space start stop := by
  have span := window.span
  have pages := coherent.pages belongs
  refine ⟨?_, ?_⟩
  · intro va page
    have canonical := span.pages va page.lower page.upper page.aligned
    by_contra mapped
    have denoted := (coherent.mapped belongs canonical).mpr ⟨mapped, rfl⟩
    exact (pages.canonical.vacant_iff window.nonempty).mp vacant va page.lower page.upper _ denoted
  · intro va va' page page' same
    rw [(span.pages va page.lower page.upper page.aligned).walkPage,
      (span.pages va' page'.lower page'.upper page'.aligned).walkPage] at same
    exact same

/-- Mapped pages had free walks. -/
theorem PagesMapped.windowFree (mapped : PagesMapped alloc member kernel kernel' space start stop flags) :
    WindowFree kernel space start stop := by
  refine ⟨mapped.empty, ?_⟩
  intro va va' page page' same
  apply mapped.apart page page'
  rw [Kernel.frame, Kernel.frame, ← mmuLeaf_walkPage, same, mmuLeaf_walkPage]

/-- A change of the region list keeps the walks and the held frames. -/
theorem RegionFrame.windowFree (frame : RegionFrame alloc.toObjectAllocator kernel middle space ptrs)
    (free : WindowFree kernel space start stop) : WindowFree middle space start stop := by
  refine ⟨?_, free.distinct⟩
  intro va page
  rw [mmuLeaf_congr frame.word (congrFun frame.root space)]
  exact free.empty page

theorem RegionFrame.pagesMapped (frame : RegionFrame alloc.toObjectAllocator kernel middle space ptrs)
    (mapped : PagesMapped alloc member middle kernel' space start stop flags) :
    PagesMapped alloc member kernel kernel' space start stop flags := by
  have leaf : ∀ other va, mmuLeaf other va middle = mmuLeaf other va kernel := fun other va =>
    mmuLeaf_congr frame.word (congrFun frame.root other)
  refine ⟨?_, mapped.leaf, ?_, mapped.held, mapped.apart, ?_⟩
  · intro va page
    rw [← leaf]
    exact mapped.empty page
  · intro va page held
    exact mapped.fresh page ((frame.env.held _).mpr held)
  · intro other va belongs different
    rw [mapped.outside belongs different, leaf]

/-- The range that holds the new one ends at an addressable page boundary behind it. -/
theorem Coherent.inserted_stop (coherent : Coherent alloc member lists kernel) (belongs : member space)
    (aligned : stop % pageSizeInBytes = 0) (addressable : stop < 2 ^ 64) {result : Range Nat Nat}
    (inserts : Inserts (kernel.ranges (lists space)) ⟨start, stop, flags⟩ ranges result) :
    result.stop % pageSizeInBytes = 0 ∧ result.stop < 2 ^ 64 := by
  rcases inserts.stop_cases with same | ⟨other, listed, -, stops⟩
  · rw [same]
    exact ⟨aligned, addressable⟩
  · obtain ⟨ptr, inside, rfl⟩ := List.mem_map.mp listed
    rw [← stops]
    exact coherent.stop_bounds belongs inside

/-- A mapping loop that returns has not met a region behind its range, so it ends with the range. -/
theorem Coherent.unjoined (coherent : Coherent alloc member lists kernel) (belongs : member space)
    (aligned : start % pageSizeInBytes = 0) (alignedStop : stop % pageSizeInBytes = 0) (nonempty : start < stop)
    (addressable : stop < 2 ^ 64) (valid : PageFlags flags)
    (relisted : Relisted alloc.toObjectAllocator kernel middle space (lists space) ptrs ranges)
    (inserts : Inserts (kernel.ranges (lists space)) ⟨start, stop, flags⟩ ranges (middle.region region).range)
    (done : vmmMapPages alloc space region flags overwrite steps start middle = .ok kernel') :
    ∀ range ∈ kernel.ranges (lists space), ¬Range.Joins ⟨start, stop, flags⟩ range := by
  intro other listed joins
  have pages := coherent.pages belongs
  have reach := coherent.inserted_stop belongs alignedStop addressable inserts
  have mapped := (vmmMapPages_maps (coherent.backing.relisted relisted.frame) belongs aligned reach.1 reach.2 rfl
    valid done).1
  have starts : stop = other.start := joins.1
  have otherNonempty := pages.canonical.nonempty other listed
  -- The page behind the range belongs to the other region, and the loop has mapped it once more.
  have denoted : Denotes (kernel.ranges (lists space)) stop other.flags :=
    ⟨other, listed, ⟨starts.ge, starts ▸ otherNonempty⟩, rfl⟩
  have canonical := pages.pages stop _ denoted
  rw [pageOf_aligned alignedStop] at canonical
  have before := ((coherent.mapped belongs canonical).mp denoted).1
  have longer : stop < (middle.region region).range.stop := by
    rcases inserts.stop_cases with same | ⟨another, listed', joins', stops⟩
    · exact absurd joins ((inserts.stop_eq_iff pages.canonical nonempty).mp same other listed)
    · have starts' : stop = another.start := joins'.1
      rw [← stops, starts']
      exact pages.canonical.nonempty another listed'
  have empty := mapped.empty ⟨nonempty.le, longer, alignedStop⟩
  rw [mmuLeaf_congr relisted.frame.word (congrFun relisted.frame.root space)] at empty
  exact before empty

end

/-- The links of a space determine its list. -/
theorem SpaceList.eq_of_links {objects : ObjectAllocator σ} {kernel : Kernel σ} {space : Nat} {ptrs nodes : List Nat}
    (listed : SpaceList objects kernel space ptrs) (head : (kernel.space space).region = nodes.headD NULL)
    (linked : Segment (fun ptr => (kernel.region ptr).next) (fun ptr => (kernel.region ptr).prev) NULL nodes NULL)
    (nonnull : NULL ∉ nodes) : ptrs = nodes :=
  listed.linked.unique linked (listed.head.symm.trans head) (fun inside => listed.ne_null inside rfl) nonnull

theorem sixtyFour_bounded : 64 ≤ 2 ^ 52 := by decide

abbrev sixtyFourFrames : KernelAllocator Ledger := ledgerAllocator 64 sixtyFour_bounded

/-- A valid run of calls on zeroed memory ends in coherent spaces. -/
theorem coherent_of_calls {calls : List SpaceCall} {results : List Nat}
    (valid : ValidSpaceRun sixtyFourFrames.managed [] calls results)
    (ran : (runSpaceCalls sixtyFourFrames.calls calls (.zeroed ⟨[], []⟩)).toOption.map Prod.fst = some results) :
    ∃ kernel lists, runSpaceCalls sixtyFourFrames.calls calls (.zeroed ⟨[], []⟩) = .ok (results, kernel) ∧
      Coherent sixtyFourFrames (· ∈ createdSpaces [] calls results) lists kernel := by
  cases reached : runSpaceCalls sixtyFourFrames.calls calls (.zeroed ⟨[], []⟩) with
  | error fault =>
      rw [reached] at ran
      cases ran
  | ok final =>
      obtain ⟨listed, kernel⟩ := final
      rw [reached] at ran
      obtain rfl : listed = results := Option.some.inj ran
      obtain ⟨lists, coherent⟩ := (Coherent.none sixtyFourFrames (fun _ => []) (.zeroed ⟨[], []⟩)).run valid reached
      exact ⟨kernel, lists, rfl, coherent⟩

/-- A space with one region of one page. -/
def oneRegionCalls : List SpaceCall := [.create 0 0, .allocAt 1 0x12000 1 7]

theorem oneRegion_coherent : ∃ kernel lists,
    runSpaceCalls sixtyFourFrames.calls oneRegionCalls (.zeroed ⟨[], []⟩) = .ok ([1, 0x12000], kernel) ∧
      Coherent sixtyFourFrames (· ∈ [1]) lists kernel ∧ kernel.ranges (lists 1) = [⟨0x12000, 0x13000, 7⟩] := by
  have valid : ValidSpaceRun sixtyFourFrames.managed [] oneRegionCalls [1, 0x12000] :=
    ⟨trivial, ⟨by decide, by decide, ⟨by decide, by decide⟩⟩, trivial⟩
  obtain ⟨kernel, lists, reached, coherent⟩ := coherent_of_calls valid (by decide +kernel)
  have facts : (runSpaceCalls sixtyFourFrames.calls oneRegionCalls (.zeroed ⟨[], []⟩)).toOption.map
      (fun final => ((final.2.space 1).region, final.2.region 2)) =
        some (2, ⟨0x12000, 0x13000, NULL, NULL, 7⟩) := by decide +kernel
  rw [reached] at facts
  obtain ⟨head, record⟩ := Prod.mk.inj (Option.some.inj facts)
  dsimp only at head record
  have listed : lists 1 = [2] := by
    apply (coherent.listed (by decide)).eq_of_links head _ (by decide)
    simp [record]
  refine ⟨kernel, lists, reached, coherent, ?_⟩
  rw [listed, Kernel.ranges_cons, Kernel.ranges_nil, VmmRegion.range, record]

end B0s
