import B0s.Proof.Mm.CoupledCall
import B0s.Proof.Mm.MmuTest

/-
This file proves that `vmm_copy_regions` copies a space beside others whose pages stay private.
-/

namespace B0s
open DoublyLinked RangeMap

variable {σ : Type}

/-- A space whose regions can be copied holds present pages at places that the copy does not own. -/
structure Copyable (alloc : KernelAllocator σ) (member : Nat → Prop) (own : Nat → Nat → Prop) (lists : Nat → List Nat)
    (kernel : Kernel σ) (dst src : Nat) : Prop where
  coupled : Coupled alloc member lists kernel
  source : member src
  target : member dst
  different : src ≠ dst
  present : ∀ range ∈ kernel.ranges (lists src), range.flags % 2 = 1
  foreign : ∀ {va flags}, Denotes (kernel.ranges (lists src)) va flags → ¬own dst va

/-- The passed regions of the source are copied, and the other spaces are as before. -/
structure Copying (alloc : KernelAllocator σ) (member : Nat → Prop) (own : Nat → Nat → Prop) (lists : Nat → List Nat)
    (kernel middle : Kernel σ) (dst src : Nat) (passed : List Nat) (lists' : Nat → List Nat) : Prop where
  coexist : Coexist alloc member own lists' middle
  others : ∀ other, other ≠ dst → lists' other = lists other
  records : ∀ ptr ∈ lists src, middle.region ptr = kernel.region ptr
  ranges : middle.ranges (lists' dst) = kernel.ranges passed
  kept : ∀ {space va}, member space → space ≠ dst → CanonicalPage va →
    mmuLeaf space va middle = mmuLeaf space va kernel
  leaf : ∀ {va flags}, CanonicalPage va → Denotes (kernel.ranges passed) va flags →
    mmuLeaf dst va middle = pageAddr (mmuLeaf src va kernel) ||| flags

section
variable {alloc : KernelAllocator σ} {member : Nat → Prop} {own : Nat → Nat → Prop} {lists lists' : Nat → List Nat}
  {kernel middle : Kernel σ} {dst src : Nat} {passed rest : List Nat} {ptr : Nat}

/-- The flags of a source region are the permission bits of an entry. -/
theorem Copyable.flags (copyable : Copyable alloc member own lists kernel dst src) {range : Range Nat Nat}
    (inside : range ∈ kernel.ranges (lists src)) : PageFlags range.flags := by
  have whole := copyable.coupled.pages copyable.source
  have nonempty := whole.canonical.nonempty range inside
  have leaf := copyable.coupled.leaf_flags copyable.source inside
    (.first (whole.span inside).alignedStart nonempty)
  refine ⟨?_, copyable.present range inside⟩
  rw [← leaf.2]
  exact Nat.mod_lt _ (by decide)

/-- The next region of the source is copied behind the others, or the frame allocator faults. -/
theorem Copying.step (copyable : Copyable alloc member own lists kernel dst src)
    (copying : Copying alloc member own lists kernel middle dst src passed lists')
    (split : passed ++ ptr :: rest = lists src) :
    ∃ copy added, vmmAddRange alloc.toObjectAllocator dst (middle.region ptr).vaStart (middle.region ptr).vaStop
        (middle.region ptr).flags middle = .ok (copy, added) ∧ copy ≠ NULL ∧
      ((∃ fault env, mmuCopyPages alloc dst src ptr walkLimit (added.region ptr).vaStart added = .error fault ∧
          alloc.pmmXalloc env = .error fault) ∨
        ∃ final lists'', mmuCopyPages alloc dst src ptr walkLimit (added.region ptr).vaStart added = .ok final ∧
          Copying alloc member own lists kernel final dst src (passed ++ [ptr]) lists'') := by
  have valid' := @copyable.flags
  obtain ⟨coupled, source, target, different, -, foreign⟩ := copyable
  have whole := coupled.pages source
  have listed : ptr ∈ lists src := split ▸ List.mem_append_right _ List.mem_cons_self
  have record := copying.records ptr listed
  have inside : (kernel.region ptr).range ∈ kernel.ranges (lists src) := List.mem_map.mpr ⟨ptr, listed, rfl⟩
  have span : PageSpan (kernel.region ptr).vaStart (kernel.region ptr).vaStop := whole.span inside
  have nonempty : (kernel.region ptr).vaStart < (kernel.region ptr).vaStop := whole.canonical.nonempty _ inside
  have valid : PageFlags (kernel.region ptr).flags := valid' inside
  have shape : kernel.ranges (lists src) = kernel.ranges passed ++ (kernel.region ptr).range :: kernel.ranges rest := by
    rw [← split, Kernel.ranges_append, Kernel.ranges_cons]
  have canonical : Canonical (kernel.ranges passed ++ [(kernel.region ptr).range]) := by
    have canonical := whole.canonical
    rw [shape, List.append_cons] at canonical
    exact ((canonical_append _ _).mp canonical).1
  have before : ∀ range ∈ kernel.ranges passed, range.stop ≤ (kernel.region ptr).vaStart := by
    intro range earlier
    have canonical := whole.canonical
    rw [shape] at canonical
    exact canonical.before_le earlier
  have vacant : middle.Vacant (lists' dst) (kernel.region ptr).vaStart (kernel.region ptr).vaStop := by
    intro range earlier meets
    rw [copying.ranges] at earlier
    exact absurd meets.2 (not_lt.mpr (before range earlier))
  have copies := copying.coexist.coupled.pages target
  obtain ⟨copy, added, ptrs, ranges, call, relisted, new, inserts⟩ :=
    vmmAddRange_vacant (copying.coexist.coupled.listed target) copies.canonical copies.bounded nonempty
      (kernel.region ptr).flags vacant
  have appended := inserts
  rw [copying.ranges] at appended
  obtain rfl := appended.concat canonical
  have leafAdded : ∀ space va, mmuLeaf space va added = mmuLeaf space va middle :=
    fun space va => mmuLeaf_congr relisted.frame.word (congrFun relisted.frame.root space)
  have same : lists' src = lists src := copying.others src different
  -- The records of the source are none of the copies.
  have apart : ∀ other ∈ lists src, other ∉ lists' dst := fun other member copied =>
    copying.coexist.coupled.apart source target different (same ▸ member) copied
  have recordAdded : ∀ other ∈ lists src, added.region other = kernel.region other := by
    intro other member
    have alive := (copying.coexist.coupled.listed source).live other (same ▸ member)
    exact (relisted.frame.region other alive (apart other member)).1.trans (copying.records other member)
  have pages : ∀ {va}, WindowPage (kernel.region ptr).vaStart (kernel.region ptr).vaStop va → CanonicalPage va :=
    fun page => span.pages _ page.lower page.upper page.aligned
  have mapped : ∀ {va}, WindowPage (kernel.region ptr).vaStart (kernel.region ptr).vaStop va →
      mmuLeaf src va added = mmuLeaf src va kernel ∧ mmuLeaf src va kernel ≠ 0 := fun page =>
    ⟨(leafAdded _ _).trans (copying.kept source different (pages page)), (coupled.leaf_flags source inside page).1⟩
  have free : ∀ {va}, WindowPage (kernel.region ptr).vaStart (kernel.region ptr).vaStop va →
      mmuLeaf dst va added = 0 := fun page =>
    (leafAdded _ _).trans (copying.coexist.coupled.leaf_vacant target vacant span page)
  have enough : (kernel.region ptr).vaStop - (kernel.region ptr).vaStart < walkLimit * pageSizeInBytes := by
    have addressable := span.addressable
    unfold walkLimit pageSizeInBytes
    omega
  have private' := copying.coexist.pages.relisted relisted.frame
  have start : (added.region ptr).vaStart = (kernel.region ptr).vaStart := by rw [recordAdded ptr listed]
  rw [record]
  refine ⟨copy, added, call, relisted.listed.ne_null new, ?_⟩
  rw [start]
  rcases mmuCopyPages_copies private'.tables source target different span valid (by rw [recordAdded ptr listed])
    (by rw [recordAdded ptr listed]) (fun page => by rw [(mapped page).1]; exact (mapped page).2) free enough with
    failed | ⟨final, done, copied⟩
  · exact Or.inl failed
  have elsewhere : ∀ {va}, WindowPage (kernel.region ptr).vaStart (kernel.region ptr).vaStop va → ¬own dst va :=
    fun page => foreign ⟨_, inside, ⟨page.lower, page.upper⟩, rfl⟩
  have final' := mmuCopyPages_private private' target elsewhere span valid.small (by rw [recordAdded ptr listed])
    (by rw [recordAdded ptr listed]) done
  have changed : WindowChanged alloc member (Fills (kernel.region ptr).flags) added final dst (kernel.region ptr).vaStart
      (kernel.region ptr).vaStop := by
    refine ⟨⟨fun page => ?_, copied.outside⟩, copied.regions, copied.spaces, copied.env.alive⟩
    rw [free page, copied.copied page]
    exact valid.fills (pageAddr_aligned _)
  have outside : ∀ {space va}, member space → CanonicalPage va →
      ¬(space = dst ∧ (kernel.region ptr).vaStart ≤ va ∧ va < (kernel.region ptr).vaStop) →
      mmuLeaf space va final = mmuLeaf space va middle :=
    fun known page apart => (copied.outside known page apart).trans (leafAdded _ _)
  refine Or.inr ⟨final, Function.update lists' dst ptrs, done,
    ⟨copying.coexist.coupled.fill target span nonempty relisted inserts changed, final'⟩, ?_, ?_, ?_, ?_, ?_⟩
  · intro other distinct
    rw [Function.update_of_ne distinct]
    exact copying.others other distinct
  · intro other member
    rw [copied.regions]
    exact recordAdded other member
  · rw [Function.update_self, Kernel.ranges_append, Kernel.ranges_cons, Kernel.ranges_nil]
    refine Eq.trans (Kernel.ranges_congr fun copy _ => ?_) relisted.ranges_eq
    rw [copied.regions]
  · intro space va known other page
    rw [outside known page fun same => other same.1]
    exact copying.kept known other page
  · intro va flags page denoted
    rw [Kernel.ranges_append, denotes_append] at denoted
    rcases denoted with earlier | here
    · have leaf := copying.leaf page earlier
      obtain ⟨range, member, contains, -⟩ := earlier
      rw [outside target page, leaf]
      rintro ⟨-, lower, -⟩
      exact absurd contains.2 (not_lt.mpr ((before range member).trans lower))
    · rw [Kernel.ranges_cons, Kernel.ranges_nil, denotes_cons] at here
      obtain ⟨contains, rfl⟩ := here.resolve_right fun none => by simp at none
      have window : WindowPage (kernel.region ptr).vaStart (kernel.region ptr).vaStop va :=
        ⟨contains.1, contains.2, page.aligned⟩
      rw [copied.copied window, (mapped window).1]
      rfl

/-- The loop over the regions copies all that are left, or the frame allocator faults. -/
theorem Copying.run {steps : Nat} (copyable : Copyable alloc member own lists kernel dst src)
    (copying : Copying alloc member own lists kernel middle dst src passed lists') (split : passed ++ rest = lists src)
    (enough : rest.length < steps) :
    (∃ fault env, vmmCopyRegionList alloc dst src steps (rest.headD NULL) middle = .error fault ∧
      alloc.pmmXalloc env = .error fault) ∨
    ∃ kernel' lists'', vmmCopyRegionList alloc dst src steps (rest.headD NULL) middle = .ok kernel' ∧
      Copying alloc member own lists kernel kernel' dst src (lists src) lists'' := by
  induction steps generalizing rest passed lists' middle with
  | zero => omega
  | succ steps ih =>
      have linked := (copyable.coupled.listed copyable.source).linked
      cases rest with
      | nil =>
          obtain rfl : passed = lists src := by simpa using split
          exact Or.inr ⟨middle, lists', by simp [vmmCopyRegionList], copying⟩
      | cons ptr rest =>
          have listed : ptr ∈ lists src := split ▸ List.mem_append_right _ List.mem_cons_self
          have nonnull : ptr ≠ NULL := (copyable.coupled.listed copyable.source).ne_null listed
          obtain ⟨copy, added, call, taken, step⟩ := copying.step copyable split
          rw [List.headD_cons, vmmCopyRegionList, if_neg nonnull, call]
          simp only [bind, Except.bind, if_neg taken]
          rcases step with ⟨fault, env, failed, exhausted⟩ | ⟨final, lists'', done, copying'⟩
          · exact Or.inl ⟨fault, env, by rw [failed], exhausted⟩
          · rw [← split] at linked
            have next : (final.region ptr).next = rest.headD NULL := by
              rw [copying'.records ptr listed]
              exact linked.links_at.1
            rw [done]
            simp only [next]
            apply ih copying' (by rw [← split]; simp)
            rw [List.length_cons] at enough
            omega

/-- The copy of a space into an empty one faults with the frame allocator, or it has the same regions and leads to the
same frames. -/
theorem vmmCopyRegions_coexist (copyable : Copyable alloc member own lists kernel dst src)
    (pages : PrivatePages alloc.toFrameAllocator member own kernel) (empty : lists dst = []) :
    (∃ fault env, vmmCopyRegions alloc dst src kernel = .error fault ∧ alloc.pmmXalloc env = .error fault) ∨
    ∃ kernel' lists', vmmCopyRegions alloc dst src kernel = .ok kernel' ∧
      Copying alloc member own lists kernel kernel' dst src (lists src) lists' := by
  have coupled := copyable.coupled
  have listed := coupled.listed copyable.source
  have whole := coupled.pages copyable.source
  have start : Copying alloc member own lists kernel kernel dst src [] lists := by
    refine ⟨⟨coupled, pages⟩, fun _ _ => rfl, fun _ _ => rfl, by rw [empty], fun _ _ _ => rfl, ?_⟩
    intro va flags _ denoted
    exact absurd denoted (denotes_nil va flags)
  rw [vmmCopyRegions, listed.head]
  exact start.run copyable (List.nil_append _) (Kernel.Bounded.length_lt whole.bounded whole.canonical)

/-- After the copy every page of the target leads to the frame of the source with the same flags. -/
theorem Copying.leaf_copy (copyable : Copyable alloc member own lists kernel dst src)
    (copying : Copying alloc member own lists kernel middle dst src (lists src) lists') {va : Nat}
    (page : CanonicalPage va) :
    mmuLeaf dst va middle = pageAddr (mmuLeaf src va kernel) ||| mmuLeaf src va kernel % pageSizeInBytes := by
  by_cases mapped : mmuLeaf src va kernel = 0
  · have none : mmuLeaf dst va middle = 0 := by
      by_contra present
      have denoted := (copying.coexist.coupled.mapped copyable.target page).mpr ⟨present, rfl⟩
      rw [copying.ranges] at denoted
      exact ((copyable.coupled.mapped copyable.source page).mp denoted).1 mapped
    rw [none, mapped]
    rfl
  · exact copying.leaf page ((copyable.coupled.mapped copyable.source page).mpr ⟨mapped, rfl⟩)

/-- The check that compares the copy with its source passes. -/
theorem Copying.compares (copyable : Copyable alloc member own lists kernel dst src)
    (copying : Copying alloc member own lists kernel middle dst src (lists src) lists') :
    mmuTestCompareMapping src dst middle = .ok () := by
  have coupled := copying.coexist.coupled
  have same : lists' src = lists src := copying.others src copyable.different
  have kept : middle.ranges (lists' src) = kernel.ranges (lists src) := by
    rw [same]
    exact Kernel.ranges_congr fun ptr member => by rw [copying.records ptr member]
  refine (mmuTestCompareMapping_decides (coupled.listed copyable.source) (coupled.listed copyable.target)
    (coupled.pages copyable.source)).ok_iff.mpr ⟨kept.trans copying.ranges.symm, ?_⟩
  intro range inside va window
  have page := ((coupled.pages copyable.source).span inside).pages va window.lower window.upper window.aligned
  have mapped := (coupled.leaf_flags copyable.source inside window).1
  have valid : PageFlags range.flags := copyable.flags (kept ▸ inside)
  rw [kept] at inside
  have flags := (copyable.coupled.leaf_flags copyable.source inside window).2
  have copied := copying.leaf_copy copyable page
  rw [flags] at copied
  have present : mmuLeaf dst va middle ≠ 0 := copied ▸ valid.or_ne_zero _
  unfold Kernel.TranslatesAlike
  rw [mmuTranslate4k_eq window.aligned mapped, mmuTranslate4k_eq window.aligned present, copied,
    pageAddr_or (pageAddr_aligned _) (pageAddr_lt _) valid.small, copying.kept copyable.source copyable.different page]

end

end B0s
