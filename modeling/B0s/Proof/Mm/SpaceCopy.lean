import B0s.Proof.Mm.AllocBetween

/-
This file proves that `vmm_copy_regions` copies the regions and the translations of a space.
-/

namespace B0s
open DoublyLinked RangeMap TableForest

variable {σ : Type}

/-- The pages of a window lead to the same frames in the new space as in the source, and every other leaf entry
is unchanged. -/
structure PagesCopied (frames : FrameAllocator σ) (member : Nat → Prop) (kernel kernel' : Kernel σ)
    (dst src start stop flags : Nat) : Prop where
  regions : kernel'.region = kernel.region
  spaces : kernel'.space = kernel.space
  env : frames.Grows kernel.env kernel'.env
  tables : PageTables frames member kernel'
  copied : ∀ {va}, WindowPage start stop va → mmuLeaf dst va kernel' = pageAddr (mmuLeaf src va kernel) ||| flags
  outside : ∀ {space va}, member space → CanonicalPage va → ¬(space = dst ∧ start ≤ va ∧ va < stop) →
    mmuLeaf space va kernel' = mmuLeaf space va kernel

section
variable {alloc : KernelAllocator σ} {member : Nat → Prop} {kernel kernel' : Kernel σ}
  {dst src region start stop flags steps : Nat}

/-- A mapping and the rest of the loop copy the whole window. -/
theorem PagesCopied.cons {middle : Kernel σ} {frames : FrameAllocator σ} (belongs : member src) (belongs' : member dst)
    (different : src ≠ dst) (span : PageSpan start stop) (inside : start < stop)
    (set : LeafSet frames member kernel middle dst start (pageAddr (mmuLeaf src start kernel) ||| flags))
    (rest : PagesCopied frames member middle kernel' dst src (start + pageSizeInBytes) stop flags) :
    PagesCopied frames member kernel kernel' dst src start stop flags where
  regions := rest.regions.trans set.regions
  spaces := rest.spaces.trans set.spaces
  env := set.env.trans rest.env
  tables := rest.tables
  copied page := by
    rcases page.cases span.alignedStart with rfl | later
    · rw [rest.outside belongs' (span.page inside) fun apart => absurd apart.2.1 (by unfold pageSizeInBytes; omega)]
      exact set.self
    · rw [rest.copied later, set.other belongs (span.pages _ page.lower page.upper page.aligned)
        fun same => different same.1]
  outside {space va} known page apart := by
    rw [rest.outside known page, set.other known page]
    · rintro ⟨rfl, rfl⟩
      exact apart ⟨rfl, le_rfl, inside⟩
    · rintro ⟨rfl, lower, upper⟩
      exact apart ⟨rfl, (Nat.le_add_right _ _).trans lower, upper⟩

/-- The copying loop copies every page of its window, or the frame allocator faults. -/
theorem mmuCopyPages_copies (tables : PageTables alloc.toFrameAllocator member kernel) (belongs : member src)
    (belongs' : member dst) (different : src ≠ dst) (span : PageSpan start stop) (valid : PageFlags flags)
    (ends : (kernel.region region).vaStop = stop) (flagged : (kernel.region region).flags = flags)
    (mapped : ∀ {va}, WindowPage start stop va → mmuLeaf src va kernel ≠ 0)
    (free : ∀ {va}, WindowPage start stop va → mmuLeaf dst va kernel = 0)
    (enough : stop - start < steps * pageSizeInBytes) :
    (∃ fault env, mmuCopyPages alloc dst src region steps start kernel = .error fault ∧
      alloc.pmmXalloc env = .error fault) ∨
    ∃ kernel', mmuCopyPages alloc dst src region steps start kernel = .ok kernel' ∧
      PagesCopied alloc.toFrameAllocator member kernel kernel' dst src start stop flags := by
  induction steps generalizing start kernel with
  | zero => omega
  | succ steps ih =>
      rw [mmuCopyPages, ends, flagged]
      by_cases inside : start < stop
      · rw [if_pos inside]
        have page : WindowPage start stop start := .first span.alignedStart inside
        have translated : mmuTranslate4k (kernel.space src).pageDirectory start kernel =
            pageAddr (mmuLeaf src start kernel) := mmuTranslate4k_eq span.alignedStart (mapped page)
        rw [translated]
        cases done : mmuMapPage alloc.toFrameAllocator dst start (pageAddr (mmuLeaf src start kernel)) flags kernel with
        | error fault =>
            obtain ⟨env, exhausted⟩ := mmuMapPage_fault done
            exact Or.inl ⟨fault, env, Outcome.bind_eq_error.mpr (Or.inl done), exhausted⟩
        | ok result =>
            obtain ⟨old, middle⟩ := result
            obtain ⟨oldLeaf, set⟩ := mmuMapPage_leafSet tables belongs' (span.page inside) valid.small done
            obtain ⟨noWrap, room, next⟩ := span.next inside
            have empty : old = 0 := oldLeaf.trans (free page)
            have sourceLeaf : ∀ {va}, WindowPage start stop va → mmuLeaf src va middle = mmuLeaf src va kernel :=
              fun page => set.other belongs (span.pages _ page.lower page.upper page.aligned) fun same => different same.1
            have later : ∀ {va}, WindowPage (start + pageSizeInBytes) stop va → mmuLeaf dst va middle = 0 := by
              intro va page
              rw [set.other belongs' (span.pages _ page.later.lower page.later.upper page.aligned), free page.later]
              rintro ⟨-, rfl⟩
              have lower := page.lower
              unfold pageSizeInBytes at lower
              omega
            have rest := @ih middle (start + pageSizeInBytes) set.tables next (by rw [set.regions]; exact ends)
              (by rw [set.regions]; exact flagged) (fun page => by rw [sourceLeaf page.later]; exact mapped page.later)
              later (by rw [Nat.succ_mul] at enough; unfold pageSizeInBytes at *; omega)
            rcases rest with ⟨fault, env, failed, exhausted⟩ | ⟨final, returned, copied⟩
            · refine Or.inl ⟨fault, env, Outcome.bind_eq_error.mpr (Or.inr ⟨_, done, ?_⟩), exhausted⟩
              simp only [empty, ne_eq, not_true_eq_false, if_false, noWrap, failed]
            · refine Or.inr ⟨final, Outcome.bind_eq_ok.mpr ⟨_, done, ?_⟩,
                .cons belongs belongs' different span inside set copied⟩
              simp only [empty, ne_eq, not_true_eq_false, if_false, noWrap, returned]
      · rw [if_neg inside]
        refine Or.inr ⟨kernel, rfl, rfl, rfl, .refl _, tables, ?_, fun _ _ _ => rfl⟩
        intro va page
        exact absurd (Nat.lt_of_le_of_lt page.lower page.upper) inside

end

/-- The regions of the source of a copy consist of whole pages whose leaf entries carry the flags of their region. -/
structure CopySource (alloc : KernelAllocator σ) (member : Nat → Prop) (kernel : Kernel σ) (src : Nat)
    (ptrs : List Nat) : Prop where
  tables : PageTables alloc.toFrameAllocator member kernel
  created : ∀ {space}, member space → alloc.live kernel.env .vmmSpace space
  belongs : member src
  listed : SpaceList alloc.toObjectAllocator kernel src ptrs
  pages : WholePages (kernel.ranges ptrs)
  present : ∀ range ∈ kernel.ranges ptrs, range.flags % 2 = 1
  mapped : ∀ {va flags}, CanonicalPage va → Denotes (kernel.ranges ptrs) va flags →
    mmuLeaf src va kernel % pageSizeInBytes = flags

/-- The flags of a source region are the permission bits of an entry. -/
theorem CopySource.flags {alloc : KernelAllocator σ} {member : Nat → Prop} {kernel : Kernel σ} {src : Nat}
    {ptrs : List Nat} (source : CopySource alloc member kernel src ptrs) {range : Range Nat Nat}
    (inside : range ∈ kernel.ranges ptrs) : PageFlags range.flags := by
  have nonempty := source.pages.canonical.nonempty range inside
  have page := (source.pages.span inside).page nonempty
  have leaf := source.mapped page ⟨range, inside, ⟨le_rfl, nonempty⟩, rfl⟩
  refine ⟨?_, source.present range inside⟩
  rw [← leaf]
  exact Nat.mod_lt _ (by decide)

/-- Every page of a source region is mapped. -/
theorem CopySource.leaf_ne_zero {alloc : KernelAllocator σ} {member : Nat → Prop} {kernel : Kernel σ} {src va flags : Nat}
    {ptrs : List Nat} (source : CopySource alloc member kernel src ptrs) (page : CanonicalPage va)
    (denoted : Denotes (kernel.ranges ptrs) va flags) : mmuLeaf src va kernel ≠ 0 := by
  intro zero
  have leaf := source.mapped page denoted
  obtain ⟨range, inside, -, same⟩ := denoted
  have present := source.present range inside
  rw [same, ← leaf, zero] at present
  cases present

/-- The source stays a source beside a created space. -/
theorem CopySource.beside {alloc : KernelAllocator σ} {member : Nat → Prop} {kernel created : Kernel σ} {src dst : Nat}
    {ptrs : List Nat} (source : CopySource alloc member kernel src ptrs)
    (made : SpaceCreated alloc member kernel created dst) :
    CopySource alloc (fun other => member other ∨ other = dst) created src ptrs := by
  refine ⟨made.tables, made.created source.created, Or.inl source.belongs,
    made.listed_other source.belongs source.listed, ?_, ?_, ?_⟩
  · rw [made.ranges_eq]
    exact source.pages
  · rw [made.ranges_eq]
    exact source.present
  · intro va flags page denoted
    rw [made.ranges_eq] at denoted
    rw [made.leaf_other source.belongs]
    exact source.mapped page denoted

/-- The passed regions of the source are copied, and everything outside the new space is unchanged. -/
structure Copied (alloc : KernelAllocator σ) (member : Nat → Prop) (kernel kernel' : Kernel σ) (dst src : Nat)
    (ptrs passed copies : List Nat) : Prop where
  tables : PageTables alloc.toFrameAllocator member kernel'
  records : ∀ ptr ∈ ptrs, kernel'.region ptr = kernel.region ptr ∧ alloc.live kernel'.env .vmmRegion ptr
  spaces : ∀ space, space ≠ dst → kernel'.space space = kernel.space space
  listed : SpaceList alloc.toObjectAllocator kernel' dst copies
  ranges : kernel'.ranges copies = kernel.ranges passed
  apart : List.Disjoint ptrs copies
  kept : ∀ {space va}, member space → space ≠ dst → CanonicalPage va → mmuLeaf space va kernel' = mmuLeaf space va kernel
  leaf : ∀ {va flags}, CanonicalPage va → Denotes (kernel.ranges passed) va flags →
    mmuLeaf dst va kernel' = pageAddr (mmuLeaf src va kernel) ||| flags
  empty : ∀ {va}, CanonicalPage va → (∀ flags, ¬Denotes (kernel.ranges passed) va flags) → mmuLeaf dst va kernel' = 0

section
variable {alloc : KernelAllocator σ} {member : Nat → Prop} {kernel middle : Kernel σ} {dst src : Nat}
  {ptrs passed rest copies : List Nat} {ptr : Nat}

/-- The next region of the source is copied behind the others, or the frame allocator faults. -/
theorem Copied.step (source : CopySource alloc member kernel src ptrs) (belongs : member dst) (different : src ≠ dst)
    (copied : Copied alloc member kernel middle dst src ptrs passed copies) (split : passed ++ ptr :: rest = ptrs) :
    ∃ copy added, vmmAddRange alloc.toObjectAllocator dst (middle.region ptr).vaStart (middle.region ptr).vaStop
        (middle.region ptr).flags middle = .ok (copy, added) ∧ copy ≠ NULL ∧
      ((∃ fault env, mmuCopyPages alloc dst src ptr walkLimit (added.region ptr).vaStart added = .error fault ∧
          alloc.pmmXalloc env = .error fault) ∨
        ∃ final copies', mmuCopyPages alloc dst src ptr walkLimit (added.region ptr).vaStart added = .ok final ∧
          Copied alloc member kernel final dst src ptrs (passed ++ [ptr]) copies') := by
  have listed : ptr ∈ ptrs := split ▸ List.mem_append_right _ List.mem_cons_self
  obtain ⟨record, alive⟩ := copied.records ptr listed
  have inside : (kernel.region ptr).range ∈ kernel.ranges ptrs := List.mem_map.mpr ⟨ptr, listed, rfl⟩
  have span : PageSpan (kernel.region ptr).vaStart (kernel.region ptr).vaStop := source.pages.span inside
  have nonempty : (kernel.region ptr).vaStart < (kernel.region ptr).vaStop := source.pages.canonical.nonempty _ inside
  have valid : PageFlags (kernel.region ptr).flags := source.flags inside
  have shape : kernel.ranges ptrs = kernel.ranges passed ++ (kernel.region ptr).range :: kernel.ranges rest := by
    rw [← split, Kernel.ranges_append, Kernel.ranges_cons]
  have canonical : Canonical (kernel.ranges passed ++ [(kernel.region ptr).range]) := by
    have whole := source.pages.canonical
    rw [shape, List.append_cons] at whole
    exact ((canonical_append _ _).mp whole).1
  have before : ∀ range ∈ kernel.ranges passed, range.stop ≤ (kernel.region ptr).vaStart := by
    intro range earlier
    have whole := source.pages.canonical
    rw [shape] at whole
    exact whole.before_le earlier
  have bounded : middle.Bounded copies := by
    intro va flags denoted
    rw [copied.ranges] at denoted
    exact source.pages.bounded va flags (by rw [shape, denotes_append]; exact Or.inl denoted)
  have vacant : middle.Vacant copies (kernel.region ptr).vaStart (kernel.region ptr).vaStop := by
    intro range earlier meets
    rw [copied.ranges] at earlier
    exact absurd meets.2 (not_lt.mpr (before range earlier))
  have canonicalCopies : Canonical (middle.ranges copies) := by
    rw [copied.ranges]
    exact ((canonical_append _ _).mp canonical).1
  obtain ⟨copy, added, copies', ranges, call, relisted, new, inserts⟩ :=
    vmmAddRange_vacant copied.listed canonicalCopies bounded nonempty (kernel.region ptr).flags vacant
  rw [copied.ranges] at inserts
  obtain rfl := inserts.concat canonical
  have root := relisted.frame.root
  have word := relisted.frame.word
  obtain ⟨recordAdded, aliveAdded⟩ := relisted.frame.region ptr alive fun copy => copied.apart listed copy
  rw [record] at recordAdded
  have leafAdded : ∀ space va, mmuLeaf space va added = mmuLeaf space va middle :=
    fun space va => mmuLeaf_congr word (congrFun root space)
  have tables : PageTables alloc.toFrameAllocator member added :=
    copied.tables.transport word root relisted.frame.env.held
  rw [record]
  refine ⟨copy, added, call, relisted.listed.ne_null new, ?_⟩
  have pages : ∀ {va}, WindowPage (kernel.region ptr).vaStart (kernel.region ptr).vaStop va → CanonicalPage va :=
    fun page => span.pages _ page.lower page.upper page.aligned
  have mapped : ∀ {va}, WindowPage (kernel.region ptr).vaStart (kernel.region ptr).vaStop va →
      mmuLeaf src va added = mmuLeaf src va kernel ∧ mmuLeaf src va kernel ≠ 0 := by
    intro va page
    refine ⟨(leafAdded src va).trans (copied.kept source.belongs different (pages page)), ?_⟩
    exact source.leaf_ne_zero (pages page) ⟨_, inside, ⟨page.lower, page.upper⟩, rfl⟩
  have free : ∀ {va}, WindowPage (kernel.region ptr).vaStart (kernel.region ptr).vaStop va →
      mmuLeaf dst va added = 0 := by
    intro va page
    rw [leafAdded, copied.empty (pages page)]
    rintro flags ⟨range, earlier, contains, -⟩
    exact absurd contains.2 (not_lt.mpr ((before range earlier).trans page.lower))
  have enough : (kernel.region ptr).vaStop - (kernel.region ptr).vaStart < walkLimit * pageSizeInBytes := by
    have addressable := span.addressable
    unfold walkLimit pageSizeInBytes
    omega
  have start : (added.region ptr).vaStart = (kernel.region ptr).vaStart := by rw [recordAdded]
  rw [start]
  rcases mmuCopyPages_copies tables source.belongs belongs different span valid (by rw [recordAdded])
    (by rw [recordAdded]) (fun page => by rw [(mapped page).1]; exact (mapped page).2) free enough with
    failed | ⟨final, done, pagesCopied⟩
  · exact Or.inl failed
  refine Or.inr ⟨final, copies', done, ?_⟩
  have live : ∀ type ptr, alloc.live final.env type ptr ↔ alloc.live added.env type ptr := pagesCopied.env.alive
  have outside : ∀ {space va}, member space → CanonicalPage va →
      ¬(space = dst ∧ (kernel.region ptr).vaStart ≤ va ∧ va < (kernel.region ptr).vaStop) →
      mmuLeaf space va final = mmuLeaf space va middle :=
    fun known page apart => (pagesCopied.outside known page apart).trans (leafAdded _ _)
  refine ⟨pagesCopied.tables, ?_, ?_, ?_, ?_, ?_, ?_, ?_, ?_⟩
  · intro other member
    obtain ⟨same, alive⟩ := copied.records other member
    obtain ⟨same', alive'⟩ := relisted.frame.region other alive fun copy => copied.apart member copy
    rw [pagesCopied.regions]
    exact ⟨same'.trans same, (live _ _).mpr alive'⟩
  · intro space other
    rw [pagesCopied.spaces, relisted.frame.spaces space other]
    exact copied.spaces space other
  · refine ⟨?_, ?_, relisted.listed.distinct, fun copy member => (live _ _).mpr (relisted.listed.live copy member)⟩
    · rw [pagesCopied.spaces]
      exact relisted.listed.head
    · rw [pagesCopied.regions]
      exact relisted.listed.linked
  · rw [Kernel.ranges_append, Kernel.ranges_cons, Kernel.ranges_nil]
    refine Eq.trans (Kernel.ranges_congr fun copy _ => ?_) relisted.ranges_eq
    rw [pagesCopied.regions]
  · intro other member copy
    exact copied.apart member (relisted.fresh other copy (copied.records other member).2)
  · intro space va known other page
    rw [outside known page fun same => other same.1]
    exact copied.kept known other page
  · intro va flags page denoted
    rw [Kernel.ranges_append, denotes_append] at denoted
    rcases denoted with earlier | here
    · have leaf := copied.leaf page earlier
      obtain ⟨range, member, contains, -⟩ := earlier
      rw [outside belongs page, leaf]
      rintro ⟨-, lower, -⟩
      exact absurd contains.2 (not_lt.mpr ((before range member).trans lower))
    · rw [Kernel.ranges_cons, Kernel.ranges_nil, denotes_cons] at here
      obtain ⟨contains, rfl⟩ := here.resolve_right fun none => by simp at none
      have window : WindowPage (kernel.region ptr).vaStart (kernel.region ptr).vaStop va :=
        ⟨contains.1, contains.2, page.aligned⟩
      rw [pagesCopied.copied window, (mapped window).1]
      rfl
  · intro va page vacant
    rw [Kernel.ranges_append] at vacant
    rw [outside belongs page, copied.empty page]
    · intro flags denoted
      exact vacant flags ((denotes_append _ _ _ _).mpr (Or.inl denoted))
    · rintro ⟨-, lower, upper⟩
      exact vacant _ ((denotes_append _ _ _ _).mpr (Or.inr ⟨_, List.mem_singleton_self _, ⟨lower, upper⟩, rfl⟩))

/-- The loop over the regions copies all that are left, or the frame allocator faults. -/
theorem vmmCopyRegionList_copies {steps : Nat} (source : CopySource alloc member kernel src ptrs) (belongs : member dst)
    (different : src ≠ dst) (copied : Copied alloc member kernel middle dst src ptrs passed copies)
    (split : passed ++ rest = ptrs) (enough : rest.length < steps) :
    (∃ fault env, vmmCopyRegionList alloc dst src steps (rest.headD NULL) middle = .error fault ∧
      alloc.pmmXalloc env = .error fault) ∨
    ∃ kernel' copies', vmmCopyRegionList alloc dst src steps (rest.headD NULL) middle = .ok kernel' ∧
      Copied alloc member kernel kernel' dst src ptrs ptrs copies' := by
  induction steps generalizing rest passed copies middle with
  | zero => omega
  | succ steps ih =>
      cases rest with
      | nil =>
          obtain rfl : passed = ptrs := by simpa using split
          exact Or.inr ⟨middle, copies, by simp [vmmCopyRegionList], copied⟩
      | cons ptr rest =>
          have listed : ptr ∈ ptrs := split ▸ List.mem_append_right _ List.mem_cons_self
          have nonnull : ptr ≠ NULL := source.listed.ne_null listed
          obtain ⟨copy, added, call, taken, step⟩ := copied.step source belongs different split
          rw [List.headD_cons, vmmCopyRegionList, if_neg nonnull, call]
          simp only [bind, Except.bind, if_neg taken]
          rcases step with ⟨fault, env, failed, exhausted⟩ | ⟨final, copies', done, copied'⟩
          · exact Or.inl ⟨fault, env, by rw [failed], exhausted⟩
          · have links := source.listed.linked
            rw [← split] at links
            have next : (final.region ptr).next = rest.headD NULL := by
              rw [(copied'.records ptr listed).1]
              exact links.links_at.1
            rw [done]
            simp only [next]
            apply ih copied' (by rw [← split]; simp)
            rw [List.length_cons] at enough
            omega

/-- A new space holds no copies yet. -/
theorem CopySource.started {created : Kernel σ} (source : CopySource alloc member kernel src ptrs)
    (made : SpaceCreated alloc member kernel created dst) :
    Copied alloc (fun other => member other ∨ other = dst) created created dst src ptrs [] [] where
  tables := made.tables
  records ptr inside := ⟨rfl, (source.beside made).listed.live ptr inside⟩
  spaces _ _ := rfl
  listed := made.listed_self
  ranges := rfl
  apart := List.disjoint_nil_right _
  kept _ _ _ := rfl
  leaf _ denoted := absurd denoted (denotes_nil _ _)
  empty _ _ := made.leaf_self _

end

/-- Copying the regions of a coherent space into a new one gives the new space the same regions, every page of
them translates alike in both spaces, and the source keeps its regions and mappings. -/
theorem vmmCopyRegions_copies {alloc : KernelAllocator σ} {member : Nat → Prop} {kernel created : Kernel σ}
    {dst src vaStart vaStop : Nat} {ptrs : List Nat} (source : CopySource alloc member kernel src ptrs)
    (creates : vmmCreateSpace alloc vaStart vaStop kernel = .ok (dst, created))
    (remain : ∀ fault env, vmmCopyRegions alloc dst src created = .error fault → alloc.pmmXalloc env ≠ .error fault) :
    ∃ kernel' copies, vmmCopyRegions alloc dst src created = .ok kernel' ∧
      SpaceList alloc.toObjectAllocator kernel' dst copies ∧ kernel'.ranges copies = created.ranges ptrs ∧
      (∀ range ∈ created.ranges ptrs, ∀ va, WindowPage range.start range.stop va →
        mmuTranslate4k (kernel'.root dst) va kernel' = mmuTranslate4k (kernel'.root src) va kernel') ∧
      SpaceList alloc.toObjectAllocator kernel' src ptrs ∧ (∀ ptr ∈ ptrs, kernel'.region ptr = created.region ptr) ∧
      ∀ va, CanonicalPage va → mmuLeaf src va kernel' = mmuLeaf src va created := by
  have made := vmmCreateSpace_created source.tables source.created creates
  have beside := source.beside made
  have different : src ≠ dst := fun same => made.unknown (same ▸ source.belongs)
  have bounded : created.Bounded ptrs := beside.pages.bounded
  rw [vmmCopyRegions, beside.listed.head] at *
  rcases vmmCopyRegionList_copies beside (Or.inr rfl) different (source.started made) (List.nil_append ptrs)
    (bounded.length_lt beside.pages.canonical) with ⟨fault, env, failed, exhausted⟩ | ⟨kernel', copies, done, copied⟩
  · exact absurd exhausted (remain fault env failed)
  have mappings : ∀ va, CanonicalPage va → mmuLeaf src va kernel' = mmuLeaf src va created :=
    fun va page => copied.kept beside.belongs different page
  refine ⟨kernel', copies, done, copied.listed, copied.ranges, ?_, ?_, fun ptr inside => (copied.records ptr inside).1,
    mappings⟩
  · intro range inside va window
    have page : CanonicalPage va := (beside.pages.span inside).pages va window.lower window.upper window.aligned
    have denoted : Denotes (created.ranges ptrs) va range.flags := ⟨range, inside, ⟨window.lower, window.upper⟩, rfl⟩
    have valid := beside.flags inside
    have leaf := copied.leaf page denoted
    have mapped : mmuLeaf dst va kernel' ≠ 0 := leaf ▸ valid.or_ne_zero _
    have mappedSource : mmuLeaf src va kernel' ≠ 0 := (mappings va page).symm ▸ beside.leaf_ne_zero page denoted
    calc mmuTranslate4k (kernel'.root dst) va kernel'
        = pageAddr (mmuLeaf dst va kernel') := mmuTranslate4k_eq page.aligned mapped
      _ = pageAddr (pageAddr (mmuLeaf src va created) ||| range.flags) := by rw [leaf]
      _ = pageAddr (mmuLeaf src va created) := pageAddr_or (pageAddr_aligned _) (pageAddr_lt _) valid.small
      _ = pageAddr (mmuLeaf src va kernel') := by rw [mappings va page]
      _ = mmuTranslate4k (kernel'.root src) va kernel' := (mmuTranslate4k_eq page.aligned mappedSource).symm
  · refine ⟨?_, ?_, beside.listed.distinct, fun ptr inside => (copied.records ptr inside).2⟩
    · rw [copied.spaces src different]
      exact beside.listed.head
    · apply beside.listed.linked.transport
      intro ptr inside
      rw [(copied.records ptr inside).1]
      exact ⟨rfl, rfl⟩

/-- A coherent space is a source when its flags are present. -/
theorem Coherent.copySource {alloc : KernelAllocator σ} {member : Nat → Prop} {lists : Nat → List Nat}
    {kernel : Kernel σ} {src : Nat} (coherent : Coherent alloc member lists kernel) (belongs : member src)
    (present : ∀ range ∈ kernel.ranges (lists src), range.flags % 2 = 1) :
    CopySource alloc member kernel src (lists src) where
  tables := coherent.backing.tables
  created := coherent.created
  belongs := belongs
  listed := coherent.listed belongs
  pages := coherent.pages belongs
  present := present
  mapped page denoted := ((coherent.mapped belongs page).mp denoted).2

end B0s
