import B0s.Proof.Mm.PageLoop
import B0s.Proof.Mm.PageTableRun

/-
This file proves that the mapping loop gives a new frame to every page of its window. The window may
hold any aligned addresses, because an address walks like the canonical page with the same indices.
-/

namespace B0s

variable {σ : Type}

/-- This is the canonical page whose indices an address has. -/
def walkPage (va : Nat) : Nat :=
  if va % 2 ^ 48 / pageSizeInBytes * pageSizeInBytes < 2 ^ 47 then va % 2 ^ 48 / pageSizeInBytes * pageSizeInBytes
  else va % 2 ^ 48 / pageSizeInBytes * pageSizeInBytes + (2 ^ 64 - 2 ^ 48)

theorem walkPage_canonical (va : Nat) : CanonicalPage (walkPage va) := by
  refine ⟨?_, ?_, ?_⟩ <;>
  · unfold walkPage pageSizeInBytes
    split_ifs <;> omega

/-- A canonical page has its own indices. -/
theorem CanonicalPage.walkPage {va : Nat} (page : CanonicalPage va) : walkPage va = va := by
  have aligned := page.aligned
  have half := page.half
  have bounded := page.bounded
  unfold B0s.walkPage pageSizeInBytes at *
  split_ifs <;> omega

theorem walkPage_indices (va : Nat) : pml4eIndex (walkPage va) = pml4eIndex va ∧
    pdptIndex (walkPage va) = pdptIndex va ∧ pdtIndex (walkPage va) = pdtIndex va ∧
    ptIndex (walkPage va) = ptIndex va := by
  have mask : ∀ value, value &&& 0x1ff = value % 512 := fun value =>
    Nat.and_two_pow_sub_one_eq_mod value 9
  simp only [pml4eIndex, pdptIndex, pdtIndex, ptIndex, Nat.shiftRight_eq_div_pow, mask]
  unfold walkPage pageSizeInBytes
  split_ifs <;> omega

/-- An address has the leaf entry of its canonical page. -/
theorem mmuLeaf_walkPage (space va : Nat) (kernel : Kernel σ) :
    mmuLeaf space (walkPage va) kernel = mmuLeaf space va kernel := by
  obtain ⟨pml4e, pdpt, pdt, pt⟩ := walkPage_indices va
  simp only [mmuLeaf, pml4e, pdpt, pdt, pt]

/-- Mapping an address maps its canonical page. -/
theorem mmuMapPage_walkPage (frames : FrameAllocator σ) (space va pa perm : Nat) (kernel : Kernel σ) :
    mmuMapPage frames space (walkPage va) pa perm kernel = mmuMapPage frames space va pa perm kernel := by
  obtain ⟨pml4e, pdpt, pdt, pt⟩ := walkPage_indices va
  simp only [mmuMapPage, pml4e, pdpt, pdt, pt]

/-- The page starts in the window. -/
structure WindowPage (start stop va : Nat) : Prop where
  lower : start ≤ va
  upper : va < stop
  aligned : va % pageSizeInBytes = 0

/-- Every page of the window has a walk of its own, which ends at an empty leaf entry. -/
structure WindowFree (kernel : Kernel σ) (space start stop : Nat) : Prop where
  empty : ∀ {va}, WindowPage start stop va → mmuLeaf space va kernel = 0
  distinct : ∀ {va va'}, WindowPage start stop va → WindowPage start stop va' → walkPage va = walkPage va' → va = va'

/-- Every page of the window gets a frame of its own that nobody held before, and the leaf entries at
the ends of all other walks stay as they are. -/
structure PagesMapped (alloc : KernelAllocator σ) (member : Nat → Prop) (kernel kernel' : Kernel σ)
    (space start stop flags : Nat) : Prop where
  empty : ∀ {va}, WindowPage start stop va → mmuLeaf space va kernel = 0
  leaf : ∀ {va}, WindowPage start stop va → mmuLeaf space va kernel' = kernel'.frame space va ||| flags
  fresh : ∀ {va}, WindowPage start stop va → ¬alloc.held kernel.env (kernel'.frame space va)
  held : ∀ {va}, WindowPage start stop va → alloc.held kernel'.env (kernel'.frame space va)
  apart : ∀ {va va'}, WindowPage start stop va → WindowPage start stop va' →
    kernel'.frame space va = kernel'.frame space va' → va = va'
  outside : ∀ {space' va}, member space' →
    (space' = space → ∀ page, WindowPage start stop page → walkPage va ≠ walkPage page) →
    mmuLeaf space' va kernel' = mmuLeaf space' va kernel

/-- A call takes frames and writes page tables only. -/
structure TakesFrames (alloc : KernelAllocator σ) (member : Nat → Prop) (kernel kernel' : Kernel σ) : Prop where
  regions : kernel'.region = kernel.region
  spaces : kernel'.space = kernel.space
  env : alloc.Grows kernel.env kernel'.env
  backing : Backing alloc.toFrameAllocator member kernel'

section
variable {alloc : KernelAllocator σ} {member : Nat → Prop} {kernel middle kernel' : Kernel σ}
  {space start stop flags region steps : Nat} {overwrite : Nat → Panic}

theorem WindowPage.first (aligned : start % pageSizeInBytes = 0) (inside : start < stop) :
    WindowPage start stop start := ⟨le_rfl, inside, aligned⟩

/-- A page of a window is the first one or a page of the rest. -/
theorem WindowPage.cases {va : Nat} (page : WindowPage start stop va) (aligned : start % pageSizeInBytes = 0) :
    va = start ∨ WindowPage (start + pageSizeInBytes) stop va := by
  obtain ⟨lower, upper, pageAligned⟩ := page
  by_cases first : va = start
  · exact Or.inl first
  · refine Or.inr ⟨?_, upper, pageAligned⟩
    unfold pageSizeInBytes at *
    omega

theorem WindowPage.later {va : Nat} (page : WindowPage (start + pageSizeInBytes) stop va) :
    WindowPage start stop va := ⟨by have lower := page.lower; omega, page.upper, page.aligned⟩

/-- One step of the loop takes a new frame for its page and changes one leaf entry. -/
structure PageTaken (alloc : KernelAllocator σ) (member : Nat → Prop) (kernel middle : Kernel σ)
    (space va pa flags : Nat) : Prop where
  taken : TakesFrames alloc member kernel middle
  leaf : mmuLeaf space va middle = pa ||| flags
  frame : pageAddr (pa ||| flags) = pa
  fresh : ¬alloc.held kernel.env pa
  held : alloc.held middle.env pa
  outside : ∀ {space' va'}, member space' → ¬(space' = space ∧ walkPage va' = walkPage va) →
    mmuLeaf space' va' middle = mmuLeaf space' va' kernel

theorem PageTaken.of_map {va pa old : Nat} {env : σ} (backing : Backing alloc.toFrameAllocator member kernel)
    (belongs : member space) (valid : PageFlags flags) (returned : alloc.pmmXalloc kernel.env = .ok (pa, env))
    (mapped : mmuMapPage alloc.toFrameAllocator space va pa flags { kernel with env := env } = .ok (old, middle)) :
    old = mmuLeaf space va kernel ∧ PageTaken alloc member kernel middle space va pa flags := by
  obtain ⟨fresh, spare⟩ := backing.xalloc returned
  rw [← mmuMapPage_walkPage] at mapped
  obtain ⟨oldLeaf, set⟩ := mmuMapPage_leafSet fresh.tables belongs (walkPage_canonical va) valid.small mapped
  have aligned := alloc.xalloc_aligned _ _ _ returned
  have frame := pageAddr_or aligned.1 aligned.2 valid.small
  have first : alloc.Grows kernel.env env := (FrameAllocator.Grows.refl _).xalloc returned
  rw [mmuLeaf_walkPage] at oldLeaf
  refine ⟨oldLeaf, ⟨set.regions, set.spaces, first.trans set.env, ?_⟩, ?_, frame, ?_, ?_, ?_⟩
  · exact fresh.set set fun _ => frame.symm ▸ spare
  · rw [← mmuLeaf_walkPage]
    exact set.self
  · exact alloc.xalloc_fresh _ _ _ returned
  · exact set.env.held ((alloc.xalloc_held _ _ _ returned pa).mpr (Or.inr rfl))
  · intro space' va' belongs' different
    rw [← mmuLeaf_walkPage space' va' middle, set.other belongs' (walkPage_canonical va') different]
    exact mmuLeaf_walkPage space' va' kernel

/-- An empty window needs no change. -/
theorem PagesMapped.none (ended : stop ≤ start) : PagesMapped alloc member kernel kernel space start stop flags := by
  have nothing : ∀ {va}, ¬WindowPage start stop va := by
    intro va page
    have lower := page.lower
    have upper := page.upper
    omega
  exact ⟨fun page => absurd page nothing, fun page => absurd page nothing, fun page => absurd page nothing,
    fun page => absurd page nothing, fun page => absurd page nothing, fun _ _ => rfl⟩

/-- A step and the rest of the loop map the whole window. -/
theorem PagesMapped.cons {pa : Nat} (belongs : member space) (aligned : start % pageSizeInBytes = 0)
    (valid : PageFlags flags) (inside : start < stop) (empty : mmuLeaf space start kernel = 0)
    (first : PageTaken alloc member kernel middle space start pa flags)
    (grows : alloc.Grows middle.env kernel'.env)
    (rest : PagesMapped alloc member middle kernel' space (start + pageSizeInBytes) stop flags) :
    PagesMapped alloc member kernel kernel' space start stop flags := by
  have filled : mmuLeaf space start middle ≠ 0 := by
    rw [first.leaf]
    exact valid.or_ne_zero pa
  -- No later page has the walk of the first one, because its leaf entry was empty.
  have others : ∀ {va}, WindowPage (start + pageSizeInBytes) stop va → walkPage va ≠ walkPage start := by
    intro va page same
    have zero := rest.empty page
    rw [← mmuLeaf_walkPage, same, mmuLeaf_walkPage] at zero
    exact filled zero
  have kept : mmuLeaf space start kernel' = pa ||| flags := by
    rw [rest.outside belongs fun _ page inWindow same => others inWindow same.symm, first.leaf]
  have own : kernel'.frame space start = pa := by
    rw [Kernel.frame, kept]
    exact first.frame
  have before : ∀ {va}, WindowPage (start + pageSizeInBytes) stop va →
      mmuLeaf space va middle = mmuLeaf space va kernel := fun page =>
    first.outside belongs fun same => others page same.2
  have heldBefore : ∀ {frame}, alloc.held kernel.env frame → alloc.held middle.env frame :=
    fun held => first.taken.env.held held
  refine ⟨?_, ?_, ?_, ?_, ?_, ?_⟩
  · intro va page
    rcases page.cases aligned with rfl | later
    · exact empty
    · exact (before later).symm.trans (rest.empty later)
  · intro va page
    rcases page.cases aligned with rfl | later
    · rw [kept, own]
    · exact rest.leaf later
  · intro va page
    rcases page.cases aligned with rfl | later
    · rw [own]
      exact first.fresh
    · exact fun held => rest.fresh later (heldBefore held)
  · intro va page
    rcases page.cases aligned with rfl | later
    · rw [own]
      exact grows.held first.held
    · exact rest.held later
  · intro va va' page page' same
    rcases page.cases aligned with rfl | later
    · rcases page'.cases aligned with rfl | later'
      · rfl
      · rw [own] at same
        exact absurd (same ▸ first.held) (rest.fresh later')
    · rcases page'.cases aligned with rfl | later'
      · rw [own] at same
        exact absurd (same.symm ▸ first.held) (rest.fresh later)
      · exact rest.apart later later' same
  · intro space' va belongs' different
    rw [rest.outside belongs' fun same page later => different same page later.later]
    apply first.outside belongs'
    rintro ⟨same, walk⟩
    exact different same start (.first aligned inside) walk

/-- The mapping loop maps the window from its start up to the end of the region. -/
theorem vmmMapPages_maps (backing : Backing alloc.toFrameAllocator member kernel) (belongs : member space)
    (aligned : start % pageSizeInBytes = 0) (alignedStop : stop % pageSizeInBytes = 0) (addressable : stop < 2 ^ 64)
    (ends : (kernel.region region).vaStop = stop) (valid : PageFlags flags)
    (done : vmmMapPages alloc space region flags overwrite steps start kernel = .ok kernel') :
    PagesMapped alloc member kernel kernel' space start stop flags ∧ TakesFrames alloc member kernel kernel' := by
  induction steps generalizing start kernel with
  | zero => cases done
  | succ steps ih =>
      rw [vmmMapPages, ends] at done
      split_ifs at done with inside
      · obtain ⟨⟨pa, env⟩, returned, done⟩ := Outcome.bind_eq_ok.mp done
        obtain ⟨⟨old, middle⟩, mapped, done⟩ := Outcome.bind_eq_ok.mp done
        simp only at done
        split_ifs at done with overwritten
        obtain ⟨oldLeaf, first⟩ := PageTaken.of_map backing belongs valid returned mapped
        have empty : mmuLeaf space start kernel = 0 := oldLeaf.symm.trans (not_not.mp overwritten)
        have noWrap : u64 (start + pageSizeInBytes) = start + pageSizeInBytes := by
          apply Nat.mod_eq_of_lt
          unfold pageSizeInBytes at *
          omega
        have next : (start + pageSizeInBytes) % pageSizeInBytes = 0 := by
          rw [Nat.add_mod_right]
          exact aligned
        rw [noWrap] at done
        obtain ⟨rest, taken⟩ := ih first.taken.backing next (by rw [first.taken.regions]; exact ends) done
        refine ⟨.cons belongs aligned valid inside empty first taken.env rest, ?_⟩
        exact ⟨taken.regions.trans first.taken.regions, taken.spaces.trans first.taken.spaces,
          first.taken.env.trans taken.env, taken.backing⟩
      · obtain rfl := Except.ok.inj done
        exact ⟨.none (not_lt.mp inside), rfl, rfl, .refl _, backing⟩

/-- The mapping loop fills every page up to the end of the region. -/
theorem vmmMapPages_fills (backing : Backing alloc.toFrameAllocator member kernel) (belongs : member space)
    (span : PageSpan start stop) (ends : (kernel.region region).vaStop = stop) (valid : PageFlags flags)
    (done : vmmMapPages alloc space region flags overwrite steps start kernel = .ok kernel') :
    PagesChanged alloc member (Fills flags) kernel kernel' space start stop := by
  obtain ⟨mapped, taken⟩ := vmmMapPages_maps backing belongs span.alignedStart span.alignedStop span.addressable
    ends valid done
  refine ⟨taken.regions, taken.spaces, taken.env.alive, taken.backing, ?_, ?_⟩
  · intro va lower upper aligned
    have page : WindowPage start stop va := ⟨lower, upper, aligned⟩
    rw [mapped.empty page, mapped.leaf page]
    exact valid.fills (pageAddr_aligned _)
  · intro space' va belongs' canonical apart
    apply mapped.outside belongs'
    intro same page window walk
    have pageCanonical := span.pages page window.lower window.upper window.aligned
    rw [canonical.walkPage, pageCanonical.walkPage] at walk
    subst walk
    exact apart ⟨same, window.lower, window.upper⟩

/-- The rest of a free window stays free when its first page is mapped. -/
theorem WindowFree.later {pa : Nat} (free : WindowFree kernel space start stop) (belongs : member space)
    (aligned : start % pageSizeInBytes = 0) (inside : start < stop)
    (first : PageTaken alloc member kernel middle space start pa flags) :
    WindowFree middle space (start + pageSizeInBytes) stop := by
  refine ⟨?_, fun page page' => free.distinct page.later page'.later⟩
  intro va later
  rw [first.outside belongs, free.empty later.later]
  rintro ⟨-, same⟩
  have equal := free.distinct later.later (.first aligned inside) same
  have lower := later.lower
  unfold pageSizeInBytes at lower
  omega

/-- The mapping loop over a free window faults only with the frame allocator. -/
theorem vmmMapPages_fault (backing : Backing alloc.toFrameAllocator member kernel) (belongs : member space)
    (aligned : start % pageSizeInBytes = 0) (alignedStop : stop % pageSizeInBytes = 0) (addressable : stop < 2 ^ 64)
    (ends : (kernel.region region).vaStop = stop) (valid : PageFlags flags)
    (free : WindowFree kernel space start stop) (enough : stop - start < steps * pageSizeInBytes) {fault : Fault}
    (faults : vmmMapPages alloc space region flags overwrite steps start kernel = .error fault) :
    ∃ env, alloc.pmmXalloc env = .error fault := by
  induction steps generalizing start kernel with
  | zero => omega
  | succ steps ih =>
      rw [vmmMapPages, ends] at faults
      split_ifs at faults with inside
      rcases Outcome.bind_eq_error.mp faults with first | ⟨⟨pa, env⟩, returned, faults⟩
      · exact ⟨_, first⟩
      rcases Outcome.bind_eq_error.mp faults with second | ⟨⟨old, middle⟩, mapped, faults⟩
      · exact mmuMapPage_fault second
      obtain ⟨oldLeaf, first⟩ := PageTaken.of_map backing belongs valid returned mapped
      have page : WindowPage start stop start := .first aligned inside
      have empty : old = 0 := oldLeaf.trans (free.empty page)
      have noWrap : u64 (start + pageSizeInBytes) = start + pageSizeInBytes := by
        apply Nat.mod_eq_of_lt
        unfold pageSizeInBytes at *
        omega
      have next : (start + pageSizeInBytes) % pageSizeInBytes = 0 := by
        rw [Nat.add_mod_right]
        exact aligned
      simp only [empty, ne_eq, not_true_eq_false, if_false] at faults
      rw [noWrap] at faults
      apply ih first.taken.backing next (by rw [first.taken.regions]; exact ends) (free.later belongs aligned inside first)
        _ faults
      rw [Nat.succ_mul] at enough
      unfold pageSizeInBytes at *
      omega

end

end B0s
