import B0s.Proof.Mm.Backing

/-
This file proves that the mapping loops change exactly the pages of their window.
-/

namespace B0s

variable {σ : Type}

/-- Every page of the window is canonical. -/
structure PageSpan (start stop : Nat) : Prop where
  alignedStart : start % pageSizeInBytes = 0
  alignedStop : stop % pageSizeInBytes = 0
  addressable : stop < 2 ^ 64
  pages : ∀ va, start ≤ va → va < stop → va % pageSizeInBytes = 0 → CanonicalPage va

/-- The next page of a span starts the rest of the span. -/
theorem PageSpan.next {start stop : Nat} (span : PageSpan start stop) (inside : start < stop) :
    u64 (start + pageSizeInBytes) = start + pageSizeInBytes ∧ start + pageSizeInBytes ≤ stop ∧
      PageSpan (start + pageSizeInBytes) stop := by
  have aligned := span.alignedStart
  have alignedStop := span.alignedStop
  have addressable := span.addressable
  have room : start + pageSizeInBytes ≤ stop := by
    unfold pageSizeInBytes at *
    omega
  refine ⟨Nat.mod_eq_of_lt (by omega), room, ?_, alignedStop, addressable, ?_⟩
  · unfold pageSizeInBytes at *
    omega
  · intro va lower upper
    exact span.pages va (by omega) upper

theorem PageSpan.page {start stop : Nat} (span : PageSpan start stop) (inside : start < stop) :
    CanonicalPage start :=
  span.pages start le_rfl inside span.alignedStart

/-- A call changes the leaf entries of one window and keeps all others. -/
structure PagesChanged (alloc : KernelAllocator σ) (member : Nat → Prop)
    (change : Nat → Nat → Prop) (kernel kernel' : Kernel σ) (space start stop : Nat) : Prop where
  regions : kernel'.region = kernel.region
  spaces : kernel'.space = kernel.space
  alive : ∀ type ptr, alloc.live kernel'.env type ptr ↔ alloc.live kernel.env type ptr
  backing : Backing alloc.toFrameAllocator member kernel'
  inside : ∀ va, start ≤ va → va < stop → va % pageSizeInBytes = 0 →
    change (mmuLeaf space va kernel) (mmuLeaf space va kernel')
  outside : ∀ {space' va}, member space' → CanonicalPage va →
    ¬(space' = space ∧ start ≤ va ∧ va < stop) → mmuLeaf space' va kernel' = mmuLeaf space' va kernel

section
variable {alloc : KernelAllocator σ} {member : Nat → Prop} {change : Nat → Nat → Prop}
  {kernel middle kernel' : Kernel σ} {space start stop : Nat}

theorem PagesChanged.empty (backing : Backing alloc.toFrameAllocator member kernel)
    (ended : stop ≤ start) : PagesChanged alloc member change kernel kernel space start stop where
  regions := rfl
  spaces := rfl
  alive _ _ := Iff.rfl
  backing := backing
  inside _ lower upper := by omega
  outside _ _ _ := rfl

/-- A change of the first page and a change of the rest form a change of the window. -/
theorem PagesChanged.trans (belongs : member space) (span : PageSpan start stop)
    (nonempty : start < stop)
    (first : PagesChanged alloc member change kernel middle space start (start + pageSizeInBytes))
    (rest : PagesChanged alloc member change middle kernel' space (start + pageSizeInBytes) stop) :
    PagesChanged alloc member change kernel kernel' space start stop where
  regions := rest.regions.trans first.regions
  spaces := rest.spaces.trans first.spaces
  alive type ptr := (rest.alive type ptr).trans (first.alive type ptr)
  backing := rest.backing
  inside va lower upper aligned := by
    have page := span.pages va lower upper aligned
    by_cases here : va < start + pageSizeInBytes
    · have kept := rest.outside belongs page fun inside => absurd inside.2.1 (by omega)
      rw [kept]
      exact first.inside va lower here aligned
    · have kept := first.outside belongs page fun inside => here inside.2.2
      rw [← kept]
      exact rest.inside va (by omega) upper aligned
  outside belongs' page apart := by
    have room := (span.next nonempty).2.1
    have kept := first.outside belongs' page fun inside =>
      apart ⟨inside.1, inside.2.1, by omega⟩
    have kept' := rest.outside belongs' page fun inside =>
      apart ⟨inside.1, by omega, inside.2.2⟩
    exact kept'.trans kept

theorem FrameAllocator.Grows.alive {env env' : σ} (grows : alloc.Grows env env')
    (type : StructType) (ptr : Nat) : alloc.live env' type ptr ↔ alloc.live env type ptr := by
  induction grows with
  | refl => exact Iff.rfl
  | xalloc _ returned ih => exact (alloc.xalloc_live _ _ _ returned type ptr).trans ih

/-- The mapping of one page with a spare frame changes that page only. -/
theorem LeafSet.pagesChanged {value : Nat}
    (backing : Backing alloc.toFrameAllocator member kernel)
    (set : LeafSet alloc.toFrameAllocator member kernel kernel' space start value)
    (spare : value ≠ 0 → Spare alloc.toFrameAllocator member kernel (pageAddr value))
    (aligned : start % pageSizeInBytes = 0) (changed : change (mmuLeaf space start kernel) value) :
    PagesChanged alloc member change kernel kernel' space start (start + pageSizeInBytes) where
  regions := set.regions
  spaces := set.spaces
  alive := set.env.alive
  backing := backing.set set spare
  inside va lower upper aligned' := by
    obtain rfl : va = start := by
      unfold pageSizeInBytes at *
      omega
    rw [set.self]
    exact changed
  outside belongs page apart := by
    apply set.other belongs page
    rintro ⟨sameSpace, samePage⟩
    apply apart
    unfold pageSizeInBytes
    exact ⟨sameSpace, by omega, by omega⟩

/-- A mapping loop fills unmapped pages. -/
def Fills (flags old new : Nat) : Prop := old = 0 ∧ new ≠ 0 ∧ new % pageSizeInBytes = flags

/-- An unmapping loop clears mapped pages. -/
def Clears (old new : Nat) : Prop := old ≠ 0 ∧ new = 0

/-- The flags of a mapping are permission bits with the present bit. -/
structure PageFlags (flags : Nat) : Prop where
  small : flags < pageSizeInBytes
  present : flags % 2 = 1

theorem PageFlags.or_ne_zero {flags : Nat} (valid : PageFlags flags) (pa : Nat) : pa ||| flags ≠ 0 := by
  intro zero
  have flagsZero := (Nat.or_eq_zero_iff.mp zero).2
  have present := valid.present
  omega

/-- The entry of a page with valid flags fills it. -/
theorem PageFlags.fills {flags pa : Nat} (valid : PageFlags flags)
    (aligned : pa % pageSizeInBytes = 0) : Fills flags 0 (pa ||| flags) :=
  ⟨rfl, valid.or_ne_zero pa, or_mod_page aligned valid.small⟩

/-- The unmapping loop clears every page of the window. -/
theorem vmmUnmapPages_clears {steps first : Nat}
    (backing : Backing alloc.toFrameAllocator member kernel) (belongs : member space)
    (span : PageSpan start stop)
    (done : vmmUnmapPages alloc space first stop steps start kernel = .ok kernel') :
    PagesChanged alloc member Clears kernel kernel' space start stop := by
  induction steps generalizing start kernel with
  | zero => cases done
  | succ steps ih =>
      rw [vmmUnmapPages] at done
      split_ifs at done with inside
      · obtain ⟨⟨old, next⟩, unmapped, done⟩ := Outcome.bind_eq_ok.mp done
        simp only at done
        split_ifs at done with absent
        obtain ⟨oldLeaf, middle, env, set, freed, same, kept⟩ :=
          mmuUnmapPage_spec backing belongs (span.page inside) unmapped
        obtain ⟨noWrap, -, rest⟩ := span.next inside
        have mapped : mmuLeaf space start kernel ≠ 0 := oldLeaf ▸ absent
        have cleared : PagesChanged alloc member Clears kernel middle space start
            (start + pageSizeInBytes) :=
          set.pagesChanged backing (fun nonzero => absurd rfl nonzero) span.alignedStart ⟨mapped, rfl⟩
        have page : PagesChanged alloc member Clears kernel next space start
            (start + pageSizeInBytes) := by
          subst same
          refine ⟨cleared.regions, cleared.spaces, ?_, kept absent, cleared.inside, cleared.outside⟩
          intro type ptr
          exact (alloc.pmmFree_live _ _ _ freed type ptr).trans (cleared.alive type ptr)
        rw [noWrap] at done
        exact page.trans belongs span inside (ih page.backing rest done)
      · obtain rfl := Except.ok.inj done
        exact .empty backing (not_lt.mp inside)

end

end B0s
