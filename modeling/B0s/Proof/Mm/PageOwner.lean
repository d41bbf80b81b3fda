import B0s.Proof.Mm.SpaceCall

/-
This file proves that owned pages keep frames of their own while other pages, such as those of the direct mapping, may lead to
any frame.
-/

namespace B0s
open TableForest

variable {σ : Type}

/-- Owned pages lead to held frames that are no tables, and every such frame backs one owned page. -/
structure PrivatePages (frames : FrameAllocator σ) (member : Nat → Prop) (own : Nat → Nat → Prop) (kernel : Kernel σ) :
    Prop where
  tables : PageTables frames member kernel
  belongs : ∀ {space va}, own space va → member space
  owned : ∀ {space va}, own space va → CanonicalPage va → mmuLeaf space va kernel ≠ 0 →
    frames.held kernel.env (kernel.frame space va) ∧ ¬kernel.IsTable member (dmP2V (kernel.frame space va))
  unshared : ∀ {space va space' va'}, own space va → own space' va' → CanonicalPage va → CanonicalPage va' →
    mmuLeaf space va kernel ≠ 0 → mmuLeaf space' va' kernel ≠ 0 →
    kernel.frame space va = kernel.frame space' va' → space = space' ∧ va = va'

/-- A frame is untaken when it is held, but no table and no owned page uses it yet. -/
structure Untaken (frames : FrameAllocator σ) (member : Nat → Prop) (own : Nat → Nat → Prop) (kernel : Kernel σ)
    (pa : Nat) : Prop where
  held : frames.held kernel.env pa
  apart : ¬kernel.IsTable member (dmP2V pa)
  unused : ∀ {space va}, own space va → CanonicalPage va → mmuLeaf space va kernel ≠ 0 → kernel.frame space va ≠ pa

section
variable {frames : FrameAllocator σ} {member : Nat → Prop} {own : Nat → Nat → Prop} {kernel kernel' : Kernel σ}

/-- A new frame is untaken. -/
theorem PrivatePages.xalloc (pages : PrivatePages frames member own kernel) {pa : Nat} {env : σ}
    (returned : frames.pmmXalloc kernel.env = .ok (pa, env)) :
    PrivatePages frames member own { kernel with env := env } ∧
      Untaken frames member own { kernel with env := env } pa := by
  have grows : frames.Grows kernel.env env := (FrameAllocator.Grows.refl _).xalloc returned
  have new := xalloc_newTable returned
  refine ⟨⟨⟨pages.tables.forest, fun table reached => (pages.tables.backed table reached).grows grows⟩,
    pages.belongs, ?_, pages.unshared⟩, ?_, ?_, ?_⟩
  · intro space va mine page mapped
    have owned := pages.owned mine page mapped
    exact ⟨grows.held owned.1, owned.2⟩
  · exact (frames.xalloc_held _ _ _ returned pa).mpr (Or.inr rfl)
  · exact fun table => new.fresh (pages.tables.backed _ table)
  · intro space va mine page mapped same
    have held := (pages.owned mine page mapped).1
    exact frames.xalloc_fresh _ _ _ returned (same ▸ held)

/-- A new leaf entry keeps the owned pages when it is not owned or when its frame is untaken. -/
theorem PrivatePages.set (pages : PrivatePages frames member own kernel) {space va value : Nat}
    (set : LeafSet frames member kernel kernel' space va value)
    (untaken : own space va → value ≠ 0 → Untaken frames member own kernel (pageAddr value)) :
    PrivatePages frames member own kernel' := by
  have old : ∀ {space' va'}, own space' va' → CanonicalPage va' → ¬(space' = space ∧ va' = va) →
      mmuLeaf space' va' kernel' = mmuLeaf space' va' kernel ∧
        kernel'.frame space' va' = kernel.frame space' va' := by
    intro space' va' mine page different
    have same := set.other (pages.belongs mine) page different
    exact ⟨same, congrArg pageAddr same⟩
  have new : kernel'.frame space va = pageAddr value := congrArg pageAddr set.self
  have apart : ∀ {table}, Backed frames kernel.env table → ¬kernel.IsTable member table →
      ¬kernel'.IsTable member table := by
    intro table backed outside inside
    rcases set.fresh table inside with before | unbacked
    · exact outside before
    · exact unbacked backed
  refine ⟨set.tables, pages.belongs, ?_, ?_⟩
  · intro space' va' mine page mapped
    by_cases same : space' = space ∧ va' = va
    · obtain ⟨rfl, rfl⟩ := same
      rw [set.self] at mapped
      rw [new]
      have spare := untaken mine mapped
      exact ⟨set.env.held spare.held,
        apart (held_backed spare.held (pageAddr_aligned _) (pageAddr_lt _)) spare.apart⟩
    · obtain ⟨leaf, frame⟩ := old mine page same
      rw [leaf] at mapped
      rw [frame]
      obtain ⟨held, outside⟩ := pages.owned mine page mapped
      exact ⟨set.env.held held, apart (Kernel.frame_backed held) outside⟩
  · intro space₁ va₁ space₂ va₂ mine₁ mine₂ page₁ page₂ mapped₁ mapped₂ equal
    by_cases same₁ : space₁ = space ∧ va₁ = va
    · obtain ⟨rfl, rfl⟩ := same₁
      by_cases same₂ : space₂ = space₁ ∧ va₂ = va₁
      · exact ⟨same₂.1.symm, same₂.2.symm⟩
      · obtain ⟨leaf, frame⟩ := old mine₂ page₂ same₂
        rw [set.self] at mapped₁
        rw [leaf] at mapped₂
        rw [new, frame] at equal
        exact absurd equal.symm ((untaken mine₁ mapped₁).unused mine₂ page₂ mapped₂)
    · obtain ⟨leaf, frame⟩ := old mine₁ page₁ same₁
      rw [leaf] at mapped₁
      rw [frame] at equal
      by_cases same₂ : space₂ = space ∧ va₂ = va
      · obtain ⟨rfl, rfl⟩ := same₂
        rw [set.self] at mapped₂
        rw [new] at equal
        exact absurd equal ((untaken mine₂ mapped₂).unused mine₁ page₁ mapped₁)
      · obtain ⟨leaf₂, frame₂⟩ := old mine₂ page₂ same₂
        rw [leaf₂] at mapped₂
        rw [frame₂] at equal
        exact pages.unshared mine₁ mine₂ page₁ page₂ mapped₁ mapped₂ equal

/-- The owned pages depend only on the words, the roots, and the held frames. -/
theorem PrivatePages.transport (pages : PrivatePages frames member own kernel) (word : kernel'.word = kernel.word)
    (root : kernel'.root = kernel.root) (held : ∀ frame, frames.held kernel'.env frame ↔ frames.held kernel.env frame) :
    PrivatePages frames member own kernel' := by
  have leaf : ∀ space va, mmuLeaf space va kernel' = mmuLeaf space va kernel :=
    fun space va => mmuLeaf_congr word (congrFun root space)
  have frame : ∀ space va, kernel'.frame space va = kernel.frame space va :=
    fun space va => congrArg pageAddr (leaf space va)
  refine ⟨pages.tables.transport word root held, pages.belongs, ?_, ?_⟩
  · intro space va mine page
    rw [leaf, frame, held, Kernel.IsTable, word, root]
    exact pages.owned mine page
  · intro space₁ va₁ space₂ va₂
    rw [leaf, leaf, frame, frame]
    exact pages.unshared

/-- A new empty page table keeps the owned pages, and it may own pages itself. -/
theorem PrivatePages.plant {member' : Nat → Prop} {own' : Nat → Nat → Prop} {space : Nat}
    (pages : PrivatePages frames member own kernel) (planted : RootSet frames member member' kernel kernel' space)
    (belongs : ∀ {other va}, own' other va → member' other)
    (only : ∀ {other va}, own' other va → other ≠ space → own other va) :
    PrivatePages frames member' own' kernel' := by
  have old : ∀ {other va}, own' other va → mmuLeaf other va kernel' ≠ 0 →
      own other va ∧ mmuLeaf other va kernel' = mmuLeaf other va kernel ∧
        kernel'.frame other va = kernel.frame other va := by
    intro other va mine mapped
    have different : other ≠ space := by
      rintro rfl
      exact mapped (planted.self va)
    have same := @planted.other other va (belongs mine) different
    exact ⟨only mine different, same, congrArg pageAddr same⟩
  refine ⟨planted.tables, belongs, ?_, ?_⟩
  · intro other va mine page mapped
    obtain ⟨mine', leaf, frame⟩ := old mine mapped
    rw [leaf] at mapped
    rw [frame]
    obtain ⟨held, outside⟩ := pages.owned mine' page mapped
    refine ⟨planted.env.held held, fun table => ?_⟩
    rcases planted.fresh _ table with before | unbacked
    · exact outside before
    · exact unbacked (Kernel.frame_backed held)
  · intro space₁ va₁ space₂ va₂ mine₁ mine₂ page₁ page₂ mapped₁ mapped₂ equal
    obtain ⟨mine₁', leaf₁, frame₁⟩ := old mine₁ mapped₁
    obtain ⟨mine₂', leaf₂, frame₂⟩ := old mine₂ mapped₂
    rw [leaf₁] at mapped₁
    rw [leaf₂] at mapped₂
    rw [frame₁, frame₂] at equal
    exact pages.unshared mine₁' mine₂' page₁ page₂ mapped₁ mapped₂ equal

/-- Unmapping an owned page that is mapped clears its leaf entry and releases its frame. -/
theorem mmuUnmapPage_private (pages : PrivatePages frames member own kernel) {space va old : Nat}
    (mine : own space va) (page : CanonicalPage va)
    (unmapped : mmuUnmapPage frames space va kernel = .ok (old, kernel')) :
    old = mmuLeaf space va kernel ∧ ∃ middle env,
      LeafSet frames member kernel middle space va 0 ∧
      frames.pmmFree (kernel.frame space va) middle.env = .ok env ∧ kernel' = { middle with env := env } ∧
      (old ≠ 0 → PrivatePages frames member own kernel') := by
  unfold mmuUnmapPage at unmapped
  obtain ⟨⟨pa, middle⟩, mapped, unmapped⟩ := Outcome.bind_eq_ok.mp unmapped
  obtain ⟨env, freed, unmapped⟩ := Outcome.bind_eq_ok.mp unmapped
  obtain ⟨rfl, rfl⟩ := Prod.mk.inj (Except.ok.inj unmapped)
  obtain ⟨rfl, set⟩ := mmuMapPage_leafSet pages.tables (pages.belongs mine) page (by decide) mapped
  refine ⟨rfl, middle, env, set, freed, rfl, ?_⟩
  intro present
  have cleared := pages.set set fun _ nonzero => absurd rfl nonzero
  have held := frames.free_held _ _ _ freed
  refine ⟨⟨set.tables.forest, ?_⟩, pages.belongs, ?_, cleared.unshared⟩
  · intro table reached
    obtain ⟨frame, tableHeld, aligned, bounded, same⟩ := set.tables.backed table reached
    refine ⟨frame, (held frame).mpr ⟨tableHeld, ?_⟩, aligned, bounded, same⟩
    intro equal
    obtain ⟨frameHeld, outside⟩ := pages.owned mine page present
    have tableSame : table = dmP2V (kernel.frame space va) := by
      rw [same, equal]
      rfl
    rcases set.fresh table reached with before | unbacked
    · exact outside (tableSame ▸ before)
    · exact unbacked (tableSame ▸ Kernel.frame_backed frameHeld)
  · intro space' va' mine' page' mapped'
    obtain ⟨frameHeld, outside⟩ := cleared.owned mine' page' mapped'
    refine ⟨(held _).mpr ⟨frameHeld, ?_⟩, outside⟩
    have different : ¬(space' = space ∧ va' = va) := by
      rintro ⟨rfl, rfl⟩
      exact mapped' set.self
    have same := set.other (pages.belongs mine') page' different
    have mappedBefore : mmuLeaf space' va' kernel ≠ 0 := same ▸ mapped'
    intro equal
    exact different (pages.unshared mine' mine page' page mappedBefore present
      ((congrArg pageAddr same).symm.trans equal))

end

/-- The leaf entries of one window change, and all others stay. -/
structure LeavesChanged (member : Nat → Prop) (change : Nat → Nat → Prop) (kernel kernel' : Kernel σ)
    (space start stop : Nat) : Prop where
  inside : ∀ {va}, WindowPage start stop va → change (mmuLeaf space va kernel) (mmuLeaf space va kernel')
  outside : ∀ {space' va}, member space' → CanonicalPage va → ¬(space' = space ∧ start ≤ va ∧ va < stop) →
    mmuLeaf space' va kernel' = mmuLeaf space' va kernel

/-- A call changes the leaf entries of one window and keeps all records. -/
structure WindowChanged (alloc : KernelAllocator σ) (member : Nat → Prop) (change : Nat → Nat → Prop)
    (kernel kernel' : Kernel σ) (space start stop : Nat) : Prop extends
    LeavesChanged member change kernel kernel' space start stop where
  regions : kernel'.region = kernel.region
  spaces : kernel'.space = kernel.space
  alive : ∀ type ptr, alloc.live kernel'.env type ptr ↔ alloc.live kernel.env type ptr

section
variable {alloc : KernelAllocator σ} {member : Nat → Prop} {own : Nat → Nat → Prop} {change : Nat → Nat → Prop}
  {kernel middle kernel' : Kernel σ} {space start stop flags region steps : Nat} {overwrite : Nat → Panic}

theorem WindowChanged.empty (ended : stop ≤ start) : WindowChanged alloc member change kernel kernel space start stop where
  regions := rfl
  spaces := rfl
  alive _ _ := Iff.rfl
  inside page := absurd (page.lower.trans_lt page.upper) (not_lt.mpr ended)
  outside _ _ _ := rfl

/-- A change of the first page and a change of the rest change the window. -/
theorem WindowChanged.cons {value : Nat} (span : PageSpan start stop) (nonempty : start < stop) (belongs : member space)
    (set : LeafSet alloc.toFrameAllocator member kernel middle space start value)
    (changed : change (mmuLeaf space start kernel) value)
    (rest : WindowChanged alloc member change middle kernel' space (start + pageSizeInBytes) stop) :
    WindowChanged alloc member change kernel kernel' space start stop where
  regions := rest.regions.trans set.regions
  spaces := rest.spaces.trans set.spaces
  alive type ptr := (rest.alive type ptr).trans (set.env.alive type ptr)
  inside {va} page := by
    rcases page.cases span.alignedStart with rfl | later
    · rw [rest.outside belongs (span.page nonempty) fun window => absurd window.2.1 (by unfold pageSizeInBytes; omega),
        set.self]
      exact changed
    · have canonical := span.pages va page.lower page.upper page.aligned
      rw [← set.other belongs canonical]
      · exact rest.inside later
      · rintro ⟨-, rfl⟩
        have lower := later.lower
        unfold pageSizeInBytes at lower
        omega
  outside {space' va} known page apart := by
    rw [rest.outside known page, set.other known page]
    · rintro ⟨rfl, rfl⟩
      exact apart ⟨rfl, le_rfl, nonempty⟩
    · rintro ⟨rfl, lower, upper⟩
      exact apart ⟨rfl, (Nat.le_add_right _ _).trans lower, upper⟩

/-- The mapping loop over owned pages faults with the frame allocator, meets a page that is already mapped, or fills the
window with frames of its own. A region that reaches further than the window is mapped behind it. -/
theorem vmmMapPages_private {last : Nat} (pages : PrivatePages alloc.toFrameAllocator member own kernel)
    (belongs : member space) (mine : ∀ {va}, WindowPage start stop va → own space va) (span : PageSpan start last)
    (valid : PageFlags flags) (ends : (kernel.region region).vaStop = last) (room : start ≤ stop ∧ stop ≤ last)
    (alignedStop : stop % pageSizeInBytes = 0) (blocked : stop < last → mmuLeaf space stop kernel ≠ 0)
    (enough : last - start < steps * pageSizeInBytes) :
    (∃ fault env, vmmMapPages alloc space region flags overwrite steps start kernel = .error fault ∧
      alloc.pmmXalloc env = .error fault) ∨
    (∃ va, WindowPage start last va ∧ mmuLeaf space va kernel ≠ 0 ∧
      vmmMapPages alloc space region flags overwrite steps start kernel = .error (.panic (overwrite va))) ∨
    stop = last ∧ ∃ kernel', vmmMapPages alloc space region flags overwrite steps start kernel = .ok kernel' ∧
      WindowChanged alloc member (Fills flags) kernel kernel' space start stop ∧
      PrivatePages alloc.toFrameAllocator member own kernel' := by
  induction steps generalizing start kernel with
  | zero => omega
  | succ steps ih =>
      rw [vmmMapPages, ends]
      by_cases inside : start < last
      · rw [if_pos inside]
        have first : WindowPage start last start := .first span.alignedStart inside
        cases returned : alloc.pmmXalloc kernel.env with
        | error fault => exact Or.inl ⟨fault, _, rfl, returned⟩
        | ok result =>
            obtain ⟨pa, env⟩ := result
            obtain ⟨kept, untaken⟩ := pages.xalloc returned
            cases mapped : mmuMapPage alloc.toFrameAllocator space start pa flags { kernel with env := env } with
            | error fault =>
                obtain ⟨env', exhausted⟩ := mmuMapPage_fault mapped
                exact Or.inl ⟨fault, env', Outcome.bind_eq_error.mpr (Or.inr ⟨_, rfl,
                  Outcome.bind_eq_error.mpr (Or.inl mapped)⟩), exhausted⟩
            | ok result =>
                obtain ⟨old, middle⟩ := result
                obtain ⟨oldLeaf, set⟩ := mmuMapPage_leafSet kept.tables belongs (span.page inside) valid.small mapped
                obtain ⟨aligned, bounded⟩ := alloc.xalloc_aligned _ _ _ returned
                obtain ⟨noWrap, fits, rest⟩ := span.next inside
                by_cases empty : old = 0
                · have vacant : mmuLeaf space start kernel = 0 := oldLeaf.symm.trans empty
                  -- Only the page behind the window is known to be mapped.
                  have before : start < stop := by
                    by_contra behind
                    obtain rfl : start = stop := by omega
                    exact blocked inside vacant
                  have grown : LeafSet alloc.toFrameAllocator member kernel middle space start (pa ||| flags) := by
                    have taken : alloc.Grows kernel.env env := (FrameAllocator.Grows.refl _).xalloc returned
                    refine ⟨set.regions, set.spaces, taken.trans set.env, set.tables, ?_, set.self, set.other⟩
                    intro table reached
                    exact (set.fresh table reached).imp_right fun unbacked backed => unbacked (backed.grows taken)
                  have other : ∀ {va}, start + pageSizeInBytes ≤ va → CanonicalPage va →
                      mmuLeaf space va middle = mmuLeaf space va kernel := by
                    intro va later page
                    apply grown.other belongs page
                    rintro ⟨-, rfl⟩
                    unfold pageSizeInBytes at later
                    omega
                  have next := kept.set set fun _ _ => (pageAddr_or aligned bounded valid.small).symm ▸ untaken
                  have whole : PageSpan start stop := ⟨span.alignedStart, alignedStop, by have := span.addressable; omega,
                    fun va lower upper => span.pages va lower (upper.trans_le room.2)⟩
                  have room' : start + pageSizeInBytes ≤ stop := (whole.next before).2.1
                  have blocked' : stop < last → mmuLeaf space stop middle ≠ 0 := by
                    intro further
                    rw [other room' (span.pages stop room.1 further alignedStop)]
                    exact blocked further
                  rcases ih next (fun later => mine later.later) rest (by rw [set.regions]; exact ends)
                    ⟨room', room.2⟩ blocked' (by rw [Nat.succ_mul] at enough; unfold pageSizeInBytes at *; omega) with
                    ⟨fault, env', failed, exhausted⟩ | ⟨va, later, occupied, failed⟩ | ⟨exact', final, done, changed, kept'⟩
                  · refine Or.inl ⟨fault, env', ?_, exhausted⟩
                    simp only [bind, Except.bind, mapped, empty, ne_eq, not_true_eq_false, if_false, noWrap, failed]
                  · refine Or.inr (Or.inl ⟨va, later.later, ?_, ?_⟩)
                    · rwa [← other later.lower (span.pages va later.later.lower later.upper later.aligned)]
                    · simp only [bind, Except.bind, mapped, empty, ne_eq, not_true_eq_false, if_false, noWrap, failed]
                  · refine Or.inr (Or.inr ⟨exact', final, ?_,
                      .cons whole before belongs grown (vacant.symm ▸ valid.fills aligned) changed, kept'⟩)
                    simp only [bind, Except.bind, mapped, empty, ne_eq, not_true_eq_false, if_false, noWrap, done]
                · refine Or.inr (Or.inl ⟨start, first, oldLeaf ▸ empty, ?_⟩)
                  simp only [bind, Except.bind, mapped, ne_eq, empty, not_false_eq_true, if_true]
      · rw [if_neg inside]
        exact Or.inr (Or.inr ⟨by omega, kernel, rfl, .empty (by omega), pages⟩)

/-- The unmapping loop over owned pages clears the window and releases its frames. -/
theorem vmmUnmapPages_private {first : Nat} (pages : PrivatePages alloc.toFrameAllocator member own kernel)
    (mine : ∀ {va}, WindowPage start stop va → own space va) (span : PageSpan start stop)
    (done : vmmUnmapPages alloc space first stop steps start kernel = .ok kernel') :
    WindowChanged alloc member Clears kernel kernel' space start stop ∧
      PrivatePages alloc.toFrameAllocator member own kernel' := by
  induction steps generalizing start kernel with
  | zero => cases done
  | succ steps ih =>
      rw [vmmUnmapPages] at done
      split_ifs at done with inside
      · obtain ⟨⟨old, next⟩, unmapped, done⟩ := Outcome.bind_eq_ok.mp done
        simp only at done
        split_ifs at done with absent
        have own' := mine (.first span.alignedStart inside)
        obtain ⟨oldLeaf, middle, env, set, freed, rfl, kept⟩ :=
          mmuUnmapPage_private pages own' (span.page inside) unmapped
        obtain ⟨noWrap, -, rest⟩ := span.next inside
        rw [noWrap] at done
        obtain ⟨changed, kept'⟩ := ih (kept absent) (fun later => mine later.later) rest done
        have alive : ∀ type ptr, alloc.live kernel'.env type ptr ↔ alloc.live middle.env type ptr :=
          fun type ptr => (changed.alive type ptr).trans (alloc.pmmFree_live _ _ _ freed type ptr)
        have cleared : Clears (mmuLeaf space start kernel) 0 := ⟨oldLeaf ▸ absent, rfl⟩
        exact ⟨.cons span inside (pages.belongs own') set cleared
          ⟨⟨changed.inside, changed.outside⟩, changed.regions, changed.spaces, alive⟩, kept'⟩
      · obtain rfl := Except.ok.inj done
        exact ⟨.empty (not_lt.mp inside), pages⟩

/-- The frame allocator faults when it has no frame left or when it refuses a held frame. -/
def FrameAllocator.Faults (frames : FrameAllocator σ) (fault : Fault) : Prop :=
  ∃ env, frames.pmmXalloc env = .error fault ∨ ∃ frame, frames.held env frame ∧ frames.pmmFree frame env = .error fault

/-- Unmapping an owned page that is mapped faults only with the frame allocator. -/
theorem mmuUnmapPage_returns {va : Nat} (pages : PrivatePages alloc.toFrameAllocator member own kernel)
    (mine : own space va) (page : CanonicalPage va) (mapped : mmuLeaf space va kernel ≠ 0) :
    (∃ fault, mmuUnmapPage alloc.toFrameAllocator space va kernel = .error fault ∧ alloc.Faults fault) ∨
    ∃ next, mmuUnmapPage alloc.toFrameAllocator space va kernel = .ok (mmuLeaf space va kernel, next) := by
  unfold mmuUnmapPage
  cases maps : mmuMapPage alloc.toFrameAllocator space va 0 0 kernel with
  | error fault =>
      obtain ⟨env, exhausted⟩ := mmuMapPage_fault maps
      exact Or.inl ⟨fault, rfl, env, Or.inl exhausted⟩
  | ok result =>
      obtain ⟨old, middle⟩ := result
      obtain ⟨rfl, set⟩ := mmuMapPage_leafSet pages.tables (pages.belongs mine) page (by decide) maps
      have held := set.env.held (pages.owned mine page mapped).1
      cases freed : alloc.pmmFree (pageAddr (mmuLeaf space va kernel)) middle.env with
      | error fault =>
          refine Or.inl ⟨fault, ?_, middle.env, Or.inr ⟨_, held, freed⟩⟩
          simp only [bind, Except.bind, freed]
      | ok env =>
          refine Or.inr ⟨{ middle with env := env }, ?_⟩
          simp only [bind, Except.bind, freed]

/-- The unmapping loop over owned pages that are mapped faults only with the frame allocator. -/
theorem vmmUnmapPages_returns {first : Nat} (pages : PrivatePages alloc.toFrameAllocator member own kernel)
    (mine : ∀ {va}, WindowPage start stop va → own space va) (span : PageSpan start stop)
    (mapped : ∀ {va}, WindowPage start stop va → mmuLeaf space va kernel ≠ 0)
    (enough : stop - start < steps * pageSizeInBytes) :
    (∃ fault, vmmUnmapPages alloc space first stop steps start kernel = .error fault ∧ alloc.Faults fault) ∨
    ∃ kernel', vmmUnmapPages alloc space first stop steps start kernel = .ok kernel' := by
  induction steps generalizing start kernel with
  | zero => omega
  | succ steps ih =>
      rw [vmmUnmapPages]
      by_cases inside : start < stop
      · rw [if_pos inside]
        have here : WindowPage start stop start := .first span.alignedStart inside
        rcases mmuUnmapPage_returns pages (mine here) (span.page inside) (mapped here) with
          ⟨fault, failed, faults⟩ | ⟨next, unmapped⟩
        · exact Or.inl ⟨fault, by rw [failed]; rfl, faults⟩
        obtain ⟨-, middle, env, set, -, rfl, kept⟩ := mmuUnmapPage_private pages (mine here) (span.page inside) unmapped
        obtain ⟨noWrap, fits, rest⟩ := span.next inside
        have later : ∀ {va}, WindowPage (start + pageSizeInBytes) stop va → mmuLeaf space va middle ≠ 0 := by
          intro va page
          rw [set.other (pages.belongs (mine here)) (rest.pages va page.lower page.upper page.aligned)]
          · exact mapped page.later
          · rintro ⟨-, rfl⟩
            have lower := page.lower
            unfold pageSizeInBytes at lower
            omega
        rw [Nat.succ_mul] at enough
        have fewer : stop - (start + pageSizeInBytes) < steps * pageSizeInBytes := by
          unfold pageSizeInBytes at *
          omega
        simp only [bind, Except.bind, unmapped, if_neg (mapped here), noWrap]
        exact ih (kept (mapped here)) (fun page => mine page.later) rest later fewer
      · rw [if_neg inside]
        exact Or.inr ⟨kernel, rfl⟩

/-- The copying loop changes no owned page. -/
theorem mmuCopyPages_private {dst src : Nat} (pages : PrivatePages alloc.toFrameAllocator member own kernel)
    (belongs : member dst) (foreign : ∀ {va}, WindowPage start stop va → ¬own dst va) (span : PageSpan start stop)
    (small : flags < pageSizeInBytes) (ends : (kernel.region region).vaStop = stop)
    (flagged : (kernel.region region).flags = flags)
    (done : mmuCopyPages alloc dst src region steps start kernel = .ok kernel') :
    PrivatePages alloc.toFrameAllocator member own kernel' := by
  induction steps generalizing start kernel with
  | zero => cases done
  | succ steps ih =>
      rw [mmuCopyPages, ends, flagged] at done
      split_ifs at done with inside
      · obtain ⟨⟨old, middle⟩, mapped, done⟩ := Outcome.bind_eq_ok.mp done
        simp only at done
        split_ifs at done with overwritten
        obtain ⟨-, set⟩ := mmuMapPage_leafSet pages.tables belongs (span.page inside) small mapped
        obtain ⟨noWrap, -, rest⟩ := span.next inside
        rw [noWrap] at done
        refine ih (pages.set set fun mine => absurd mine (foreign (.first span.alignedStart inside)))
          (fun later => foreign later.later) rest ?_ ?_ done
        · rw [set.regions]
          exact ends
        · rw [set.regions]
          exact flagged
      · obtain rfl := Except.ok.inj done
        exact pages

end

end B0s
