import B0s.Construction.Multitasking.ProcessSpace
import B0s.Proof.Mm.CoupledCopy
import B0s.Proof.Mm.KheapWords
import B0s.Proof.Mm.PageGrant

/-
This file proves what keeps the spaces of processes apart.
-/

namespace B0s
open DoublyLinked RangeMap

variable {σ : Type}

/-- A process owns the pages of its lower half, and the kernel owns the pages of its heap. -/
def OwnPage (kspace : Nat) (users : List Nat) (space va : Nat) : Prop :=
  space ∈ users ∧ va < 2 ^ 47 ∨ space = kspace ∧ kernelHeapStart ≤ va ∧ va < kernelHeapStop

/-- An entry is kept from ring 3 without its user bit. -/
def Supervisor (entry : Nat) : Prop := entry &&& pageUserRing = 0

/-- The spaces of the processes lie beside the kernel space, whose pages stay below a bound and are kept from ring 3. -/
structure Isolated (alloc : KernelAllocator σ) (kspace top : Nat) (users : List Nat) (lists : Nat → List Nat)
    (kernel : Kernel σ) : Prop where
  coexist : Coexist alloc (· ∈ kspace :: users) (OwnPage kspace users) lists kernel
  foreign : kspace ∉ users
  kernelPages : ∀ {va}, CanonicalPage va → mmuLeaf kspace va kernel ≠ 0 →
    higherHalfStart ≤ va ∧ va < top ∧ mmuLeaf kspace va kernel % 2 = 1 ∧ Supervisor (mmuLeaf kspace va kernel)
  guard : mmuLeaf kspace (kernelHeapStart - pageSizeInBytes) kernel = 0
  image : ∃ va, CanonicalPage va ∧ kernelHeapStop ≤ va ∧ mmuLeaf kspace va kernel ≠ 0
  upper : ∀ {space va}, space ∈ users → CanonicalPage va → higherHalfStart ≤ va → Supervisor (mmuLeaf space va kernel)

/-- The user bit lies among the permission bits. -/
theorem supervisor_mod (entry : Nat) : Supervisor entry ↔ Supervisor (entry % pageSizeInBytes) := by
  have low : pageSizeInBytes - 1 &&& pageUserRing = pageUserRing := by decide
  have same : entry % pageSizeInBytes &&& pageUserRing = entry &&& pageUserRing := by
    rw [← low, ← Nat.and_assoc, ← Nat.and_assoc]
    have small : entry % pageSizeInBytes &&& (pageSizeInBytes - 1) = entry % pageSizeInBytes :=
      (Nat.and_two_pow_sub_one_eq_mod _ 12).trans (Nat.mod_mod _ _)
    have big : entry &&& (pageSizeInBytes - 1) = entry % pageSizeInBytes := Nat.and_two_pow_sub_one_eq_mod entry 12
    rw [small, big]
  unfold Supervisor
  rw [same]

/-- The entry of a page filled with kernel flags is present and kept from ring 3. -/
theorem Fills.kernel {flags old new : Nat} (fills : Fills flags old new) (valid : PageFlags flags)
    (safe : Supervisor flags) : new % 2 = 1 ∧ Supervisor new := by
  obtain ⟨-, -, same⟩ := fills
  refine ⟨?_, (supervisor_mod new).mpr (same.symm ▸ safe)⟩
  have present := valid.present
  unfold pageSizeInBytes at same
  omega

section
variable {alloc : KernelAllocator σ} {kspace top : Nat} {users : List Nat} {lists lists' : Nat → List Nat}
  {kernel kernel' : Kernel σ} {space start stop : Nat} {change : Nat → Nat → Prop}

/-- A listed address of the kernel space lies on a mapped page. -/
theorem Isolated.denoted (isolated : Isolated alloc kspace top users lists kernel) {va flags : Nat}
    (denoted : Denotes (kernel.ranges (lists kspace)) va flags) : CanonicalPage (pageOf va) ∧
      mmuLeaf kspace (pageOf va) kernel ≠ 0 ∧ mmuLeaf kspace (pageOf va) kernel % pageSizeInBytes = flags := by
  have coupled := isolated.coexist.coupled
  have belongs : kspace ∈ kspace :: users := List.mem_cons_self
  have whole := coupled.pages belongs
  have page := whole.pages va flags denoted
  exact ⟨page, (coupled.mapped belongs page).mp ((whole.whole va flags).mp denoted)⟩

/-- A region of the kernel space lies in the higher half below the bound. -/
theorem Isolated.range_bounds (isolated : Isolated alloc kspace top users lists kernel) {range : Range Nat Nat}
    (inside : range ∈ kernel.ranges (lists kspace)) :
    higherHalfStart ≤ range.start ∧ range.stop < top + pageSizeInBytes := by
  have whole := isolated.coexist.coupled.pages (List.mem_cons_self : kspace ∈ kspace :: users)
  have nonempty := whole.canonical.nonempty range inside
  have aligned := (whole.span inside).alignedStart
  obtain ⟨page, mapped, -⟩ := isolated.denoted ⟨range, inside, ⟨le_rfl, nonempty⟩, rfl⟩
  have last : Denotes (kernel.ranges (lists kspace)) (range.stop - 1) range.flags :=
    ⟨range, inside, ⟨by omega, by omega⟩, rfl⟩
  obtain ⟨page', mapped', -⟩ := isolated.denoted last
  have lower := (isolated.kernelPages page mapped).1
  have upper := (isolated.kernelPages page' mapped').2.1
  rw [pageOf_aligned aligned] at lower
  refine ⟨lower, ?_⟩
  unfold pageOf pageSizeInBytes at *
  omega

/-- The window of a call lies in the lower half of a process or in the kernel heap. -/
def OwnWindow (kspace : Nat) (users : List Nat) (space start stop : Nat) : Prop :=
  space ∈ users ∧ stop ≤ 2 ^ 47 ∨ space = kspace ∧ kernelHeapStart ≤ start ∧ stop ≤ kernelHeapStop

theorem OwnWindow.own (window : OwnWindow kspace users space start stop) {va : Nat} (page : WindowPage start stop va) :
    OwnPage kspace users space va :=
  window.imp (fun user => ⟨user.1, page.upper.trans_le user.2⟩)
    fun heap => ⟨heap.1, heap.2.1.trans page.lower, page.upper.trans_le heap.2.2⟩

theorem OwnWindow.mem (window : OwnWindow kspace users space start stop) : space ∈ kspace :: users := by
  rcases window with ⟨user, -⟩ | ⟨rfl, -⟩
  · exact List.mem_cons_of_mem _ user
  · exact List.mem_cons_self

/-- A change of owned pages keeps the spaces isolated. -/
theorem Isolated.changed (isolated : Isolated alloc kspace top users lists kernel)
    (coexist : Coexist alloc (· ∈ kspace :: users) (OwnPage kspace users) lists' kernel')
    (changed : LeavesChanged (· ∈ kspace :: users) change kernel kernel' space start stop)
    (window : OwnWindow kspace users space start stop)
    (safe : space = kspace → ∀ {old new}, change old new → new ≠ 0 → new % 2 = 1 ∧ Supervisor new) :
    Isolated alloc kspace top users lists' kernel' := by
  obtain ⟨-, foreign, kernelPages, guard, image, upper⟩ := isolated
  have known : kspace ∈ kspace :: users := List.mem_cons_self
  have layout : higherHalfStart ≤ kernelHeapStart - pageSizeInBytes ∧ 2 ^ 47 ≤ kernelHeapStart - pageSizeInBytes ∧
      kernelHeapStart - pageSizeInBytes < kernelHeapStart ∧ kernelHeapStart < kernelHeapStop := by decide
  -- The window of the kernel space is the heap.
  have heap : space = kspace → kernelHeapStart ≤ start ∧ stop ≤ kernelHeapStop := by
    rintro rfl
    exact (window.resolve_left fun user => foreign user.1).2
  obtain ⟨above, canonical, behind, mapped⟩ := image
  have bound := (kernelPages canonical mapped).2.1
  refine ⟨coexist, foreign, ?_, ?_, ⟨above, canonical, behind, ?_⟩, ?_⟩
  · intro va page present
    by_cases inside : kspace = space ∧ start ≤ va ∧ va < stop
    · obtain ⟨same, lower, upper'⟩ := inside
      have bounds := heap same.symm
      have entry := changed.inside ⟨lower, upper', page.aligned⟩
      rw [← same] at entry
      exact ⟨by omega, by omega, safe same.symm entry present⟩
    · have kept := changed.outside known page inside
      rw [kept] at present ⊢
      exact kernelPages page present
  · rw [changed.outside known ⟨by decide, by decide, by decide⟩, guard]
    rintro ⟨same, lower, -⟩
    have bounds := heap same.symm
    omega
  · rw [changed.outside known canonical]
    · exact mapped
    · rintro ⟨same, -, upper'⟩
      have bounds := heap same.symm
      omega
  · intro other va user page high
    rw [changed.outside (List.mem_cons_of_mem _ user) page]
    · exact upper user page high
    · rintro ⟨rfl, -, upper'⟩
      rcases window with ⟨-, lower⟩ | ⟨rfl, -⟩
      · have high' : 2 ^ 47 < higherHalfStart := by decide
        omega
      · exact foreign user

/-- A window that starts below an aligned address and reaches it has the page below it. -/
theorem guard_page {start stop heap : Nat} (alignedStart : start % pageSizeInBytes = 0)
    (alignedStop : stop % pageSizeInBytes = 0) (aligned : heap % pageSizeInBytes = 0) (below : start < heap)
    (reaches : heap ≤ stop) : WindowPage start stop (heap - pageSizeInBytes) := by
  unfold pageSizeInBytes at *
  refine ⟨by omega, by omega, ?_⟩
  unfold pageSizeInBytes
  omega

/-- The call that maps pages of a process keeps the spaces isolated. -/
theorem Isolated.allocAt {va sizeInPages flags ret : Nat} (isolated : Isolated alloc kspace top users lists kernel)
    (user : space ∈ users) (window : HalfWindow va (va + sizeInPages * pageSizeInBytes))
    (lower : va + sizeInPages * pageSizeInBytes ≤ 2 ^ 47) (valid : PageFlags flags)
    (done : vmmAllocAt alloc space va sizeInPages flags kernel = .ok (ret, kernel')) :
    kernel' = kernel ∨ ∃ lists', Isolated alloc kspace top users lists' kernel' ∧
      LeavesChanged (· ∈ kspace :: users) (Fills flags) kernel kernel' space va
        (va + sizeInPages * pageSizeInBytes) := by
  by_cases null : va = NULL
  · rw [vmmAllocAt, if_pos null] at done
    exact Or.inl (Prod.mk.inj (Except.ok.inj done)).2.symm
  · have own : OwnWindow kspace users space va (va + sizeInPages * pageSizeInBytes) := Or.inl ⟨user, lower⟩
    obtain ⟨lists', coexist, changed⟩ := isolated.coexist.allocAt own.mem window null (fun page => own.own page) valid done
    refine Or.inr ⟨lists', isolated.changed coexist changed own ?_, changed⟩
    rintro rfl
    exact absurd user isolated.foreign

/-- A call that frees owned pages keeps the spaces isolated. -/
theorem Isolated.free {va sizeInPages : Nat} (isolated : Isolated alloc kspace top users lists kernel)
    (window : HalfWindow va (va + sizeInPages * pageSizeInBytes))
    (own : OwnWindow kspace users space va (va + sizeInPages * pageSizeInBytes))
    (done : vmmFree alloc space va sizeInPages kernel = .ok kernel') :
    ∃ lists', Isolated alloc kspace top users lists' kernel' ∧
      LeavesChanged (· ∈ kspace :: users) Clears kernel kernel' space va (va + sizeInPages * pageSizeInBytes) := by
  obtain ⟨lists', coexist, changed⟩ := isolated.coexist.free own.mem window (fun page => own.own page) done
  exact ⟨lists', isolated.changed coexist changed own fun _ _ _ clears present => absurd clears.2 present, changed⟩

/-- A call that grows the kernel heap faults with the frame allocator, finds no window and changes nothing, or fills a window of
the heap and keeps the spaces isolated. -/
theorem Isolated.heapAlloc_cases {sizeInPages : Nat} (isolated : Isolated alloc kspace top users lists kernel)
    (positive : 0 < sizeInPages) (room : top + (sizeInPages + 3) * pageSizeInBytes ≤ 2 ^ 64) :
    (∃ fault env, vmmAllocBetween alloc kspace kernelHeapStart kernelHeapStop sizeInPages pageKernelRw kernel =
      .error fault ∧ alloc.pmmXalloc env = .error fault) ∨
    vmmAllocBetween alloc kspace kernelHeapStart kernelHeapStop sizeInPages pageKernelRw kernel = .ok (NULL, kernel) ∨
    ∃ ret kernel' lists', vmmAllocBetween alloc kspace kernelHeapStart kernelHeapStop sizeInPages pageKernelRw kernel =
        .ok (ret, kernel') ∧ HalfWindow ret (ret + sizeInPages * pageSizeInBytes) ∧
      OwnWindow kspace users kspace ret (ret + sizeInPages * pageSizeInBytes) ∧
      Isolated alloc kspace top users lists' kernel' ∧
      LeavesChanged (· ∈ kspace :: users) (Fills pageKernelRw) kernel kernel' kspace ret
        (ret + sizeInPages * pageSizeInBytes) := by
  have known : kspace ∈ kspace :: users := List.mem_cons_self
  have whole := isolated.coexist.coupled.pages known
  have valid : PageFlags pageKernelRw := ⟨by decide, by decide⟩
  have aligned : kernelHeapStart % pageSizeInBytes = 0 := by decide
  obtain ⟨above, canonical, behind, mapped⟩ := isolated.image
  have bound := (isolated.kernelPages canonical mapped).2.1
  have order : kernelHeapStart < kernelHeapStop := by decide
  have low : kernelHeapStart < top := order.trans (behind.trans_lt bound)
  rw [Nat.add_mul] at room
  -- No region reaches into the page below the heap.
  have clear : ∀ range ∈ kernel.ranges (lists kspace), range.stop < kernelHeapStart ∨ kernelHeapStart ≤ range.start := by
    intro range inside
    by_contra crosses
    have span := whole.span inside
    obtain ⟨reaches, starts⟩ := not_or.mp crosses
    have page := guard_page span.alignedStart span.alignedStop aligned (not_le.mp starts) (not_lt.mp reaches)
    exact (isolated.coexist.coupled.leaf_flags known inside page).1 isolated.guard
  have clears : ClearsLower (kernel.ranges (lists kspace)) kernelHeapStart := by
    refine ⟨clear, fun last final => ?_⟩
    obtain ⟨range, inside, contains, -⟩ := (isolated.coexist.coupled.mapped known canonical).mpr ⟨mapped, rfl⟩
    have reaches : range.stop ≤ last.stop := whole.canonical.stop_le_of_last (fun other same => by
      rw [final] at same
      exact (Option.some.inj same) ▸ le_rfl) range inside
    have upper := contains.2
    rcases clear last (List.mem_of_getLast? final) with outside | inside'
    · omega
    · exact inside'
  have fits : kernelHeapStart + (sizeInPages + 2) * pageSizeInBytes < 2 ^ 64 := by
    rw [Nat.add_mul]
    unfold pageSizeInBytes at *
    omega
  have stops : ∀ range ∈ kernel.ranges (lists kspace),
      range.stop + (sizeInPages + 2) * pageSizeInBytes < 2 ^ 64 := by
    intro range inside
    have stops := (isolated.range_bounds inside).2
    rw [Nat.add_mul]
    unfold pageSizeInBytes at *
    omega
  rcases isolated.coexist.allocBetween_cases known ⟨aligned, fits, valid⟩ positive (by decide) clears stops
    (fun low high => Or.inr ⟨rfl, low, high⟩) with
    failed | null | ⟨ret, kernel', lists', done, lower, upper, window, coexist, changed⟩
  · exact Or.inl failed
  · exact Or.inr (Or.inl null)
  · have own : OwnWindow kspace users kspace ret (ret + sizeInPages * pageSizeInBytes) :=
      Or.inr ⟨rfl, lower.le, upper.le⟩
    refine Or.inr (Or.inr ⟨ret, kernel', lists', done, window, own, isolated.changed coexist changed own ?_, changed⟩)
    intro _ old new fills _
    exact fills.kernel valid (by unfold Supervisor; decide)

/-- A call that grows the kernel heap keeps the spaces isolated. -/
theorem Isolated.heapAlloc {sizeInPages ret : Nat} (isolated : Isolated alloc kspace top users lists kernel)
    (positive : 0 < sizeInPages) (room : top + (sizeInPages + 3) * pageSizeInBytes ≤ 2 ^ 64)
    (done : vmmAllocBetween alloc kspace kernelHeapStart kernelHeapStop sizeInPages pageKernelRw kernel =
      .ok (ret, kernel')) :
    ret = NULL ∧ kernel' = kernel ∨ ∃ lists', HalfWindow ret (ret + sizeInPages * pageSizeInBytes) ∧
      OwnWindow kspace users kspace ret (ret + sizeInPages * pageSizeInBytes) ∧
      Isolated alloc kspace top users lists' kernel' ∧
      LeavesChanged (· ∈ kspace :: users) (Fills pageKernelRw) kernel kernel' kspace ret
        (ret + sizeInPages * pageSizeInBytes) := by
  rcases isolated.heapAlloc_cases positive room with
    ⟨fault, env, failed, -⟩ | null | ⟨ret', final, lists', returned, window, own, isolated', changed⟩
  · rw [failed] at done
    cases done
  · rw [null] at done
    obtain ⟨rfl, rfl⟩ := Prod.mk.inj (Except.ok.inj done)
    exact Or.inl ⟨rfl, rfl⟩
  · rw [returned] at done
    obtain ⟨rfl, rfl⟩ := Prod.mk.inj (Except.ok.inj done)
    exact Or.inr ⟨lists', window, own, isolated', changed⟩

/-- A created space joins the others with its lower half as its own. -/
theorem Isolated.started (isolated : Isolated alloc kspace top users lists kernel)
    (made : SpaceCreated alloc (· ∈ kspace :: users) kernel kernel' space) :
    Coexist alloc (· ∈ kspace :: space :: users) (OwnPage kspace (space :: users)) (Function.update lists space []) kernel' := by
  have members : (fun other => other ∈ kspace :: users ∨ other = space) = (· ∈ kspace :: space :: users) := by
    funext other
    simp only [List.mem_cons, eq_iff_iff]
    tauto
  have belongs : ∀ {other va}, OwnPage kspace (space :: users) other va → other ∈ kspace :: users ∨ other = space := by
    rintro other va (⟨user, -⟩ | ⟨rfl, -⟩)
    · rcases List.mem_cons.mp user with rfl | old
      · exact Or.inr rfl
      · exact Or.inl (List.mem_cons_of_mem _ old)
    · exact Or.inl List.mem_cons_self
  have only : ∀ {other va}, OwnPage kspace (space :: users) other va → other ≠ space → OwnPage kspace users other va := by
    rintro other va (⟨user, lower⟩ | heap) different
    · exact Or.inl ⟨(List.mem_cons.mp user).resolve_left different, lower⟩
    · exact Or.inr heap
  obtain ⟨coupled, pages⟩ := vmmCreateSpace_coupled isolated.coexist.coupled isolated.coexist.pages made belongs only
  rw [members] at coupled pages
  exact ⟨coupled, pages⟩

/-- The kernel space can be copied into a created space. -/
theorem Isolated.copyable (isolated : Isolated alloc kspace top users lists kernel)
    (made : SpaceCreated alloc (· ∈ kspace :: users) kernel kernel' space) :
    Copyable alloc (· ∈ kspace :: space :: users) (OwnPage kspace (space :: users)) (Function.update lists space [])
      kernel' space kspace := by
  have known : kspace ∈ kspace :: users := List.mem_cons_self
  have different : kspace ≠ space := fun same => made.unknown (same ▸ known)
  have same : kernel'.ranges (Function.update lists space [] kspace) = kernel.ranges (lists kspace) := by
    rw [Function.update_of_ne different, made.ranges_eq]
  refine ⟨(isolated.started made).coupled, by simp, by simp, different, ?_, ?_⟩
  · intro range inside
    rw [same] at inside
    have whole := isolated.coexist.coupled.pages known
    have leaf := isolated.coexist.coupled.leaf_flags known inside
      (.first (whole.span inside).alignedStart (whole.canonical.nonempty range inside))
    have page := (whole.span inside).page (whole.canonical.nonempty range inside)
    have present := (isolated.kernelPages page leaf.1).2.2.1
    rw [← leaf.2]
    unfold pageSizeInBytes
    omega
  · intro va flags denoted own
    rw [same] at denoted
    obtain ⟨page, mapped, -⟩ := isolated.denoted denoted
    have high := (isolated.kernelPages page mapped).1
    rcases own with ⟨-, lower⟩ | ⟨same', -⟩
    · have half : 2 ^ 47 < higherHalfStart := by decide
      unfold pageOf pageSizeInBytes at high
      omega
    · exact different same'.symm

/-- The created process has the kernel pages of that moment and an own user stack, and the other spaces are as before. -/
structure ProcessAdded (kspace : Nat) (users : List Nat) (kernel kernel' : Kernel σ) (space : Nat) : Prop where
  fresh : space ∉ kspace :: users
  copied : ∀ {va}, CanonicalPage va → higherHalfStart ≤ va →
    mmuLeaf space va kernel' = pageAddr (mmuLeaf kspace va kernel) ||| mmuLeaf kspace va kernel % pageSizeInBytes
  stack : ∀ {va}, CanonicalPage va → va < 2 ^ 47 → (mmuLeaf space va kernel' ≠ 0 ↔ 0xf000 ≤ va ∧ va < 0x17000)
  kept : ∀ {other va}, other ∈ kspace :: users → CanonicalPage va → mmuLeaf other va kernel' = mmuLeaf other va kernel

/-- The copied kernel space is isolated beside the others. -/
theorem Isolated.copied {middle : Kernel σ} (isolated : Isolated alloc kspace top users lists kernel)
    (made : SpaceCreated alloc (· ∈ kspace :: users) kernel middle space)
    (copying : Copying alloc (· ∈ kspace :: space :: users) (OwnPage kspace (space :: users))
      (Function.update lists space []) middle kernel' space kspace (Function.update lists space [] kspace) lists') :
    Isolated alloc kspace top (space :: users) lists' kernel' ∧
      ∀ {va}, CanonicalPage va → mmuLeaf space va kernel' =
        pageAddr (mmuLeaf kspace va kernel) ||| mmuLeaf kspace va kernel % pageSizeInBytes := by
  have known : kspace ∈ kspace :: users := List.mem_cons_self
  have copyable := isolated.copyable made
  have different : kspace ≠ space := copyable.different
  have kept : ∀ {other va}, other ∈ kspace :: users → CanonicalPage va →
      mmuLeaf other va kernel' = mmuLeaf other va kernel := by
    intro other va old page
    have apart : other ≠ space := fun same => made.unknown (same ▸ old)
    rw [copying.kept _ apart page, made.leaf_other old]
    rcases List.mem_cons.mp old with rfl | user
    · exact List.mem_cons_self
    · exact List.mem_cons_of_mem _ (List.mem_cons_of_mem _ user)
  have copied : ∀ {va}, CanonicalPage va → mmuLeaf space va kernel' =
      pageAddr (mmuLeaf kspace va kernel) ||| mmuLeaf kspace va kernel % pageSizeInBytes := by
    intro va page
    rw [copying.leaf_copy copyable page, made.leaf_other known]
  obtain ⟨above, canonical, behind, mapped⟩ := isolated.image
  refine ⟨⟨copying.coexist, ?_, ?_, ?_, ⟨above, canonical, behind, ?_⟩, ?_⟩, copied⟩
  · intro user
    rcases List.mem_cons.mp user with same | old
    · exact different same
    · exact isolated.foreign old
  · intro va page
    rw [kept known page]
    exact isolated.kernelPages page
  · rw [kept known ⟨by decide, by decide, by decide⟩]
    exact isolated.guard
  · rw [kept known canonical]
    exact mapped
  · intro other va user page high
    rcases List.mem_cons.mp user with rfl | old
    · rw [copied page]
      by_cases absent : mmuLeaf kspace va kernel = 0
      · rw [absent]
        rfl
      · have safe := (isolated.kernelPages page absent).2.2.2
        rw [supervisor_mod, or_mod_page (pageAddr_aligned _) (Nat.mod_lt _ (by decide)), ← supervisor_mod]
        exact safe
    · rw [kept (List.mem_cons_of_mem _ old) page]
      exact isolated.upper old page high

/-- Behind the copy the call maps the user stack. -/
theorem processSpace_copied {started copied : Kernel σ} (debug : Bool)
    (creates : vmmCreateSpace alloc 0x1000 lowerHalfStop kernel = .ok (space, started)) (nonnull : space ≠ NULL)
    (copies : vmmCopyRegions alloc space kspace started = .ok copied)
    (checked : mmuTestCompareMapping kspace space copied = .ok ()) :
    processSpace alloc debug kspace kernel = (vmmAllocAt alloc space 0xf000 8 pageUserRw copied).map
      fun result => (space, result.1, result.2) := by
  unfold processSpace
  simp only [bind, Except.bind, creates, if_neg nonnull, copies, checked]
  cases debug <;> cases vmmAllocAt alloc space 0xf000 8 pageUserRw copied <;> rfl

/-- A process is created beside the others in both builds, unless the frame allocator faults. -/
theorem Isolated.create (debug : Bool) (isolated : Isolated alloc kspace top users lists kernel) :
    (∃ fault env, processSpace alloc debug kspace kernel = .error fault ∧ alloc.pmmXalloc env = .error fault) ∨
    ∃ space kernel' lists', processSpace alloc debug kspace kernel = .ok (space, 0xf000, kernel') ∧
      Isolated alloc kspace top (space :: users) lists' kernel' ∧ ProcessAdded kspace users kernel kernel' space := by
  cases creates : vmmCreateSpace alloc 0x1000 lowerHalfStop kernel with
  | error fault =>
      obtain ⟨env, exhausted⟩ := vmmCreateSpace_fault creates
      exact Or.inl ⟨fault, env, Outcome.bind_eq_error.mpr (Or.inl creates), exhausted⟩
  | ok result =>
      obtain ⟨space, started⟩ := result
      have made := vmmCreateSpace_created isolated.coexist.pages.tables isolated.coexist.coupled.created creates
      have nonnull : space ≠ NULL := alloc.live_ne_null _ _ _ ((made.live .vmmSpace space).mpr (Or.inr ⟨rfl, rfl⟩))
      have copyable := isolated.copyable made
      have different : kspace ≠ space := copyable.different
      rcases vmmCopyRegions_coexist copyable (isolated.started made).pages (Function.update_self _ _ _) with
        ⟨fault, env, failed, exhausted⟩ | ⟨copied, lists₁, copies, copying⟩
      · refine Or.inl ⟨fault, env, ?_, exhausted⟩
        simp only [processSpace, bind, Except.bind, creates, if_neg nonnull, failed]
      obtain ⟨isolated', leaf⟩ := isolated.copied made copying
      have user : space ∈ space :: users := List.mem_cons_self
      have window : HalfWindow 0xf000 (0xf000 + 8 * pageSizeInBytes) := by decide
      have own : OwnWindow kspace (space :: users) space 0xf000 (0xf000 + 8 * pageSizeInBytes) :=
        Or.inl ⟨user, by decide⟩
      have valid : PageFlags pageUserRw := ⟨by decide, by decide⟩
      -- The regions of the copy lie in the higher half.
      have high : ∀ range ∈ copied.ranges (lists₁ space), higherHalfStart ≤ range.start := by
        intro range inside
        rw [copying.ranges, Function.update_of_ne different, made.ranges_eq] at inside
        exact (isolated.range_bounds inside).1
      have half : 0x17000 < higherHalfStart := by decide
      have vacant : copied.Vacant (lists₁ space) 0xf000 (0xf000 + 8 * pageSizeInBytes) := by
        intro range inside meets
        have start := high range inside
        have stop : range.start < 0x17000 := meets.1
        omega
      have spaced : processSpace alloc debug kspace kernel = (vmmAllocAt alloc space 0xf000 8 pageUserRw copied).map
          fun result => (space, result.1, result.2) :=
        processSpace_copied debug creates nonnull copies (copying.compares copyable)
      rw [spaced]
      rcases isolated'.coexist.allocAt_cases own.mem window (by decide) (fun page => own.own page) valid vacant with
        ⟨fault, env, failed, exhausted⟩ | ⟨fault, -, range, inside, start⟩ | ⟨final, lists₂, done, coexist, changed⟩
      · exact Or.inl ⟨fault, env, by rw [failed]; rfl, exhausted⟩
      · have start' : range.start = 0x17000 := start
        have bound := high range inside
        omega
      refine Or.inr ⟨space, final, lists₂, by rw [done]; rfl, isolated'.changed coexist changed own ?_,
        made.unknown, ?_, ?_, ?_⟩
      · rintro rfl
        exact absurd rfl different
      · intro va page upper
        rw [changed.outside own.mem page, leaf page]
        rintro ⟨-, -, below⟩
        have below' : va < 0x17000 := below
        omega
      · intro va page lower
        constructor
        · intro mapped
          by_contra outside
          rw [changed.outside own.mem page fun inside => outside ⟨inside.2.1, inside.2.2⟩, leaf page] at mapped
          have absent : mmuLeaf kspace va kernel = 0 := by
            by_contra present
            have upper := (isolated.kernelPages page present).1
            have bound : 2 ^ 47 < higherHalfStart := by decide
            omega
          rw [absent] at mapped
          exact mapped rfl
        · rintro ⟨lower', upper'⟩
          exact (changed.inside ⟨lower', upper', page.aligned⟩).2.1
      · intro other va old page
        have apart : other ≠ space := fun same => made.unknown (same ▸ old)
        have old' : other ∈ kspace :: space :: users := by
          rcases List.mem_cons.mp old with rfl | user
          · exact List.mem_cons_self
          · exact List.mem_cons_of_mem _ (List.mem_cons_of_mem _ user)
        rw [changed.outside old' page fun inside => apart inside.1, copying.kept old' apart page, made.leaf_other old]

end

end B0s
