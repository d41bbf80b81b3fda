import B0s.Proof.Mm.VmmInit
import B0s.Proof.Multitasking.Isolation

/-
This file proves that processes stay isolated over every run behind `vmm_init`.
-/

namespace B0s
open DoublyLinked RangeMap

variable {σ : Type}

/-- Behind `vmm_init` the kernel creates processes, maps and frees their pages, and grows and shrinks its heap. -/
inductive MemoryCall where
  | create
  | allocAt (space va sizeInPages flags : Nat)
  | heapAlloc (sizeInPages : Nat)
  | free (space va sizeInPages : Nat)
  deriving DecidableEq, Repr

def MemoryCall.run (alloc : KernelAllocator σ) (debug : Bool) (kspace : Nat) :
    MemoryCall → Kernel σ → Outcome (Nat × Kernel σ)
  | .create, kernel => (processSpace alloc debug kspace kernel).map fun result => (result.1, result.2.2)
  | .allocAt space va sizeInPages flags, kernel => vmmAllocAt alloc space va sizeInPages flags kernel
  | .heapAlloc sizeInPages, kernel =>
      vmmAllocBetween alloc kspace kernelHeapStart kernelHeapStop sizeInPages pageKernelRw kernel
  | .free space va sizeInPages, kernel => (vmmFree alloc space va sizeInPages kernel).map fun kernel => (NULL, kernel)

/-- A call names pages of the lower half of a process or pages of the heap. -/
def MemoryCall.Valid (kspace top : Nat) (users : List Nat) : MemoryCall → Prop
  | .create => True
  | .allocAt space va sizeInPages flags => space ∈ users ∧ HalfWindow va (va + sizeInPages * pageSizeInBytes) ∧
      va + sizeInPages * pageSizeInBytes ≤ 2 ^ 47 ∧ PageFlags flags
  | .heapAlloc sizeInPages => 0 < sizeInPages ∧ top + (sizeInPages + 3) * pageSizeInBytes ≤ 2 ^ 64
  | .free space va sizeInPages => HalfWindow va (va + sizeInPages * pageSizeInBytes) ∧
      OwnWindow kspace users space va (va + sizeInPages * pageSizeInBytes)

def MemoryCall.users (result : Nat) (users : List Nat) : MemoryCall → List Nat
  | .create => result :: users
  | _ => users

/-- A run performs valid calls that return, in any order. -/
inductive MemoryRun (alloc : KernelAllocator σ) (debug : Bool) (kspace top : Nat) :
    List Nat → Kernel σ → List Nat → Kernel σ → Prop where
  | refl (users : List Nat) (kernel : Kernel σ) : MemoryRun alloc debug kspace top users kernel users kernel
  | step {users users' : List Nat} {kernel middle kernel' : Kernel σ} {result : Nat} (call : MemoryCall)
      (before : MemoryRun alloc debug kspace top users kernel users' middle) (valid : call.Valid kspace top users')
      (done : call.run alloc debug kspace middle = .ok (result, kernel')) :
      MemoryRun alloc debug kspace top users kernel (call.users result users') kernel'

section
variable {alloc : KernelAllocator σ} {debug : Bool} {kspace top : Nat} {users users' : List Nat} {lists : Nat → List Nat}
  {kernel kernel' : Kernel σ}

/-- A valid call that returns keeps the spaces isolated and the higher halves of the processes as they are. -/
theorem Isolated.step {call : MemoryCall} {result : Nat} (isolated : Isolated alloc kspace top users lists kernel)
    (valid : call.Valid kspace top users) (done : call.run alloc debug kspace kernel = .ok (result, kernel')) :
    (∃ lists', Isolated alloc kspace top (call.users result users) lists' kernel') ∧
      ∀ {space va}, space ∈ users → CanonicalPage va → higherHalfStart ≤ va →
        mmuLeaf space va kernel' = mmuLeaf space va kernel := by
  have half : 2 ^ 47 < higherHalfStart := by decide
  have frame : ∀ {change : Nat → Nat → Prop} {changed start stop : Nat},
      LeavesChanged (· ∈ kspace :: users) change kernel kernel' changed start stop →
      OwnWindow kspace users changed start stop →
      ∀ {space va}, space ∈ users → CanonicalPage va → higherHalfStart ≤ va →
        mmuLeaf space va kernel' = mmuLeaf space va kernel := by
    intro change changed start stop leaves own space va user page high
    apply leaves.outside (List.mem_cons_of_mem _ user) page
    rintro ⟨rfl, -, upper⟩
    rcases own with ⟨-, lower⟩ | ⟨rfl, -⟩
    · omega
    · exact isolated.foreign user
  cases call with
  | create =>
      rcases isolated.create debug with ⟨fault, env, failed, -⟩ | ⟨space, final, lists', created, isolated', added⟩
      · simp only [MemoryCall.run, failed, Except.map] at done
        cases done
      · simp only [MemoryCall.run, created, Except.map, Except.ok.injEq, Prod.mk.injEq] at done
        obtain ⟨rfl, rfl⟩ := done
        exact ⟨⟨lists', isolated'⟩, fun user page _ => added.kept (List.mem_cons_of_mem _ user) page⟩
  | allocAt space va sizeInPages flags =>
      obtain ⟨user, window, lower, flagged⟩ := valid
      rcases isolated.allocAt user window lower flagged done with rfl | ⟨lists', isolated', changed⟩
      · exact ⟨⟨lists, isolated⟩, fun _ _ _ => rfl⟩
      · exact ⟨⟨lists', isolated'⟩, frame changed (Or.inl ⟨user, lower⟩)⟩
  | heapAlloc sizeInPages =>
      rcases isolated.heapAlloc valid.1 valid.2 done with ⟨-, rfl⟩ | ⟨lists', -, own, isolated', changed⟩
      · exact ⟨⟨lists, isolated⟩, fun _ _ _ => rfl⟩
      · exact ⟨⟨lists', isolated'⟩, frame changed own⟩
  | free space va sizeInPages =>
      cases freed : vmmFree alloc space va sizeInPages kernel with
      | error fault =>
          simp only [MemoryCall.run, freed, Except.map] at done
          cases done
      | ok final =>
          simp only [MemoryCall.run, freed, Except.map, Except.ok.injEq, Prod.mk.injEq] at done
          obtain ⟨-, rfl⟩ := done
          obtain ⟨lists', isolated', changed⟩ := isolated.free valid.1 valid.2 freed
          exact ⟨⟨lists', isolated'⟩, frame changed valid.2⟩

theorem MemoryCall.mem_users {call : MemoryCall} {result space : Nat} (user : space ∈ users) :
    space ∈ call.users result users := by
  cases call with
  | create => exact List.mem_cons_of_mem _ user
  | allocAt _ _ _ _ => exact user
  | heapAlloc _ => exact user
  | free _ _ _ => exact user

/-- Every run keeps the spaces isolated, and the higher halves of the processes that it starts with. -/
theorem MemoryRun.isolated (ran : MemoryRun alloc debug kspace top users kernel users' kernel')
    (start : Isolated alloc kspace top users lists kernel) :
    (∃ lists', Isolated alloc kspace top users' lists' kernel') ∧
      ∀ {space}, space ∈ users → space ∈ users' ∧ ∀ {va}, CanonicalPage va → higherHalfStart ≤ va →
        mmuLeaf space va kernel' = mmuLeaf space va kernel := by
  induction ran with
  | refl => exact ⟨⟨lists, start⟩, fun user => ⟨user, fun _ _ => rfl⟩⟩
  | step call before valid done ih =>
      obtain ⟨⟨middle, isolated⟩, kept⟩ := ih start
      obtain ⟨isolated', frame⟩ := isolated.step valid done
      refine ⟨isolated', fun user => ?_⟩
      obtain ⟨user', same⟩ := kept user
      exact ⟨MemoryCall.mem_users user', fun page high => (frame user' page high).trans (same page high)⟩

end

section
variable {alloc : KernelAllocator σ} {debug : Bool} {kspace space : Nat} {layout : KernelLayout} {pmap : List PmmRegion}
  {users : List Nat} {kernel kernel' : Kernel σ}

/-- A physical page lies at an aligned address of the direct mapping. -/
theorem KernelMapped.direct_leaf (mapped : KernelMapped alloc layout pmap kspace kernel)
    (below : ∀ region ∈ pmap, region.addr + region.sizeInPages * pageSizeInBytes < directLimit) {region : PmmRegion}
    {pa : Nat} (member : region ∈ pmap) (real : pageSizeInBytes ≤ pa) (holds : region.Holds pa) :
    dmP2V pa % pageSizeInBytes = 0 ∧ higherHalfStart ≤ dmP2V pa ∧ dmP2V pa < kernelHeapStart - pageSizeInBytes ∧
      mmuLeaf kspace (dmP2V pa) kernel ≠ 0 ∧
      mmuLeaf kspace (dmP2V pa) kernel % pageSizeInBytes = directFlags region.type := by
  have limit : pa < directLimit := holds.upper.trans (below region member)
  have leaf := mapped.direct region member pa real holds
  have valid := directFlags_valid region.type
  refine ⟨(directSpan holds.aligned limit).alignedStart, ?_, ?_, leaf ▸ valid.or_ne_zero pa, ?_⟩
  · rw [dmP2V_direct limit]
    exact Nat.le_add_left _ _
  · have order : directLimit + higherHalfStart < kernelHeapStart - pageSizeInBytes := by decide
    rw [dmP2V_direct limit]
    omega
  · rw [leaf]
    exact or_mod_page holds.aligned valid.small

/-- A page of the image has the flags of its window. -/
theorem KernelMapped.image_leaf (mapped : KernelMapped alloc layout pmap kspace kernel) {va : Nat}
    (page : WindowPage layout.vmaStart layout.pmmVmaStop va) :
    kernelHeapStop ≤ va ∧ mmuLeaf kspace va kernel ≠ 0 ∧
      mmuLeaf kspace va kernel % pageSizeInBytes = layout.flags va := by
  have valid := layout.flags_valid va
  have lower := layout.lower
  have starts := layout.starts
  have inside := page.lower
  have aligned := page.aligned
  have same : kernelHeapStop = kernelVma := rfl
  have behind : kernelVma ≤ va := by omega
  refine ⟨same ▸ behind, mapped.image va page ▸ valid.or_ne_zero _, ?_⟩
  rw [mapped.image va page]
  apply or_mod_page _ valid.small
  unfold kernelVma pageSizeInBytes at *
  omega

theorem directFlags_supervisor (type : PmmRegionType) : Supervisor (directFlags type) := by
  unfold Supervisor
  cases type <;> decide

theorem KernelLayout.flags_supervisor (layout : KernelLayout) (va : Nat) : Supervisor (layout.flags va) := by
  unfold Supervisor KernelLayout.flags
  split_ifs <;> decide

/-- A mapped page of the kernel space is a page of the direct mapping or of the image. -/
theorem KernelMapped.page_cases (mapped : KernelMapped alloc layout pmap kspace kernel)
    (below : ∀ region ∈ pmap, region.addr + region.sizeInPages * pageSizeInBytes < directLimit) {va : Nat}
    (page : CanonicalPage va) (present : mmuLeaf kspace va kernel ≠ 0) :
    higherHalfStart ≤ va ∧ va < layout.pmmVmaStop ∧ (va < kernelHeapStart - pageSizeInBytes ∨ kernelHeapStop ≤ va) ∧
      ∃ flags, mmuLeaf kspace va kernel % pageSizeInBytes = flags ∧ PageFlags flags ∧ Supervisor flags := by
  have order : higherHalfStart ≤ kernelHeapStop ∧ kernelHeapStart - pageSizeInBytes ≤ kernelVma := by decide
  rcases mapped.only va page present with inside | ⟨region, member, pa, real, holds, same⟩
  · obtain ⟨lower, -, flags⟩ := mapped.image_leaf inside
    exact ⟨order.1.trans lower, inside.upper, Or.inr lower, _, flags, layout.flags_valid va, layout.flags_supervisor va⟩
  · obtain ⟨-, high, low, -, flags⟩ := mapped.direct_leaf below member real holds
    have lower := layout.lower
    have room := layout.rwNonempty
    have joins := layout.joins
    have room' := layout.roNonempty
    have room'' := layout.dataNonempty
    have last : kernelVma < layout.pmmVmaStop := by omega
    rw [same]
    exact ⟨high, low.trans_le (order.2.trans last.le), Or.inl low, _, flags, directFlags_valid _,
      directFlags_supervisor _⟩

/-- The kernel space that `vmm_init` leaves is isolated before any process exists. -/
theorem KernelMapped.isolated (mapped : KernelMapped alloc layout pmap kspace kernel)
    (below : ∀ region ∈ pmap, region.addr + region.sizeInPages * pageSizeInBytes < directLimit) :
    ∃ lists, Isolated alloc kspace layout.pmmVmaStop [] lists kernel := by
  obtain ⟨ptrs, _, ⟨listed, rfl, whole⟩, denotes⟩ := mapped.listing
  have members : (fun other => other = kspace) = (· ∈ [kspace]) := by
    funext other
    simp
  have tables : PageTables alloc.toFrameAllocator (· ∈ [kspace]) kernel := members ▸ mapped.tables
  have agree : ∀ {va flags}, CanonicalPage va → (Denotes (kernel.ranges ptrs) va flags ↔
      mmuLeaf kspace va kernel ≠ 0 ∧ mmuLeaf kspace va kernel % pageSizeInBytes = flags) := by
    intro va flags page
    rw [denotes]
    constructor
    · rintro (⟨region, member, pa, real, holds, lower, upper, rfl⟩ | ⟨lower, upper, rfl⟩)
      · obtain ⟨aligned, -, -, present, flags⟩ := mapped.direct_leaf below member real holds
        have aligned' := page.aligned
        have start : va = dmP2V pa := by
          unfold pageSizeInBytes at *
          omega
        rw [start]
        exact ⟨present, flags⟩
      · exact (mapped.image_leaf ⟨lower, upper, page.aligned⟩).2
    · rintro ⟨present, rfl⟩
      rcases mapped.only va page present with inside | ⟨region, member, pa, real, holds, same⟩
      · exact Or.inr ⟨inside.lower, inside.upper, (mapped.image_leaf inside).2.2.symm⟩
      · rw [same]
        refine Or.inl ⟨region, member, pa, real, holds, le_rfl, Nat.lt_add_of_pos_right (by decide), ?_⟩
        exact (mapped.direct_leaf below member real holds).2.2.2.2.symm
  have heapFree : ∀ {va}, CanonicalPage va → kernelHeapStart - pageSizeInBytes ≤ va → va < kernelHeapStop →
      mmuLeaf kspace va kernel = 0 := by
    intro va page lower upper
    by_contra present
    have place := (mapped.page_cases below page present).2.2.1
    omega
  refine ⟨fun _ => ptrs, ⟨⟨?_, ?_, ?_, ?_, ?_⟩, tables, ?_, ?_, ?_⟩, List.not_mem_nil, ?_, ?_, ?_, ?_⟩
  · intro space belongs
    obtain rfl := List.mem_singleton.mp belongs
    exact mapped.created
  · intro space belongs
    obtain rfl := List.mem_singleton.mp belongs
    exact listed
  · intro first second belongs belongs' different
    exact absurd ((List.mem_singleton.mp belongs).trans (List.mem_singleton.mp belongs').symm) different
  · intro space _
    exact whole
  · intro space va flags belongs page
    obtain rfl := List.mem_singleton.mp belongs
    exact agree page
  · rintro space va (⟨user, -⟩ | ⟨rfl, -⟩)
    · cases user
    · exact List.mem_cons_self
  · rintro space va (⟨user, -⟩ | ⟨rfl, lower, upper⟩) page present
    · cases user
    · exact absurd (heapFree page ((Nat.sub_le _ _).trans lower) upper) present
  · rintro space va space' va' (⟨user, -⟩ | ⟨rfl, lower, upper⟩) - page - present
    · cases user
    · exact absurd (heapFree page ((Nat.sub_le _ _).trans lower) upper) present
  · intro va page present
    obtain ⟨high, last, -, flags, same, valid, safe⟩ := mapped.page_cases below page present
    refine ⟨high, last, ?_, (supervisor_mod _).mpr (same ▸ safe)⟩
    have odd := valid.present
    rw [← same] at odd
    unfold pageSizeInBytes at odd
    omega
  · exact heapFree ⟨by decide, by decide, by decide⟩ le_rfl (by decide)
  · have lower := layout.lower
    have starts := layout.starts
    have room := layout.rwNonempty
    have joins := layout.joins
    have room' := layout.roNonempty
    have room'' := layout.dataNonempty
    have aligned : layout.vmaStart % pageSizeInBytes = 0 := starts ▸ layout.rwAligned
    have first : WindowPage layout.vmaStart layout.pmmVmaStop layout.vmaStart := ⟨le_rfl, by omega, aligned⟩
    have bound : kernelVma + 0x80000000 = 2 ^ 64 := by decide
    have last := layout.upper
    have half : 2 ^ 64 - 2 ^ 47 ≤ kernelVma := by decide
    obtain ⟨behind, present, -⟩ := mapped.image_leaf first
    exact ⟨layout.vmaStart, ⟨aligned, Or.inr (by omega), by omega⟩, behind, present⟩
  · intro space va user
    cases user

/-- Ring 3 reaches a page when every entry of its walk is present and has the user bit. -/
structure UserAccess (kernel : Kernel σ) (space va : Nat) : Prop where
  present : pageAccess (kernel.root space) va kernel = .ok ()
  allowed : mmuEffective space va kernel &&& pageUserRing ≠ 0

/-- A page that ring 3 reaches is mapped for it. -/
theorem UserAccess.leaf (access : UserAccess kernel space va) :
    mmuLeaf space va kernel ≠ 0 ∧ ¬Supervisor (mmuLeaf space va kernel) := by
  obtain ⟨present, allowed⟩ := access
  have bit : mmuLeaf space va kernel &&& pagePresent ≠ 0 := by
    intro absent
    rw [(pageAccess_cases kernel space va).2 absent] at present
    cases present
  refine ⟨fun zero => bit (by rw [zero]; rfl), fun safe => allowed ?_⟩
  have split : ∀ upper entry : Nat, entry &&& pageUserRing = 0 → upper &&& entry &&& permissionBits &&& pageUserRing = 0 := by
    intro upper entry none
    have order : upper &&& entry &&& permissionBits &&& pageUserRing =
        upper &&& permissionBits &&& (entry &&& pageUserRing) := by ac_rfl
    rw [order, none, Nat.and_zero]
  unfold Supervisor mmuLeaf at safe
  unfold pageAccess at present
  unfold mmuEffective
  dsimp only at safe present ⊢
  split_ifs at present with first second third fourth
  rw [if_neg first, if_neg second, if_neg third] at safe
  exact split _ _ safe

end

section
variable {alloc : KernelAllocator σ} {debug : Bool} {kspace space ustack : Nat} {layout : KernelLayout}
  {pmap : List PmmRegion} {users users' : List Nat} {kernel middle started kernel' : Kernel σ}

/-- A page that ring 3 reaches lies in the lower half, on a held frame that is no page table. -/
theorem Isolated.user_page {top : Nat} {lists : Nat → List Nat} (isolated : Isolated alloc kspace top users lists kernel)
    (user : space ∈ users) {va : Nat} (page : CanonicalPage va) (access : UserAccess kernel space va) :
    va < 2 ^ 47 ∧ mmuLeaf space va kernel ≠ 0 ∧ alloc.held kernel.env (kernel.frame space va) ∧
      ¬kernel.IsTable (· ∈ kspace :: users) (dmP2V (kernel.frame space va)) := by
  obtain ⟨leaf, allowed⟩ := access.leaf
  have lower : va < 2 ^ 47 := by
    rcases page.half with lower | upper
    · exact lower
    · have high : higherHalfStart ≤ va := upper
      exact absurd (isolated.upper user page high) allowed
  exact ⟨lower, leaf, isolated.coexist.pages.owned (Or.inl ⟨user, lower⟩) page leaf⟩

/-- In every state that the kernel reaches, a page that ring 3 reaches lies in the lower half of its process on a held
frame that is no page table and that backs no other page of any process or of the kernel heap. -/
theorem processes_isolated (mapped : KernelMapped alloc layout pmap kspace kernel)
    (below : ∀ region ∈ pmap, region.addr + region.sizeInPages * pageSizeInBytes < directLimit)
    (ran : MemoryRun alloc debug kspace layout.pmmVmaStop [] kernel users kernel') (user : space ∈ users) {va : Nat}
    (page : CanonicalPage va) (access : UserAccess kernel' space va) :
    va < 2 ^ 47 ∧ alloc.held kernel'.env (kernel'.frame space va) ∧
      ¬kernel'.IsTable (· ∈ kspace :: users) (dmP2V (kernel'.frame space va)) ∧
      ∀ other va', OwnPage kspace users other va' → CanonicalPage va' → mmuLeaf other va' kernel' ≠ 0 →
        kernel'.frame other va' = kernel'.frame space va → other = space ∧ va' = va := by
  obtain ⟨lists, start⟩ := mapped.isolated below
  obtain ⟨lists', isolated⟩ := (ran.isolated start).1
  obtain ⟨lower, leaf, held, apart⟩ := isolated.user_page user page access
  exact ⟨lower, held, apart, fun other va' own' page' leaf' same =>
    isolated.coexist.pages.unshared own' (Or.inl ⟨user, lower⟩) page' page leaf' leaf same⟩

end

/-- Two processes are created behind `vmm_init`. -/
def twoProcesses : Outcome (Kernel Ledger × Kernel Ledger × Kernel Ledger × List Nat) :=
  vmmInit sixtyFourFrames true fourBootTables threePageLayout adjacentRegions (.zeroed ⟨[], []⟩) >>= fun booted =>
    MemoryCall.create.run sixtyFourFrames true booted.1 booted.2 >>= fun first =>
      MemoryCall.create.run sixtyFourFrames true booted.1 first.2 >>= fun second =>
        .ok (booted.2, first.2, second.2, [booted.1, first.1, second.1])

/-- The spaces of the kernel and of two processes. -/
theorem twoProcesses_run : ∃ booted middle kernel, KernelMapped sixtyFourFrames threePageLayout adjacentRegions 1 booted ∧
    MemoryCall.create.run sixtyFourFrames true 1 booted = .ok (7, middle) ∧
    MemoryCall.create.run sixtyFourFrames true 1 middle = .ok (14, kernel) ∧
    twoProcesses = .ok (booted, middle, kernel, [1, 7, 14]) := by
  have spaces : (twoProcesses.map fun result => result.2.2.2).toOption = some [1, 7, 14] := by decide +kernel
  obtain ⟨kspace, booted, boots, mapped⟩ := @vmmInit_mapped _ sixtyFourFrames threePageLayout adjacentRegions
    (.zeroed ⟨[], []⟩) true fourBootTables adjacentRegions_pages (by decide) adjacentRegions_holds sixtyFourFrames_lasts
  cases result : twoProcesses with
  | error fault =>
      rw [result] at spaces
      cases spaces
  | ok final =>
      rw [result] at spaces
      have names : final.2.2.2 = [1, 7, 14] := Option.some.inj spaces
      obtain ⟨⟨kspace', booted'⟩, boots', rest⟩ := Outcome.bind_eq_ok.mp result
      obtain ⟨⟨first, middle⟩, creates, rest⟩ := Outcome.bind_eq_ok.mp rest
      obtain ⟨⟨second, kernel⟩, creates', rest⟩ := Outcome.bind_eq_ok.mp rest
      obtain rfl := Except.ok.inj rest
      obtain ⟨rfl, rfl⟩ := Prod.mk.inj (Except.ok.inj (boots.symm.trans boots'))
      obtain ⟨rfl, rfl, rfl⟩ : kspace = 1 ∧ first = 7 ∧ second = 14 := by simpa using names
      exact ⟨booted, middle, kernel, mapped, creates, creates', rfl⟩

/-- The stacks of two processes lie on different frames. -/
theorem processes_isolated_twoProcesses : ∃ kernel : Kernel Ledger,
    kernel.frame 14 0xf000 ≠ kernel.frame 7 0xf000 ∧ mmuLeaf 14 0xf000 kernel ≠ 0 := by
  obtain ⟨booted, middle, kernel, mapped, creates, creates', result⟩ := twoProcesses_run
  have facts : (twoProcesses.map fun result => ((pageAccess (result.2.2.1.root 7) 0xf000 result.2.2.1).toOption,
      mmuEffective 7 0xf000 result.2.2.1, mmuLeaf 14 0xf000 result.2.2.1)).toOption = some (some (), 6, 135175) := by
    decide +kernel
  rw [result] at facts
  obtain ⟨present, allowed, leaf⟩ : (pageAccess (kernel.root 7) 0xf000 kernel).toOption = some () ∧
      mmuEffective 7 0xf000 kernel = 6 ∧ mmuLeaf 14 0xf000 kernel = 135175 := by
    simpa [Except.map, Except.toOption] using facts
  have access : UserAccess kernel 7 0xf000 := by
    refine ⟨?_, by rw [allowed]; decide⟩
    cases walked : pageAccess (kernel.root 7) 0xf000 kernel with
    | error fault =>
        rw [walked] at present
        cases present
    | ok _ => rfl
  have ran : MemoryRun sixtyFourFrames true 1 threePageLayout.pmmVmaStop [] booted [14, 7] kernel :=
    .step .create (.step .create (.refl [] booted) trivial creates) trivial creates'
  have mapped' : mmuLeaf 14 0xf000 kernel ≠ 0 := by
    rw [leaf]
    decide
  obtain ⟨-, -, -, unshared⟩ := processes_isolated mapped (by decide) ran (by decide) ⟨by decide, by decide, by decide⟩ access
  refine ⟨kernel, fun same => ?_, mapped'⟩
  have equal := unshared 14 0xf000 (Or.inl ⟨by decide, by decide⟩) ⟨by decide, by decide, by decide⟩ mapped' same
  exact absurd equal.1 (by decide)

section
variable {alloc : KernelAllocator σ} {debug : Bool} {kspace space ustack : Nat} {layout : KernelLayout}
  {pmap : List PmmRegion} {users users' : List Nat} {kernel middle started kernel' : Kernel σ}

/-- In every state that the kernel reaches, the creation of a process succeeds in both builds unless the frame allocator
faults: the space is new, it has the kernel pages of that moment and a user stack of eight pages, and no entry of another
space changes. -/
theorem processSpace_creates (mapped : KernelMapped alloc layout pmap kspace kernel)
    (below : ∀ region ∈ pmap, region.addr + region.sizeInPages * pageSizeInBytes < directLimit)
    (ran : MemoryRun alloc debug kspace layout.pmmVmaStop [] kernel users middle) (build : Bool) :
    (∃ fault env, processSpace alloc build kspace middle = .error fault ∧ alloc.pmmXalloc env = .error fault) ∨
    ∃ space kernel', processSpace alloc build kspace middle = .ok (space, 0xf000, kernel') ∧
      ProcessAdded kspace users middle kernel' space := by
  obtain ⟨lists, start⟩ := mapped.isolated below
  obtain ⟨lists', isolated⟩ := (ran.isolated start).1
  exact (isolated.create build).imp_right fun ⟨space, kernel', _, created, _, added⟩ => ⟨space, kernel', created, added⟩

end

/-- The release build creates a third process beside two others. -/
theorem processSpace_creates_third : ∃ (kernel kernel' : Kernel Ledger) (space : Nat),
    processSpace sixtyFourFrames false 1 kernel = .ok (space, 0xf000, kernel') ∧
      ProcessAdded 1 [14, 7] kernel kernel' space := by
  obtain ⟨booted, middle, kernel, mapped, creates, creates', result⟩ := twoProcesses_run
  have ran : MemoryRun sixtyFourFrames true 1 threePageLayout.pmmVmaStop [] booted [14, 7] kernel :=
    .step .create (.step .create (.refl [] booted) trivial creates) trivial creates'
  have returns : (twoProcesses >>= fun result => (processSpace sixtyFourFrames false 1 result.2.2.1).map
      fun created => created.1).toOption = some 21 := by decide +kernel
  rw [result] at returns
  rcases processSpace_creates mapped (by decide) ran false with ⟨fault, env, failed, -⟩ | ⟨space, kernel', created, added⟩
  · simp [bind, Except.bind, Except.map, Except.toOption, failed] at returns
  · exact ⟨kernel, kernel', space, created, added⟩

section
variable {alloc : KernelAllocator σ} {debug : Bool} {kspace space ustack : Nat} {layout : KernelLayout}
  {pmap : List PmmRegion} {users users' : List Nat} {kernel middle started kernel' : Kernel σ}

/-- The higher half of a process stays a copy of the kernel space at its creation: a kernel page that was unmapped then
takes a page fault in the process in every later state, and one that was mapped then stays mapped to the same frame. -/
theorem process_keeps_kernel (mapped : KernelMapped alloc layout pmap kspace kernel)
    (below : ∀ region ∈ pmap, region.addr + region.sizeInPages * pageSizeInBytes < directLimit)
    (ran : MemoryRun alloc debug kspace layout.pmmVmaStop [] kernel users middle)
    (created : processSpace alloc debug kspace middle = .ok (space, ustack, started))
    (later : MemoryRun alloc debug kspace layout.pmmVmaStop (space :: users) started users' kernel') {va : Nat}
    (page : CanonicalPage va) (high : higherHalfStart ≤ va) :
    (mmuLeaf kspace va middle = 0 → pageAccess (kernel'.root space) va kernel' = .error (.panic .pageFault)) ∧
      (mmuLeaf kspace va middle ≠ 0 → pageAccess (kernel'.root space) va kernel' = .ok () ∧
        kernel'.frame space va = middle.frame kspace va) := by
  obtain ⟨lists, start⟩ := mapped.isolated below
  obtain ⟨lists', isolated⟩ := (ran.isolated start).1
  rcases isolated.create debug with ⟨fault, env, failed, -⟩ | ⟨space', final, lists'', created', isolated', added⟩
  · rw [failed] at created
    cases created
  rw [created] at created'
  obtain ⟨rfl, -, rfl⟩ : space = space' ∧ ustack = 0xf000 ∧ started = final := by simpa using created'
  have kept := ((later.isolated isolated').2 List.mem_cons_self).2 page high
  have leaf := kept.trans (added.copied page high)
  refine ⟨fun absent => ?_, fun present => ?_⟩
  · rw [absent] at leaf
    exact (pageAccess_cases kernel' space va).2 (leaf ▸ rfl)
  · have odd := (isolated.kernelPages page present).2.2.1
    have valid : PageFlags (mmuLeaf kspace va middle % pageSizeInBytes) :=
      ⟨Nat.mod_lt _ (by decide), by unfold pageSizeInBytes; omega⟩
    refine ⟨(pageAccess_cases kernel' space va).1 (leaf ▸ valid.or_present (pageAddr_aligned _)), ?_⟩
    rw [Kernel.frame, leaf]
    exact pageAddr_or (pageAddr_aligned _) (pageAddr_lt _) valid.small

end

/-- A page that the heap gets behind the creation of a process takes a page fault in the process. -/
theorem process_keeps_kernel_heap : ∃ kernel : Kernel Ledger, mmuLeaf 1 (kernelHeapStart + 0x1000) kernel ≠ 0 ∧
    pageAccess (kernel.root 7) (kernelHeapStart + 0x1000) kernel = .error (.panic .pageFault) := by
  obtain ⟨booted, middle, _, mapped, creates, -, result⟩ := twoProcesses_run
  obtain ⟨⟨space, ustack, started⟩, created, same⟩ := Outcome.map_eq_ok.mp creates
  obtain ⟨rfl, rfl⟩ : space = 7 ∧ started = middle := by simpa using same
  have facts : (twoProcesses >>= fun result => (MemoryCall.run sixtyFourFrames true 1 (.heapAlloc 5) result.2.1).map
      fun grown => (grown.1, mmuLeaf 1 (kernelHeapStart + 0x1000) result.1,
        mmuLeaf 1 (kernelHeapStart + 0x1000) grown.2)).toOption = some (kernelHeapStart + 0x1000, 0, 106755) := by
    decide +kernel
  rw [result] at facts
  cases grows : MemoryCall.run sixtyFourFrames true 1 (.heapAlloc 5) started with
  | error fault => simp [bind, Except.bind, Except.map, Except.toOption, grows] at facts
  | ok grown =>
      obtain ⟨ret, kernel⟩ := grown
      simp only [bind, Except.bind, Except.map, Except.toOption, grows, Option.some.injEq, Prod.mk.injEq] at facts
      obtain ⟨-, absent, present⟩ := facts
      have later : MemoryRun sixtyFourFrames true 1 threePageLayout.pmmVmaStop [7] started [7] kernel :=
        .step (.heapAlloc 5) (.refl [7] started) ⟨by decide, by decide⟩ grows
      refine ⟨kernel, by rw [present]; decide, ?_⟩
      exact (process_keeps_kernel mapped (by decide) (.refl [] booted) created later
        ⟨by decide, by decide, by decide⟩ (by decide)).1 absent

end B0s
