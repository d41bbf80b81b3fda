import B0s.Proof.Mm.PmmFrames
import B0s.Proof.Mm.PmmReserve
import B0s.Proof.Mm.VmmInit

/-
This file boots the memory manager on the frames of `pmm.c`.
-/

namespace B0s

variable {ρ τ : Type}

/-- The records and the frames lie in separate states. -/
def ObjectAllocator.over (objects : ObjectAllocator ρ) (frames : FrameAllocator τ) : KernelAllocator (ρ × τ) where
  live env := objects.live env.1
  blockAlloc type env := ((objects.blockAlloc type env.1).1, (objects.blockAlloc type env.1).2, env.2)
  blockFree type ptr env := (objects.blockFree type ptr env.1, env.2)
  live_ne_null env := objects.live_ne_null env.1
  alloc_fresh type env := objects.alloc_fresh type env.1
  alloc_live type env := objects.alloc_live type env.1
  free_live type ptr env := objects.free_live type ptr env.1
  managed := frames.managed
  held env := frames.held env.2
  pmmXalloc env := (frames.pmmXalloc env.2).map fun taken => (taken.1, env.1, taken.2)
  pmmFree page env := (frames.pmmFree page env.2).map fun freed => (env.1, freed)
  held_managed env := frames.held_managed env.2
  alloc_held _ _ _ := Iff.rfl
  blockFree_held _ _ _ _ := Iff.rfl
  xalloc_aligned env frame env' done := by
    obtain ⟨taken, returned, same⟩ := Outcome.map_eq_ok.mp done
    obtain ⟨rfl, rfl⟩ := Prod.mk.inj same
    exact frames.xalloc_aligned _ _ _ returned
  xalloc_fresh env frame env' done := by
    obtain ⟨taken, returned, same⟩ := Outcome.map_eq_ok.mp done
    obtain ⟨rfl, rfl⟩ := Prod.mk.inj same
    exact frames.xalloc_fresh _ _ _ returned
  xalloc_held env frame env' done := by
    obtain ⟨taken, returned, same⟩ := Outcome.map_eq_ok.mp done
    obtain ⟨rfl, rfl⟩ := Prod.mk.inj same
    exact frames.xalloc_held _ _ _ returned
  free_held env page env' done := by
    obtain ⟨freed, returned, rfl⟩ := Outcome.map_eq_ok.mp done
    exact frames.free_held _ _ _ returned
  xalloc_live env frame env' done type ptr := by
    obtain ⟨taken, -, same⟩ := Outcome.map_eq_ok.mp done
    obtain ⟨rfl, rfl⟩ := Prod.mk.inj same
    exact Iff.rfl
  pmmFree_live env page env' done type ptr := by
    obtain ⟨freed, -, rfl⟩ := Outcome.map_eq_ok.mp done
    exact Iff.rfl

/-- Records change no frames. -/
theorem ObjectAllocator.over_records {objects : ObjectAllocator ρ} {frames : FrameAllocator τ} {env env' : ρ × τ}
    (reached : (objects.over frames).toObjectAllocator.Records env env') : env'.2 = env.2 := by
  induction reached with
  | refl => rfl
  | alloc _ _ ih => exact ih
  | free _ _ _ ih => exact ih

/-- The allocator gives out this many frames in a row. -/
def FrameAllocator.Lasts (frames : FrameAllocator τ) : Nat → τ → Prop
  | 0, _ => True
  | count + 1, env => (frames.pmmXalloc env).Gives fun taken => frames.Lasts count taken.2

theorem FrameAllocator.Lasts.over {frames : FrameAllocator τ} {count : Nat} {env : τ} (lasts : frames.Lasts count env)
    (objects : ObjectAllocator ρ) (records : ρ) : (objects.over frames).Lasts count (records, env) := by
  induction count generalizing records env with
  | zero => trivial
  | succ count ih =>
      intro env' reached
      have same : env'.2 = env := ObjectAllocator.over_records reached
      obtain ⟨taken, done, rest⟩ := lasts
      refine ⟨(taken.1, env'.1, taken.2), ?_, ih rest env'.1⟩
      change (frames.pmmXalloc env'.2).map _ = _
      rw [same, done]
      rfl

/-- The free pages of a region. -/
def PmmRegion.freePages (region : PmmRegion) (mem : ByteMemory.Memory) : Finset Nat :=
  (Finset.range region.sizeInPages).filter fun j => region.bit mem j = true

/-- The first available region has this many free pages. -/
def Pmm.Spare (pmm : Pmm) (count : Nat) : Prop :=
  ∃ before region after, pmm.pmap = before ++ region :: after ∧ (∀ other ∈ before, other.type ≠ .available) ∧
    region.type = .available ∧ count ≤ (region.freePages pmm.mem).card

section
variable {mem mem' : ByteMemory.Memory} {pmap before after rest : List PmmRegion} {region : PmmRegion} {pmm : Pmm}
  {undefined unassigned : Nat → Nat} {count j : Nat}

/-- Reserved regions read no unassigned local. -/
theorem assigned_append (reserved : ∀ other ∈ before, other.type ≠ .available) (assigned : Assigned rest mem) :
    Assigned (before ++ rest) mem := by
  induction before with
  | nil => exact assigned
  | cons other before ih =>
      rw [List.cons_append, Assigned, if_neg (reserved other List.mem_cons_self)]
      exact ih fun region member => reserved region (List.mem_cons_of_mem _ member)

/-- The first available region with a free page ends the search. -/
theorem FirstFree.assigned (found : FirstFree pmm before region after j) (mapped : Mapped pmm.pmap)
    (reserved : ∀ other ∈ before, other.type ≠ .available) : Assigned pmm.pmap pmm.mem := by
  have here := mapped region (by rw [found.split]; simp) found.available
  have covers := here.fits.covers
  have len := here.len
  have inside := found.inside
  rw [found.split]
  apply assigned_append reserved
  rw [Assigned, if_pos found.available]
  refine ⟨fun _ => ⟨j, by omega, found.set⟩, fun full => ?_⟩
  have clear := full j (by omega)
  rw [found.set] at clear
  cases clear

/-- One page less is free behind an allocation. -/
theorem PmmRegion.freePages_writes (here : region.Mapped) (inside : j < region.sizeInPages)
    (writes : region.bitmap.Writes j false mem mem') :
    (region.freePages mem).card ≤ (region.freePages mem').card + 1 := by
  have kept : (region.freePages mem).erase j ⊆ region.freePages mem' := by
    intro k member
    obtain ⟨different, free⟩ := Finset.mem_erase.mp member
    obtain ⟨bound, set⟩ := Finset.mem_filter.mp free
    have small := here.fits.small
    have covers := here.fits.covers
    have len := here.len
    have below := Finset.mem_range.mp bound
    refine Finset.mem_filter.mpr ⟨bound, ?_⟩
    rw [PmmRegion.bit, writes.other fun same => different (Bitmap.place_injective (by omega) (by omega) same)]
    exact set
  have erased := Finset.card_le_card kept
  have lost : (region.freePages mem).card - 1 ≤ ((region.freePages mem).erase j).card :=
    Finset.pred_card_le_card_erase
  omega

/-- A region with free pages has a first one. -/
theorem Pmm.Spare.next (spare : pmm.Spare (count + 1)) : ∃ before region after j, FirstFree pmm before region after j ∧
    (∀ other ∈ before, other.type ≠ .available) ∧ count + 1 ≤ (region.freePages pmm.mem).card := by
  obtain ⟨before, region, after, split, reserved, available, many⟩ := spare
  have free : ∃ j, j < region.sizeInPages ∧ region.bit pmm.mem j = true := by
    obtain ⟨j, member⟩ := Finset.card_pos.mp (lt_of_lt_of_le (Nat.succ_pos count) many)
    obtain ⟨bound, set⟩ := Finset.mem_filter.mp member
    exact ⟨j, Finset.mem_range.mp bound, set⟩
  obtain ⟨inside, set⟩ := Nat.find_spec free
  refine ⟨before, region, after, Nat.find free, ⟨split, fun other member kind => absurd kind (reserved other member),
    available, inside, set, ?_⟩, reserved, many⟩
  intro k below
  by_contra found
  exact Nat.find_min free below ⟨below.trans inside, by simpa using found⟩

/-- `pmm_xalloc` takes one of the free pages. -/
theorem FrameState.xalloc_spare (state : FrameState pmap)
    (above : ∀ region ∈ pmap, region.type = .available → 0 < region.addr)
    (spare : state.holding.pmm.Spare (count + 1)) :
    (state.xalloc unassigned).Gives fun taken => taken.2.holding.pmm.Spare count := by
  obtain ⟨before, region, after, j, found, reserved, many⟩ := spare.next
  obtain ⟨mem', allocated, writes⟩ := found.alloc state.owned.mapped unassigned
  have member : region ∈ state.holding.pmm.pmap := by
    rw [found.split]
    simp
  have nonnull : ¬(pmmAlloc unassigned state.holding.pmm).1 = NULL := by
    have positive := above region (state.table ▸ member) found.available
    rw [allocated, (state.owned.unwrapped region member found.available).page found.inside]
    unfold NULL
    omega
  have less := PmmRegion.freePages_writes (state.owned.mapped region member found.available) found.inside writes
  refine ⟨_, (if_pos (found.assigned state.owned.mapped reserved)).trans (dif_neg nonnull), ?_⟩
  change (pmmAlloc unassigned state.holding.pmm).2.Spare count
  rw [allocated]
  exact ⟨before, region, after, found.split, reserved, found.available, by dsimp only; omega⟩

/-- The free pages of the first available region last for this many frames. -/
theorem FrameState.lasts (state : FrameState pmap)
    (above : ∀ region ∈ pmap, region.type = .available → 0 < region.addr) (spare : state.holding.pmm.Spare count) :
    (pmmFrames undefined unassigned pmap).Lasts count state := by
  induction count generalizing state with
  | zero => trivial
  | succ count ih =>
      obtain ⟨taken, done, rest⟩ := state.xalloc_spare above spare
      exact ⟨taken, done, ih taken.2 rest⟩

end

section
variable {image : KernelImage} {mmap : List MultibootMmapEntry} {pages : List Nat} {pmm : Pmm} {pmap : List PmmRegion}

/-- Available memory starts behind the first mebibyte. -/
theorem Booted.positive (boot : Booted image mmap pages pmm pmap) {region : PmmRegion} (member : region ∈ pmm.pmap)
    (available : region.type = .available) : pageSizeInBytes ≤ region.addr := by
  obtain ⟨entry, -, kind, above, addr, -⟩ := boot.available member available
  rw [addr, pmapRegion_addr image entry kind]
  unfold biosEnd at above
  unfold pageSizeInBytes
  omega

theorem Booted.above (boot : Booted image mmap pages pmm pmap) :
    ∀ region ∈ pmm.pmap, region.type = .available → 0 < region.addr := fun _ member available =>
  lt_of_lt_of_le (by decide) (boot.positive member available)

theorem Booted.page_aligned (boot : Booted image mmap pages pmm pmap) {region : PmmRegion} (member : region ∈ pmm.pmap) :
    region.addr % pageSizeInBytes = 0 := by
  obtain ⟨entry, -, -, same⟩ := boot.entry member
  have addr : region.range.addr = (pmapRegion image entry).1.range.addr := congrArg PmmRegion.addr same
  exact addr ▸ (pmapRegion_aligned image entry).addr

/-- The booted table is one of page regions. -/
theorem Booted.pageRegions (boot : Booted image mmap pages pmm pmap)
    (nonempty : ∀ region ∈ pmm.pmap, 0 < region.sizeInPages)
    (below : ∀ region ∈ pmm.pmap, region.addr + region.sizeInPages * pageSizeInBytes < directLimit) :
    PageRegions pmm.pmap where
  sorted := boot.sorted
  apart := boot.apart
  nonempty := nonempty
  aligned _ member := boot.page_aligned member
  bounded := by
    intro region member
    have bound := below region member
    unfold directLimit at bound
    unfold pageSizeInBytes at *
    omega

/-- The first available region holds a page behind the first one of memory. -/
theorem Booted.holds_page {count : Nat} (boot : Booted image mmap pages pmm pmap)
    (nonempty : ∀ region ∈ pmm.pmap, 0 < region.sizeInPages) (spare : pmm.Spare count) :
    ∃ region ∈ pmm.pmap, ∃ pa, pageSizeInBytes ≤ pa ∧ region.Holds pa := by
  obtain ⟨before, region, after, split, -, available, -⟩ := spare
  have member : region ∈ pmm.pmap := by
    rw [split]
    simp
  refine ⟨region, member, region.addr, boot.positive member available, boot.page_aligned member, le_rfl, ?_⟩
  exact Nat.lt_add_of_pos_right (Nat.mul_pos (nonempty region member) (by decide))

end

theorem smallEntry_unwrapped : UnwrappedMap bootImage (oneEntry 0x40000 (by decide)) := by
  intro entry member available above
  obtain rfl := List.mem_singleton.mp member
  exact ⟨by decide, by decide⟩

/-- The bitmap of 64 pages takes the first page, and the others are enough for the page tables. -/
theorem smallBoot : ∃ pages count pmm,
    pmmInit bootImage (fun _ _ => 0) (oneEntry 0x40000 (by decide)) (fun _ => 0) = .ok (pages, count, pmm) ∧
      pmm.pmap = [smallRegion] ∧ pages = [0x200000] ∧ pmm.Spare (1 + (kernelTables threePageLayout pmm.pmap).card) := by
  have evaluated : (pmmInit bootImage (fun _ _ => 0) (oneEntry 0x40000 (by decide)) (fun _ => 0) >>= fun boot =>
      .ok (boot.2.2.pmap, boot.1, decide (1 + (kernelTables threePageLayout [smallRegion]).card ≤
        (smallRegion.freePages boot.2.2.mem).card)) : Outcome (List PmmRegion × List Nat × Bool)) =
      .ok ([smallRegion], [0x200000], true) := by
    decide +kernel
  obtain ⟨⟨pages, count, pmm⟩, booted, rest⟩ := Outcome.bind_eq_ok.mp evaluated
  have facts := Except.ok.inj rest
  simp only [Prod.mk.injEq, decide_eq_true_eq] at facts
  obtain ⟨table, taken, room⟩ := facts
  refine ⟨pages, count, pmm, booted, table, taken, ?_⟩
  rw [table]
  exact ⟨[], smallRegion, [], table, by simp, rfl, room⟩

end B0s
