import B0s.Construction.Mm.VmmInit
import B0s.Proof.Mm.SpaceCopy

/-
This file proves when the checks of the debug build on page tables pass.
-/

namespace B0s
open DoublyLinked RangeMap

/-- The kernel window has the last two slots of the last table of the boot tables. -/
theorem pdptIndex_kernel {va : Nat} (lower : kernelVma ≤ va) (upper : va < 2 ^ 64) :
    pml4eIndex va = 511 ∧ pdptIndex va = 510 + (va - kernelVma) / 2 ^ 30 ∧ (va - kernelVma) / 2 ^ 30 < 2 := by
  have mask : ∀ index, index &&& 0x1ff = index % 512 := fun index => Nat.and_two_pow_sub_one_eq_mod index 9
  unfold pml4eIndex pdptIndex kernelVma at *
  rw [mask, mask, Nat.shiftRight_eq_div_pow, Nat.shiftRight_eq_div_pow]
  omega

theorem BootTables.word_pml4 (boot : BootTables) {index : Nat} (small : index < 512) :
    boot.word (entryAddr (p2v boot.pml4) index) = boot.pml4Entry index := by
  have place : (entryAddr (p2v boot.pml4) index - p2v boot.pml4) / 8 = index := by
    unfold entryAddr
    omega
  rw [BootTables.word, if_pos (by unfold entryAddr; omega), place]

theorem BootTables.word_pdpHigh (boot : BootTables) {index : Nat} (small : index < 512) :
    boot.word (entryAddr boot.pdpHigh index) = pdpHighEntry index := by
  have place : (entryAddr boot.pdpHigh index - boot.pdpHigh) / 8 = index := by
    unfold entryAddr
    omega
  have high : kernelVma ≤ p2v boot.pml4 := by
    have below := boot.below.1
    unfold p2v u64 kernelVma bootPageSizeInBytes at *
    omega
  have below := boot.below.2.2.2
  have outside : ¬(p2v boot.pml4 ≤ entryAddr boot.pdpHigh index ∧ entryAddr boot.pdpHigh index < p2v boot.pml4 + 4096) := by
    unfold entryAddr kernelVma bootPageSizeInBytes at *
    omega
  rw [BootTables.word, if_neg outside, if_pos (by unfold entryAddr; omega), place]

/-- The last entry of `PML4` leads to `PDP_HIGH`. -/
theorem BootTables.pml4Entry_last (boot : BootTables) :
    boot.pml4Entry 511 &&& pagePresent ≠ 0 ∧ pageAddr (boot.pml4Entry 511) = boot.pdpHigh := by
  have entry : boot.pml4Entry 511 = boot.pdpHigh + pageRw + pagePresent := rfl
  have aligned := Nat.mod_eq_zero_of_dvd boot.alignedHigh
  have below := boot.below.2.2.2
  have odd : (boot.pdpHigh + pageRw + pagePresent) &&& pagePresent = 1 := by
    rw [pagePresent, Nat.and_one_is_mod]
    unfold pageRw
    omega
  rw [entry, odd, pageAddr_mod]
  unfold pageRw pagePresent pageSizeInBytes bootPageSizeInBytes at *
  omega

/-- The boot tables map the kernel window to the start of memory. -/
theorem mmuTranslate1gb_eq (boot : BootTables) {va : Nat} (lower : kernelVma ≤ va) (upper : va < 2 ^ 64) :
    mmuTranslate1gb boot.word (p2v boot.pml4) va = va - kernelVma := by
  obtain ⟨first, second, slot⟩ := pdptIndex_kernel lower upper
  obtain ⟨present, leads⟩ := boot.pml4Entry_last
  have entry : BootTables.pdpHighEntry (510 + (va - kernelVma) / 2 ^ 30) &&& pagePresent ≠ 0 ∧
      bootPageAddr (BootTables.pdpHighEntry (510 + (va - kernelVma) / 2 ^ 30)) =
        (va - kernelVma) / 2 ^ 30 * 2 ^ 30 := by
    generalize (va - kernelVma) / 2 ^ 30 = index at slot ⊢
    interval_cases index
    · decide
    · decide
  have offset : va &&& (bootPageSizeInBytes - 1) = va % 2 ^ 30 := Nat.and_two_pow_sub_one_eq_mod va 30
  have sum : (va - kernelVma) / 2 ^ 30 * 2 ^ 30 ||| va % 2 ^ 30 = va - kernelVma := by
    rw [WordBits.or_low_bits 30 (Nat.mul_mod_left _ _) (Nat.mod_lt _ (by decide))]
    unfold kernelVma at *
    omega
  rw [mmuTranslate1gb, first, second, boot.word_pml4 (by decide), if_neg present, leads,
    boot.word_pdpHigh (by omega), if_neg entry.1, entry.2, offset, sum]

/-- The outcome of a check tells whether the property holds, and it panics otherwise. -/
def Outcome.Decides (outcome : Outcome Unit) (property : Prop) : Prop :=
  outcome = .ok () ∧ property ∨ outcome.Panics ∧ ¬property

theorem Outcome.Decides.ok_iff {outcome : Outcome Unit} {property : Prop} (decides : outcome.Decides property) :
    outcome = .ok () ↔ property := by
  rcases decides with ⟨passed, holds⟩ | ⟨⟨reason, panicked⟩, fails⟩
  · exact ⟨fun _ => holds, fun _ => passed⟩
  · refine ⟨fun passed => ?_, fun holds => absurd holds fails⟩
    rw [panicked] at passed
    cases passed

theorem Outcome.Decides.congr {outcome : Outcome Unit} {property property' : Prop} (decides : outcome.Decides property)
    (same : property ↔ property') : outcome.Decides property' := by
  rwa [Outcome.Decides, ← same]

/-- Two checks in a row decide both properties. -/
theorem Outcome.Decides.bind {first second : Outcome Unit} {property property' : Prop} (one : first.Decides property)
    (two : second.Decides property') : Outcome.Decides (first >>= fun _ => second) (property ∧ property') := by
  rcases one with ⟨passed, holds⟩ | ⟨⟨reason, panicked⟩, fails⟩
  · rw [passed]
    exact two.congr ⟨fun later => ⟨holds, later⟩, And.right⟩
  · exact Or.inr ⟨⟨reason, by rw [panicked]; rfl⟩, fun both => fails both.1⟩

theorem Outcome.Decides.panic {reason : Panic} {property : Prop} (fails : ¬property) :
    Outcome.Decides (.error (.panic reason)) property :=
  Or.inr ⟨⟨reason, rfl⟩, fails⟩

/-- A loop that checks one page after the other decides whether all pages of the window pass. -/
theorem pageLoop_decides {loop : Nat → Nat → Outcome Unit} {passes : Nat → Prop} {panic : Nat → Panic}
    {start stop steps : Nat} (pass : ∀ steps va, va < stop → passes va →
      loop (steps + 1) va = loop steps (u64 (va + pageSizeInBytes)))
    (fail : ∀ steps va, va < stop → ¬passes va → loop (steps + 1) va = .error (.panic (panic va)))
    (last : ∀ steps va, ¬va < stop → loop (steps + 1) va = .ok ()) (alignedStart : start % pageSizeInBytes = 0)
    (alignedStop : stop % pageSizeInBytes = 0) (addressable : stop < 2 ^ 64)
    (enough : stop - start < steps * pageSizeInBytes) :
    (loop steps start).Decides (∀ va, WindowPage start stop va → passes va) := by
  induction steps generalizing start with
  | zero => omega
  | succ steps ih =>
      by_cases inside : start < stop
      · by_cases passed : passes start
        · have noWrap : u64 (start + pageSizeInBytes) = start + pageSizeInBytes := by
            unfold u64 pageSizeInBytes at *
            omega
          rw [pass steps start inside passed, noWrap]
          refine (ih (by unfold pageSizeInBytes at *; omega) (by unfold pageSizeInBytes at *; omega)).congr ?_
          constructor
          · intro rest va page
            rcases page.cases alignedStart with rfl | later
            · exact passed
            · exact rest va later
          · exact fun all va page => all va page.later
        · rw [fail steps start inside passed]
          exact .panic fun all => passed (all start (.first alignedStart inside))
      · rw [last steps start inside]
        exact Or.inl ⟨rfl, fun va page => absurd (Nat.lt_of_le_of_lt page.lower page.upper) inside⟩

section
variable {σ : Type} {objects : ObjectAllocator σ} {kernel : Kernel σ} {space space1 space2 : Nat}

/-- The kernel check passes exactly when the boot tables and the new tables agree on every page of the window. -/
theorem mmuTestKernelMapping_decides (boot : BootTables) {start stop : Nat} (alignedStart : start % pageSizeInBytes = 0)
    (alignedStop : stop % pageSizeInBytes = 0) (addressable : stop < 2 ^ 64) :
    (mmuTestKernelMapping boot start stop space kernel).Decides (∀ va, WindowPage start stop va →
      mmuTranslate1gb boot.word (p2v boot.pml4) va = mmuTranslate4k (kernel.root space) va kernel) := by
  refine @pageLoop_decides _ _ (fun va => .mmuTestKernelMappingDiffers va
    (mmuTranslate1gb boot.word (p2v boot.pml4) va) (mmuTranslate4k (kernel.root space) va kernel))
    start stop walkLimit ?_ ?_ ?_ alignedStart alignedStop addressable (by unfold walkLimit pageSizeInBytes; omega)
  · intro steps va inside passed
    rw [mmuTestKernelMappingFrom, if_pos inside]
    exact if_neg (not_not.mpr passed)
  · intro steps va inside failed
    rw [mmuTestKernelMappingFrom, if_pos inside]
    exact if_pos failed
  · intro steps va outside
    rw [mmuTestKernelMappingFrom, if_neg outside]

/-- The translations of an address agree. -/
def Kernel.TranslatesAlike (kernel : Kernel σ) (space1 space2 va : Nat) : Prop :=
  mmuTranslate4k (kernel.root space1) va kernel = mmuTranslate4k (kernel.root space2) va kernel

theorem mmuTestComparePages_decides {start stop : Nat} (alignedStart : start % pageSizeInBytes = 0)
    (alignedStop : stop % pageSizeInBytes = 0) (addressable : stop < 2 ^ 64) :
    (mmuTestComparePages space1 space2 stop kernel walkLimit start).Decides
      (∀ va, WindowPage start stop va → kernel.TranslatesAlike space1 space2 va) := by
  refine @pageLoop_decides _ _ (fun _ => .mmuTestCompareMappingAddress) start stop walkLimit ?_ ?_ ?_ alignedStart
    alignedStop addressable (by unfold walkLimit pageSizeInBytes; omega)
  · intro steps va inside passed
    rw [mmuTestComparePages, if_pos inside]
    exact if_neg (not_not.mpr passed)
  · intro steps va inside failed
    rw [mmuTestComparePages, if_pos inside]
    exact if_pos failed
  · intro steps va outside
    rw [mmuTestComparePages, if_neg outside]

/-- The listed regions are equal, and every page of them translates alike. -/
def Kernel.Compares (kernel : Kernel σ) (space1 space2 : Nat) (ptrs1 ptrs2 : List Nat) : Prop :=
  kernel.ranges ptrs1 = kernel.ranges ptrs2 ∧ ∀ range ∈ kernel.ranges ptrs1, ∀ va,
    WindowPage range.start range.stop va → kernel.TranslatesAlike space1 space2 va

theorem Kernel.compares_cons {ptr1 ptr2 : Nat} {rest1 rest2 : List Nat} :
    kernel.Compares space1 space2 (ptr1 :: rest1) (ptr2 :: rest2) ↔
      (kernel.region ptr1).range = (kernel.region ptr2).range ∧
        (∀ va, WindowPage (kernel.region ptr1).vaStart (kernel.region ptr1).vaStop va →
          kernel.TranslatesAlike space1 space2 va) ∧ kernel.Compares space1 space2 rest1 rest2 := by
  unfold Kernel.Compares
  rw [Kernel.ranges_cons, Kernel.ranges_cons, List.cons.injEq, List.forall_mem_cons]
  tauto

/-- The walk over both lists decides whether the rests of the lists agree. -/
theorem mmuTestCompareRegions_decides {passed1 passed2 rest1 rest2 : List Nat} {steps : Nat}
    (listed1 : SpaceList objects kernel space1 (passed1 ++ rest1))
    (listed2 : SpaceList objects kernel space2 (passed2 ++ rest2))
    (pages : WholePages (kernel.ranges (passed1 ++ rest1))) (enough : rest1.length < steps) :
    (mmuTestCompareRegions space1 space2 kernel steps (rest1.headD NULL) (rest2.headD NULL)).Decides
      (kernel.Compares space1 space2 rest1 rest2) := by
  induction rest1 generalizing passed1 passed2 rest2 steps with
  | nil =>
      obtain ⟨steps, rfl⟩ := Nat.exists_eq_succ_of_ne_zero (Nat.ne_of_gt enough)
      rw [mmuTestCompareRegions, List.headD_nil, if_neg fun both => both.1 rfl]
      cases rest2 with
      | nil => exact Or.inl ⟨if_neg (by simp), rfl, by simp⟩
      | cons ptr2 rest2 =>
          have nonnull : ptr2 ≠ NULL := listed2.ne_null (by simp)
          rw [List.headD_cons, if_pos (Or.inr nonnull)]
          exact .panic fun same => by simpa using same.1
  | cons ptr1 rest1 ih =>
      obtain ⟨steps, rfl⟩ := Nat.exists_eq_succ_of_ne_zero (Nat.ne_of_gt (Nat.zero_lt_of_lt enough))
      have nonnull1 : ptr1 ≠ NULL := listed1.ne_null (by simp)
      rw [mmuTestCompareRegions, List.headD_cons]
      cases rest2 with
      | nil =>
          rw [List.headD_nil, if_neg fun both => both.2 rfl, if_pos (Or.inl nonnull1)]
          exact .panic fun same => by simpa using same.1
      | cons ptr2 rest2 =>
          have nonnull2 : ptr2 ≠ NULL := listed2.ne_null (by simp)
          have next1 : (kernel.region ptr1).next = rest1.headD NULL := listed1.linked.links_at.1
          have next2 : (kernel.region ptr2).next = rest2.headD NULL := listed2.linked.links_at.1
          have member : (kernel.region ptr1).range ∈ kernel.ranges (passed1 ++ ptr1 :: rest1) :=
            List.mem_map.mpr ⟨ptr1, by simp, rfl⟩
          have span := pages.span member
          have differ : ∀ {reason : Panic}, (kernel.region ptr1).range ≠ (kernel.region ptr2).range →
              Outcome.Decides (.error (.panic reason))
                (kernel.Compares space1 space2 (ptr1 :: rest1) (ptr2 :: rest2)) :=
            fun different => .panic fun same => different (Kernel.compares_cons.mp same).1
          rw [List.headD_cons, if_pos ⟨nonnull1, nonnull2⟩]
          split_ifs with start stop flags
          · exact differ fun same => start (congrArg Range.start same)
          · exact differ fun same => stop (congrArg Range.stop same)
          · exact differ fun same => flags (congrArg Range.flags same)
          · have same : (kernel.region ptr1).range = (kernel.region ptr2).range := by
              unfold VmmRegion.range
              rw [not_not.mp start, not_not.mp stop, not_not.mp flags]
            rw [next1, next2]
            have checked := @mmuTestComparePages_decides _ kernel space1 space2 _ _ span.alignedStart span.alignedStop
              span.addressable
            rw [List.append_cons] at listed1 listed2 pages
            refine (checked.bind (ih listed1 listed2 pages (Nat.lt_of_succ_lt_succ enough))).congr ?_
            rw [Kernel.compares_cons, and_iff_right same]
            rfl

/-- The check of two spaces passes exactly when they have the same regions and translate every page of them alike,
and it panics otherwise. -/
theorem mmuTestCompareMapping_decides {ptrs1 ptrs2 : List Nat} (listed1 : SpaceList objects kernel space1 ptrs1)
    (listed2 : SpaceList objects kernel space2 ptrs2) (pages : WholePages (kernel.ranges ptrs1)) :
    (mmuTestCompareMapping space1 space2 kernel).Decides (kernel.Compares space1 space2 ptrs1 ptrs2) := by
  have bounded : kernel.Bounded ptrs1 := pages.bounded
  rw [mmuTestCompareMapping, listed1.head, listed2.head]
  exact @mmuTestCompareRegions_decides _ objects kernel space1 space2 [] [] ptrs1 ptrs2 walkLimit listed1 listed2 pages
    (bounded.length_lt pages.canonical)

/-- A page whose leaf entry is present can be accessed. -/
theorem pageAccess_cases (kernel : Kernel σ) (space va : Nat) :
    (mmuLeaf space va kernel &&& pagePresent ≠ 0 → pageAccess (kernel.root space) va kernel = .ok ()) ∧
      (mmuLeaf space va kernel &&& pagePresent = 0 →
        pageAccess (kernel.root space) va kernel = .error (.panic .pageFault)) := by
  unfold pageAccess mmuLeaf
  dsimp only
  split_ifs <;> simp_all

theorem vmmProbePages_decides {start stop : Nat} (alignedStart : start % pageSizeInBytes = 0)
    (alignedStop : stop % pageSizeInBytes = 0) (addressable : stop < 2 ^ 64) :
    (vmmProbePages (kernel.root space) stop kernel walkLimit start).Decides
      (∀ va, WindowPage start stop va → mmuLeaf space va kernel &&& pagePresent ≠ 0) := by
  refine @pageLoop_decides _ _ (fun _ => .pageFault) start stop walkLimit ?_ ?_ ?_ alignedStart alignedStop addressable
    (by unfold walkLimit pageSizeInBytes; omega)
  · intro steps va inside present
    rw [vmmProbePages, if_pos inside, (pageAccess_cases kernel space va).1 present]
    rfl
  · intro steps va inside absent
    rw [vmmProbePages, if_pos inside, (pageAccess_cases kernel space va).2 (not_not.mp absent)]
    rfl
  · intro steps va outside
    rw [vmmProbePages, if_neg outside]

/-- Every page of the listed regions that are not read-only is present. -/
def Kernel.Present (kernel : Kernel σ) (space : Nat) (ranges : List (Range Nat Nat)) : Prop :=
  ∀ range ∈ ranges, ¬(range.flags = pageKernelRo ∨ range.flags = pageUserRo) → ∀ va,
    WindowPage range.start range.stop va → mmuLeaf space va kernel &&& pagePresent ≠ 0

/-- The walk over the regions decides whether the pages of the rest are present. -/
theorem vmmProbeRegions_decides {passed rest : List Nat} {steps : Nat}
    (listed : SpaceList objects kernel space (passed ++ rest)) (pages : WholePages (kernel.ranges (passed ++ rest)))
    (enough : rest.length < steps) :
    (vmmProbeRegions (kernel.root space) kernel steps (rest.headD NULL)).Decides
      (kernel.Present space (kernel.ranges rest)) := by
  induction rest generalizing passed steps with
  | nil =>
      obtain ⟨steps, rfl⟩ := Nat.exists_eq_succ_of_ne_zero (Nat.ne_of_gt enough)
      exact Or.inl ⟨if_pos rfl, fun range inside => absurd inside List.not_mem_nil⟩
  | cons ptr rest ih =>
      obtain ⟨steps, rfl⟩ := Nat.exists_eq_succ_of_ne_zero (Nat.ne_of_gt (Nat.zero_lt_of_lt enough))
      have nonnull : ptr ≠ NULL := listed.ne_null (by simp)
      have next : (kernel.region ptr).next = rest.headD NULL := listed.linked.links_at.1
      have member : (kernel.region ptr).range ∈ kernel.ranges (passed ++ ptr :: rest) :=
        List.mem_map.mpr ⟨ptr, by simp, rfl⟩
      have span := pages.span member
      rw [List.append_cons] at listed pages
      have later := ih listed pages (Nat.lt_of_succ_lt_succ enough)
      rw [vmmProbeRegions, List.headD_cons, if_neg nonnull, next, Kernel.ranges_cons]
      by_cases skipped : (kernel.region ptr).flags = pageKernelRo ∨ (kernel.region ptr).flags = pageUserRo
      · rw [if_pos skipped]
        refine later.congr ?_
        unfold Kernel.Present
        rw [List.forall_mem_cons]
        exact ⟨fun present => ⟨fun writable => absurd skipped writable, present⟩, And.right⟩
      · rw [if_neg skipped]
        refine ((vmmProbePages_decides span.alignedStart span.alignedStop span.addressable).bind later).congr ?_
        unfold Kernel.Present
        rw [List.forall_mem_cons]
        exact and_congr_left fun _ => ⟨fun present _ => present, fun present => present skipped⟩

/-- The probe passes exactly when the pages of all regions that are not read-only are present, and it takes a page fault
otherwise. -/
theorem vmmProbeSpace_decides {ptrs : List Nat} (listed : SpaceList objects kernel space ptrs)
    (pages : WholePages (kernel.ranges ptrs)) :
    (vmmProbeSpace space kernel).Decides (kernel.Present space (kernel.ranges ptrs)) := by
  have bounded : kernel.Bounded ptrs := pages.bounded
  rw [vmmProbeSpace, listed.head]
  exact @vmmProbeRegions_decides _ objects kernel space [] ptrs walkLimit listed pages (bounded.length_lt pages.canonical)

end

end B0s
