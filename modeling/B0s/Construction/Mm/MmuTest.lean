import B0s.Construction.Mm.Pmm
import B0s.Construction.Mm.Vmm

/-
This file models the boot tables and the checks of `mmu.c` that walk two sets of tables.
-/

namespace B0s

def bootPageFlag : Nat := 128

def bootPageSizeInBytes : Nat := 0x40000000

/-- This is the `PAGE_ADDR` macro for pages of one gibibyte. -/
def bootPageAddr (addr : Nat) : Nat := addr &&& (2 ^ 64 - bootPageSizeInBytes)

/-- The linker places the aligned boot tables in the first gibibyte. -/
structure BootTables where
  pml4 : Nat
  pdpMid : Nat
  pdpLow : Nat
  pdpHigh : Nat
  alignedLow : 4096 ∣ pdpLow
  alignedMid : 4096 ∣ pdpMid
  alignedHigh : 4096 ∣ pdpHigh
  below : pml4 + 4096 ≤ bootPageSizeInBytes ∧ pdpMid + 4096 ≤ bootPageSizeInBytes ∧
    pdpLow + 4096 ≤ bootPageSizeInBytes ∧ pdpHigh + 4096 ≤ bootPageSizeInBytes

namespace BootTables

variable (boot : BootTables)

def pml4Entry (index : Nat) : Nat :=
  if index = 0 then boot.pdpLow + pageRw + pagePresent
  else if index ≤ 256 then boot.pdpMid + pageRw + pagePresent
  else if index ≤ 510 then 0
  else boot.pdpHigh + pageRw + pagePresent

/-- `PDP_MID` and `PDP_LOW` have the same entries. -/
def pdpLowEntry (index : Nat) : Nat :=
  if index = 0 then pagePresent ||| pageRw ||| bootPageFlag
  else if index = 1 then bootPageSizeInBytes ||| pagePresent ||| pageRw ||| bootPageFlag
  else 0

def pdpHighEntry (index : Nat) : Nat :=
  if index < 510 then 0
  else if index = 510 then 0 ||| pagePresent ||| pageRw ||| bootPageFlag
  else bootPageSizeInBytes ||| pagePresent ||| pageRw ||| bootPageFlag

/-- The kernel reads `PML4` through its own window and the other tables through the identity mapping. -/
def word (addr : Nat) : Nat :=
  if p2v boot.pml4 ≤ addr ∧ addr < p2v boot.pml4 + 4096 then boot.pml4Entry ((addr - p2v boot.pml4) / 8)
  else if boot.pdpHigh ≤ addr ∧ addr < boot.pdpHigh + 4096 then pdpHighEntry ((addr - boot.pdpHigh) / 8)
  else if boot.pdpMid ≤ addr ∧ addr < boot.pdpMid + 4096 then pdpLowEntry ((addr - boot.pdpMid) / 8)
  else if boot.pdpLow ≤ addr ∧ addr < boot.pdpLow + 4096 then pdpLowEntry ((addr - boot.pdpLow) / 8)
  else 0

end BootTables

def mmuTranslate1gb (word : Nat → Nat) (pml4 va : Nat) : Nat :=
  let pml4Entry := word (entryAddr pml4 (pml4eIndex va))
  if pml4Entry &&& pagePresent = 0 then 2 ^ 64 - 1
  else
    let pdptEntry := word (entryAddr (pageAddr pml4Entry) (pdptIndex va))
    if pdptEntry &&& pagePresent = 0 then 2 ^ 64 - 1
    else bootPageAddr pdptEntry ||| (va &&& (bootPageSizeInBytes - 1))

section
variable {σ : Type}

/-- The loop of `mmu_test_kernel_mapping` compares the old and the new translation of every page. -/
def mmuTestKernelMappingFrom (boot : BootTables) (space stop : Nat) (kernel : Kernel σ) : Nat → Nat → Outcome Unit
  | 0, _ => .error .diverges
  | steps + 1, addr =>
      if addr < stop then
        let old := mmuTranslate1gb boot.word (p2v boot.pml4) addr
        let new := mmuTranslate4k (kernel.space space).pageDirectory addr kernel
        if old ≠ new then .error (.panic (.mmuTestKernelMappingDiffers addr old new))
        else mmuTestKernelMappingFrom boot space stop kernel steps (u64 (addr + pageSizeInBytes))
      else .ok ()

def mmuTestKernelMapping (boot : BootTables) (vmaStart pmmVmaStop space : Nat) (kernel : Kernel σ) : Outcome Unit :=
  mmuTestKernelMappingFrom boot space pmmVmaStop kernel walkLimit vmaStart

/-- The inner loop of `mmu_test_compare_mapping` compares the translations of the pages of a region. -/
def mmuTestComparePages (space1 space2 stop : Nat) (kernel : Kernel σ) : Nat → Nat → Outcome Unit
  | 0, _ => .error .diverges
  | steps + 1, va =>
      if va < stop then
        let pa1 := mmuTranslate4k (kernel.space space1).pageDirectory va kernel
        let pa2 := mmuTranslate4k (kernel.space space2).pageDirectory va kernel
        if pa1 ≠ pa2 then .error (.panic .mmuTestCompareMappingAddress)
        else mmuTestComparePages space1 space2 stop kernel steps (u64 (va + pageSizeInBytes))
      else .ok ()

def mmuTestCompareRegions (space1 space2 : Nat) (kernel : Kernel σ) : Nat → Nat → Nat → Outcome Unit
  | 0, _, _ => .error .diverges
  | steps + 1, region1, region2 =>
      if region1 ≠ NULL ∧ region2 ≠ NULL then
        if (kernel.region region1).vaStart ≠ (kernel.region region2).vaStart then
          .error (.panic .mmuTestCompareMappingStart)
        else if (kernel.region region1).vaStop ≠ (kernel.region region2).vaStop then
          .error (.panic .mmuTestCompareMappingStop)
        else if (kernel.region region1).flags ≠ (kernel.region region2).flags then
          .error (.panic .mmuTestCompareMappingFlags)
        else do
          mmuTestComparePages space1 space2 (kernel.region region1).vaStop kernel walkLimit
            (kernel.region region1).vaStart
          mmuTestCompareRegions space1 space2 kernel steps (kernel.region region1).next (kernel.region region2).next
      else if region1 ≠ NULL ∨ region2 ≠ NULL then .error (.panic .mmuTestCompareMappingCount)
      else .ok ()

def mmuTestCompareMapping (space1 space2 : Nat) (kernel : Kernel σ) : Outcome Unit :=
  mmuTestCompareRegions space1 space2 kernel walkLimit (kernel.space space1).region (kernel.space space2).region

end

end B0s
