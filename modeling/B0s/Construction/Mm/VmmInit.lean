import B0s.Construction.Mm.MmuTest

/-
This file models `vmm_init`, which maps the kernel image and the direct mapping into a new space.
-/

namespace B0s

def higherHalfStop : Nat := 0xffffffffffffffff

/-- The linker script and `pmm_init` fix the windows of the kernel image. -/
structure KernelLayout where
  vmaStart : Nat
  rwStart : Nat
  rwStop : Nat
  roStart : Nat
  roStop : Nat
  pmmVmaStop : Nat
  starts : vmaStart = rwStart
  joins : rwStop = roStart
  lower : kernelVma ≤ rwStart
  rwNonempty : rwStart < rwStop
  roNonempty : roStart < roStop
  dataNonempty : roStop < pmmVmaStop
  upper : pmmVmaStop < kernelVma + 0x80000000
  rwAligned : rwStart % pageSizeInBytes = 0
  roAligned : roStart % pageSizeInBytes = 0
  roStopAligned : roStop % pageSizeInBytes = 0
  stopAligned : pmmVmaStop % pageSizeInBytes = 0

section
variable {σ : Type} (calls : KernelCalls σ)

/-- The loop of `vmm_init_phys_contiguous_region` maps a region to the frames from one address on. -/
def vmmInitPhysContiguousFrom (kspace region pa : Nat) : Nat → Nat → Kernel σ → Outcome (Kernel σ)
  | 0, _, _ => .error .diverges
  | steps + 1, offset, kernel =>
      if u64 ((kernel.region region).vaStart + offset) < (kernel.region region).vaStop then do
        let va := u64 ((kernel.region region).vaStart + offset)
        let pa' := u64 (pa + offset)
        let (old, kernel) ← mmuMapPage calls.toFrameCalls kspace va pa' (kernel.region region).flags kernel
        if old ≠ 0 then .error (.panic (.vmmInitContiguousMapped va pa'))
        else vmmInitPhysContiguousFrom kspace region pa steps (u64 (offset + pageSizeInBytes)) kernel
      else .ok kernel

def vmmInitPhysContiguousRegion (kspace region pa : Nat) (kernel : Kernel σ) : Outcome (Kernel σ) :=
  vmmInitPhysContiguousFrom calls kspace region pa walkLimit 0 kernel

/-- Available memory is mapped writable, and reserved memory is mapped read-only. -/
def directFlags (type : PmmRegionType) : Nat := if type = .available then pageKernelRw else pageKernelRo

/-- The loop of `vmm_init_direct_mapping` maps each page before it asks for the next one. -/
def vmmInitDirectMappingFrom (pmap : List PmmRegion) (kspace : Nat) :
    Nat → PmmPhysAddr → Kernel σ → Outcome (Kernel σ)
  | 0, _, _ => .error .diverges
  | steps + 1, addr, kernel => do
      let flags := directFlags addr.type
      let (region, kernel) ← vmmAddRange calls.toObjectCalls kspace (dmP2V addr.pa)
        (u64 (dmP2V addr.pa + pageSizeInBytes)) flags kernel
      if region = NULL then .error (.panic .vmmInitDirectMappingDam)
      else do
        let (old, kernel) ← mmuMapPage calls.toFrameCalls kspace (dmP2V addr.pa) addr.pa flags kernel
        if old ≠ 0 then .error (.panic (.vmmInitDirectMappingMapped (dmP2V addr.pa) addr.pa))
        else
          let addr := pmmNextPhysPage pmap addr.pa
          if addr.pa ≠ 1 then vmmInitDirectMappingFrom pmap kspace steps addr kernel else .ok kernel

def vmmInitDirectMapping (pmap : List PmmRegion) (kspace : Nat) (kernel : Kernel σ) : Outcome (Kernel σ) :=
  vmmInitDirectMappingFrom calls pmap kspace walkLimit (pmmNextPhysPage pmap 0) kernel

/-- An access faults at the first entry of its walk that is not present, and the page fault handler panics. -/
def pageAccess (pml4e va : Nat) (kernel : Kernel σ) : Outcome Unit :=
  let pml4eEntry := kernel.word (entryAddr pml4e (pml4eIndex va))
  if pml4eEntry &&& pagePresent = 0 then .error (.panic .pageFault)
  else
    let pdptEntry := kernel.word (entryAddr (entryTable pml4eEntry) (pdptIndex va))
    if pdptEntry &&& pagePresent = 0 then .error (.panic .pageFault)
    else
      let pdtEntry := kernel.word (entryAddr (entryTable pdptEntry) (pdtIndex va))
      if pdtEntry &&& pagePresent = 0 then .error (.panic .pageFault)
      else
        let ptEntry := kernel.word (entryAddr (entryTable pdtEntry) (ptIndex va))
        if ptEntry &&& pagePresent = 0 then .error (.panic .pageFault) else .ok ()

/-- The inner loop of `vmm_probe_space` reads a byte of every page of a region. -/
def vmmProbePages (pml4e stop : Nat) (kernel : Kernel σ) : Nat → Nat → Outcome Unit
  | 0, _ => .error .diverges
  | steps + 1, addr =>
      if addr < stop then do
        pageAccess pml4e addr kernel
        vmmProbePages pml4e stop kernel steps (u64 (addr + pageSizeInBytes))
      else .ok ()

def vmmProbeRegions (pml4e : Nat) (kernel : Kernel σ) : Nat → Nat → Outcome Unit
  | 0, _ => .error .diverges
  | steps + 1, region =>
      if region = NULL then .ok ()
      else if (kernel.region region).flags = pageKernelRo ∨ (kernel.region region).flags = pageUserRo then
        vmmProbeRegions pml4e kernel steps (kernel.region region).next
      else do
        vmmProbePages pml4e (kernel.region region).vaStop kernel walkLimit (kernel.region region).vaStart
        vmmProbeRegions pml4e kernel steps (kernel.region region).next

/-- The probe reads through the tables of the space, which are loaded at that point. -/
def vmmProbeSpace (space : Nat) (kernel : Kernel σ) : Outcome Unit :=
  vmmProbeRegions (kernel.space space).pageDirectory kernel walkLimit (kernel.space space).region

/-- The debug build checks the new tables against the boot tables, and it probes them when they are loaded. -/
def vmmInit (debug : Bool) (boot : BootTables) (layout : KernelLayout) (pmap : List PmmRegion) (kernel : Kernel σ) :
    Outcome (Nat × Kernel σ) := do
  let (kspace, kernel) ← vmmCreateSpace calls higherHalfStart higherHalfStop kernel
  let (kuefi, kernel) ← vmmAddRange calls.toObjectCalls kspace layout.rwStart layout.rwStop pageKernelRw kernel
  let (kcode, kernel) ← vmmAddRange calls.toObjectCalls kspace layout.roStart layout.roStop pageKernelRo kernel
  let (kdata, kernel) ← vmmAddRange calls.toObjectCalls kspace layout.roStop layout.pmmVmaStop pageKernelRw kernel
  let kernel ← vmmInitPhysContiguousRegion calls kspace kuefi (v2p (kernel.region kuefi).vaStart) kernel
  let kernel ← vmmInitPhysContiguousRegion calls kspace kcode (v2p (kernel.region kcode).vaStart) kernel
  let kernel ← vmmInitPhysContiguousRegion calls kspace kdata (v2p (kernel.region kdata).vaStart) kernel
  let kernel ← vmmInitDirectMapping calls pmap kspace kernel
  if debug then mmuTestKernelMapping boot layout.vmaStart layout.pmmVmaStop kspace kernel
  if debug then vmmProbeSpace kspace kernel
  .ok (kspace, kernel)

end

end B0s
