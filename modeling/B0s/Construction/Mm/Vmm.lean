import B0s.Construction.Mm.Mmu

/-
This file models the address spaces of `vmm.c`, which pair a region list with page tables.
-/

namespace B0s

section
variable {σ : Type} (calls : KernelCalls σ)

/-- The bounds that the caller names are unused by the source. -/
def vmmCreateSpace (_vaStart _vaStop : Nat) (kernel : Kernel σ) : Outcome (Nat × Kernel σ) := do
  let (space, env) ← calls.blockAlloc .vmmSpace kernel.env
  let kernel := { kernel with env := env }.setHead space NULL
  let kernel ← mmuInit calls.toFrameCalls space kernel
  .ok (space, kernel)

/-- The loop of `vmm_delete_space` frees the first region record until none is left. -/
def vmmDeleteSpaceFrom (space : Nat) : Nat → Kernel σ → Outcome (Kernel σ)
  | 0, _ => .error .diverges
  | steps + 1, kernel =>
      let tmp := (kernel.space space).region
      if tmp = NULL then do
        let env ← calls.blockFree .vmmSpace space kernel.env
        .ok { kernel with env := env }
      else do
        let kernel := kernel.setHead space (kernel.region tmp).next
        let env ← calls.blockFree .vmmRegion tmp kernel.env
        vmmDeleteSpaceFrom space steps { kernel with env := env }

def vmmDeleteSpace (space : Nat) (kernel : Kernel σ) : Outcome (Kernel σ) :=
  vmmDeleteSpaceFrom calls space walkLimit kernel

/-- The loops of `vmm_alloc_between` and `vmm_alloc_at` back every page up to the end of the region. -/
def vmmMapPages (space region flags : Nat) (overwrite : Nat → Panic) :
    Nat → Nat → Kernel σ → Outcome (Kernel σ)
  | 0, _, _ => .error .diverges
  | steps + 1, va, kernel =>
      if va < (kernel.region region).vaStop then do
        let (pa, env) ← calls.pmmXalloc kernel.env
        let (old, kernel) ←
          mmuMapPage calls.toFrameCalls space va pa flags { kernel with env := env }
        if old ≠ 0 then .error (.panic (overwrite va))
        else vmmMapPages space region flags overwrite steps (u64 (va + pageSizeInBytes)) kernel
      else .ok kernel

/-- The search loop of `vmm_alloc_between` looks for a gap that holds the pages and their padding. -/
def vmmAllocBetweenSearch (kernel : Kernel σ) (lowerVa sizeInBytes padding : Nat) :
    Nat → Nat → Nat → Nat → Outcome (Nat × Nat × Nat)
  | 0, _, _, _ => .error .diverges
  | steps + 1, va, prev, cur =>
      if cur = NULL then .ok (va, prev, cur)
      else if (kernel.region cur).vaStop < lowerVa then
        vmmAllocBetweenSearch kernel lowerVa sizeInBytes padding steps (kernel.region cur).vaStop cur
          (kernel.region cur).next
      else if subU64 (kernel.region cur).vaStart (max va lowerVa) ≥ u64 (sizeInBytes + padding) then
        .ok (max va lowerVa, prev, cur)
      else
        vmmAllocBetweenSearch kernel lowerVa sizeInBytes padding steps (kernel.region cur).vaStop cur
          (kernel.region cur).next

def vmmAllocBetween (space lowerVa upperVa sizeInPages flags : Nat) (kernel : Kernel σ) :
    Outcome (Nat × Kernel σ) := do
  let sizeInBytes := u64 (sizeInPages * pageSizeInBytes)
  let padding := 2 * pageSizeInBytes
  let (va, prev, cur) ← vmmAllocBetweenSearch kernel lowerVa sizeInBytes padding walkLimit lowerVa NULL
    (kernel.space space).region
  if u64 (va + sizeInBytes + padding) ≥ upperVa then .ok (NULL, kernel)
  else do
    let va := u64 (va + pageSizeInBytes)
    let (region, kernel) ← vmmInsertRange calls.toObjectCalls space prev cur va
      (u64 (va + sizeInBytes)) flags kernel
    if region = NULL then .ok (NULL, kernel)
    else do
      let kernel ← vmmMapPages calls space region flags .vmmAllocBetweenOverwrite walkLimit va kernel
      .ok (va, kernel)

def vmmAllocAt (space va sizeInPages flags : Nat) (kernel : Kernel σ) : Outcome (Nat × Kernel σ) :=
  if va = NULL then .ok (NULL, kernel)
  else do
    let (region, kernel) ← vmmAddRange calls.toObjectCalls space va
      (u64 (va + u64 (sizeInPages * pageSizeInBytes))) flags kernel
    if region = NULL then .ok (NULL, kernel)
    else do
      let kernel ← vmmMapPages calls space region flags .vmmAllocAtOverwrite walkLimit va kernel
      .ok (va, kernel)

def vmmMap (space va pa flags : Nat) (kernel : Kernel σ) : Outcome (Nat × Kernel σ) := do
  let (region, kernel) ← vmmAddRange calls.toObjectCalls space va
    (u64 (va + pageSizeInBytes)) flags kernel
  if region = NULL then .ok (NULL, kernel)
  else do
    let (old, kernel) ← mmuMapPage calls.toFrameCalls space va pa flags kernel
    if old ≠ 0 then .error (.panic (.vmmMapOverwrite va)) else .ok (va, kernel)

/-- The loop of `vmm_free` unmaps every page of the window. -/
def vmmUnmapPages (space start vaStop : Nat) : Nat → Nat → Kernel σ → Outcome (Kernel σ)
  | 0, _, _ => .error .diverges
  | steps + 1, va, kernel =>
      if va < vaStop then do
        let (old, kernel) ← mmuUnmapPage calls.toFrameCalls space va kernel
        if old = 0 then .error (.panic (.vmmFreeNotMapped start))
        else vmmUnmapPages space start vaStop steps (u64 (va + pageSizeInBytes)) kernel
      else .ok kernel

def vmmFree (space va sizeInPages : Nat) (kernel : Kernel σ) : Outcome (Kernel σ) := do
  let vaStop := u64 (va + u64 (sizeInPages * pageSizeInBytes))
  let kernel ← vmmRemoveRange calls.toObjectCalls space va vaStop kernel
  vmmUnmapPages calls space va vaStop walkLimit va kernel

/-- The loop of `mmu_copy_pages` maps the frame of every page of the region. -/
def mmuCopyPages (dst src region : Nat) : Nat → Nat → Kernel σ → Outcome (Kernel σ)
  | 0, _, _ => .error .diverges
  | steps + 1, va, kernel =>
      if va < (kernel.region region).vaStop then do
        let pa := mmuTranslate4k (kernel.space src).pageDirectory va kernel
        let (old, kernel) ←
          mmuMapPage calls.toFrameCalls dst va pa (kernel.region region).flags kernel
        if old ≠ 0 then .error (.panic .mmuCopyPagesOverwrite)
        else mmuCopyPages dst src region steps (u64 (va + pageSizeInBytes)) kernel
      else .ok kernel

/-- The loop of `vmm_copy_regions` copies each region of the source space. -/
def vmmCopyRegionList (dst src : Nat) : Nat → Nat → Kernel σ → Outcome (Kernel σ)
  | 0, _, _ => .error .diverges
  | steps + 1, region, kernel =>
      if region = NULL then .ok kernel
      else do
        let (copy, kernel) ← vmmAddRange calls.toObjectCalls dst (kernel.region region).vaStart
          (kernel.region region).vaStop (kernel.region region).flags kernel
        if copy = NULL then .error (.panic .vmmCopyRegionsCorrupted)
        else do
          let kernel ←
            mmuCopyPages calls dst src region walkLimit (kernel.region region).vaStart kernel
          vmmCopyRegionList dst src steps (kernel.region region).next kernel

def vmmCopyRegions (dst src : Nat) (kernel : Kernel σ) : Outcome (Kernel σ) :=
  vmmCopyRegionList calls dst src walkLimit (kernel.space src).region kernel

end

end B0s
