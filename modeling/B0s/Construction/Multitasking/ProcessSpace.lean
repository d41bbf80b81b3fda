import B0s.Construction.Mm.MmuTest
import B0s.Construction.Multitasking.ProcessRecord

/-
This file models the part of `process_create` that gives a process its space.
-/

namespace B0s

/-- The debug build compares the copy with the kernel space before the user stack is mapped. -/
def processSpace {σ : Type} (calls : KernelCalls σ) (debug : Bool) (kspace : Nat) (kernel : Kernel σ) :
    Outcome (Nat × Nat × Kernel σ) := do
  let (space, kernel) ← vmmCreateSpace calls 0x1000 lowerHalfStop kernel
  if space = NULL then .ok (NULL, NULL, kernel)
  else do
    let kernel ← vmmCopyRegions calls space kspace kernel
    if debug then mmuTestCompareMapping kspace space kernel
    let (ustack, kernel) ← vmmAllocAt calls space 0xf000 8 pageUserRw kernel
    .ok (space, ustack, kernel)

end B0s
