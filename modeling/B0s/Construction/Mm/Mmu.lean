import B0s.Construction.Mm.Region

/-
This file models the page tables of `mmu.c` in the words of the direct mapping.
-/

namespace B0s

def higherHalfStart : Nat := 0xffff800000000000

def pagePresent : Nat := 1

def pageRo : Nat := 0

def pageRw : Nat := 2

def pageKernelRing : Nat := 0

def pageUserRing : Nat := 4

def pageGlobal : Nat := 256

def pageUserRw : Nat := pagePresent ||| pageRw ||| pageUserRing

def pageUserRo : Nat := pagePresent ||| pageRo ||| pageUserRing

def pageKernelRw : Nat := pagePresent ||| pageRw ||| pageKernelRing ||| pageGlobal

def pageKernelRo : Nat := pagePresent ||| pageRo ||| pageKernelRing ||| pageGlobal

/-- This is the `DM_P2V` macro. -/
def dmP2V (pa : Nat) : Nat := u64 (pa + higherHalfStart)

def pml4eIndex (va : Nat) : Nat := (va >>> 39) &&& 0x1ff

def pdptIndex (va : Nat) : Nat := (va >>> 30) &&& 0x1ff

def pdtIndex (va : Nat) : Nat := (va >>> 21) &&& 0x1ff

def ptIndex (va : Nat) : Nat := (va >>> 12) &&& 0x1ff

/-- The entries of a table are words of eight bytes. -/
def entryAddr (table index : Nat) : Nat := table + 8 * index

/-- An entry leads to the table of its frame in the direct mapping. -/
def entryTable (entry : Nat) : Nat := pageAddr (dmP2V entry)

namespace Kernel

variable {σ : Type}

/-- Write one word of the direct mapping. -/
def setWord (kernel : Kernel σ) (addr value : Nat) : Kernel σ :=
  { kernel with word := Function.update kernel.word addr value }

/-- Clear the words of one page, as `memset` does. -/
def clearPage (kernel : Kernel σ) (addr : Nat) : Kernel σ :=
  { kernel with
    word := fun other =>
      if addr ≤ other ∧ other < addr + pageSizeInBytes then 0 else kernel.word other }

end Kernel

section
variable {σ : Type}

def mmuTranslate4k (pml4e va : Nat) (kernel : Kernel σ) : Nat :=
  let pml4eEntry := kernel.word (entryAddr pml4e (pml4eIndex va))
  if pml4eEntry &&& pagePresent = 0 then 2 ^ 64 - 1
  else
    let pdptEntry := kernel.word (entryAddr (entryTable pml4eEntry) (pdptIndex va))
    if pdptEntry &&& pagePresent = 0 then 2 ^ 64 - 1
    else
      let pdtEntry := kernel.word (entryAddr (entryTable pdptEntry) (pdtIndex va))
      if pdtEntry &&& pagePresent = 0 then 2 ^ 64 - 1
      else
        pageAddr (kernel.word (entryAddr (entryTable pdtEntry) (ptIndex va))) |||
          (va &&& (pageSizeInBytes - 1))

variable (frames : FrameCalls σ)

/-- Each level of `mmu_map_page` allocates and clears a missing table before it enters it. -/
def mmuEnsureTable (entry permWoG : Nat) (kernel : Kernel σ) : Outcome (Nat × Kernel σ) := do
  if kernel.word entry &&& pagePresent = 0 then
    let (frame, env) ← frames.pmmXalloc kernel.env
    let kernel := { kernel with env := env }.clearPage (dmP2V frame)
    let kernel := kernel.setWord entry (frame ||| pagePresent ||| permWoG)
    .ok (entryTable (kernel.word entry), kernel)
  else .ok (entryTable (kernel.word entry), kernel)

def mmuMapPage (space va pa perm : Nat) (kernel : Kernel σ) : Outcome (Nat × Kernel σ) := do
  let permWoG := perm &&& (2 ^ 64 - 1 - pageGlobal)
  let pml4e := (kernel.space space).pageDirectory
  let (pdpt, kernel) ← mmuEnsureTable frames (entryAddr pml4e (pml4eIndex va)) permWoG kernel
  let (pdt, kernel) ← mmuEnsureTable frames (entryAddr pdpt (pdptIndex va)) permWoG kernel
  let (pt, kernel) ← mmuEnsureTable frames (entryAddr pdt (pdtIndex va)) permWoG kernel
  let ret := kernel.word (entryAddr pt (ptIndex va))
  .ok (ret, kernel.setWord (entryAddr pt (ptIndex va)) (pa ||| perm))

/-- The flush of the translation cache is left out because tables are read from memory here. -/
def mmuUnmapPage (space va : Nat) (kernel : Kernel σ) : Outcome (Nat × Kernel σ) := do
  let (pa, kernel) ← mmuMapPage frames space va 0 0 kernel
  let env ← frames.pmmFree (pageAddr pa) kernel.env
  .ok (pa, { kernel with env := env })

def mmuInit (space : Nat) (kernel : Kernel σ) : Outcome (Kernel σ) := do
  let (frame, env) ← frames.pmmXalloc kernel.env
  let kernel := { kernel with
    env := env
    space := Function.update kernel.space space
      { kernel.space space with pageDirectory := dmP2V frame } }
  .ok (kernel.clearPage (dmP2V frame))

end

end B0s
