import B0s.Library.ByteMemory
import B0s.Construction.Machine

/-
This file models the kernel heap of `kheap.c`, whose headers lie in the memory that they manage.
-/

namespace B0s
open ByteMemory

def loadU64 (mem : Memory) (addr : Nat) : Nat := (loadWord mem addr).toNat

def storeU64 (addr value : Nat) (mem : Memory) : Memory := storeWord mem addr (BitVec.ofNat 64 value)

def loadU8 (mem : Memory) (addr : Nat) : Nat := (mem (u64 addr)).toNat

def storeU8 (addr value : Nat) (mem : Memory) : Memory :=
  Function.update mem (u64 addr) (BitVec.ofNat 8 value)

def kheapMinAllocInPages : Nat := 5

def kheapAlignInBytes : Nat := 16

def sizeofContainer : Nat := 40

def sizeofBlock : Nat := 40

/-- The address of `container->size_in_bytes`. -/
def containerSizeInBytes (container : Nat) : Nat := container

/-- The address of `container->used_blocks`. -/
def containerUsedBlocks (container : Nat) : Nat := container + 8

/-- The address of `container->prev`. -/
def containerPrev (container : Nat) : Nat := container + 16

/-- The address of `container->next`. -/
def containerNext (container : Nat) : Nat := container + 24

/-- The address of `container->block`. -/
def containerBlock (container : Nat) : Nat := container + 32

/-- The address of `b->size_in_bytes`. -/
def blockSizeInBytes (b : Nat) : Nat := b

/-- The address of the byte `b->used`. -/
def blockUsed (b : Nat) : Nat := b + 8

/-- The address of `b->prev`. -/
def blockPrev (b : Nat) : Nat := b + 16

/-- The address of `b->next`. -/
def blockNext (b : Nat) : Nat := b + 24

/-- The address of `b->container`. -/
def blockContainer (b : Nat) : Nat := b + 32

/-- This is the `BLOCK_DATA` macro. -/
def blockData (b : Nat) : Nat := u64 (b + sizeofBlock)

/-- This is the `DATA_BLOCK` macro. -/
def dataBlock (ptr : Nat) : Nat := subU64 ptr sizeofBlock

/-- This is the `CONTAINER_DATA` macro. -/
def containerData (container : Nat) : Nat := u64 (container + sizeofContainer)

/-- The loop of `try_alloc_block` looks for an unused block that is large enough. -/
def tryAllocBlockSearch (mem : Memory) (sizeInBytes : Nat) : Nat → Nat → Outcome Nat
  | 0, _ => .error .diverges
  | steps + 1, b =>
      if b = NULL then .ok NULL
      else if loadU8 mem (blockUsed b) = 0 ∧ loadU64 mem (blockSizeInBytes b) ≥ sizeInBytes then .ok b
      else tryAllocBlockSearch mem sizeInBytes steps (loadU64 mem (blockNext b))

/-- The part of `try_alloc_block` behind `found_block` marks the block and splits off its rest. -/
def foundBlock (b sizeInBytes : Nat) (mem : Memory) : Memory :=
  let mem := storeU8 (blockUsed b) 1 mem
  let container := loadU64 mem (blockContainer b)
  let mem := storeU64 (containerUsedBlocks container)
    (u64 (loadU64 mem (containerUsedBlocks container) + 1)) mem
  let blockEnd := u64 (blockData b + loadU64 mem (blockSizeInBytes b))
  let blockEndAfterAlloc := u64 (blockData b + sizeInBytes)
  let nextBlockStructEnd := roundUp (u64 (blockEndAfterAlloc + sizeofBlock)) kheapAlignInBytes
  let newB := subU64 nextBlockStructEnd sizeofBlock
  if nextBlockStructEnd ≥ blockEnd then mem
  else
    let mem := storeU64 (blockSizeInBytes newB) (subU64 blockEnd nextBlockStructEnd) mem
    let mem := storeU64 (blockPrev newB) b mem
    let mem := storeU64 (blockNext newB) (loadU64 mem (blockNext b)) mem
    let mem := storeU8 (blockUsed newB) 0 mem
    let mem := storeU64 (blockContainer newB) (loadU64 mem (blockContainer b)) mem
    let mem := storeU64 (blockNext b) newB mem
    let next := loadU64 mem (blockNext newB)
    let mem := if next ≠ NULL then storeU64 (blockPrev next) newB mem else mem
    storeU64 (blockSizeInBytes b) sizeInBytes mem

def tryAllocBlock (container sizeInBytes : Nat) (mem : Memory) : Outcome (Nat × Memory) := do
  let b ← tryAllocBlockSearch mem sizeInBytes walkLimit (loadU64 mem (containerBlock container))
  if b = NULL then .ok (NULL, mem) else .ok (b, foundBlock b sizeInBytes mem)

/-- The heap takes whole pages from `vmm_alloc_between` on the heap window of `kspace` and returns
them to `vmm_free`. -/
structure PageSource (σ : Type) where
  vmmAllocBetween : Nat → σ → Outcome (Nat × Memory × σ)
  vmmFree : Nat → Nat → σ → Outcome σ

/-- Fresh pages are disjoint from those in use, and their bytes are arbitrary. -/
structure HeapPages (σ : Type) extends PageSource σ where
  ranges : σ → List (Nat × Nat)
  alloc_null : ∀ pages env bytes env', vmmAllocBetween pages env = .ok (NULL, bytes, env') →
    ranges env' = ranges env
  alloc_fresh : ∀ pages env va bytes env', vmmAllocBetween pages env = .ok (va, bytes, env') →
    va ≠ NULL → va % pageSizeInBytes = 0 ∧ va + pages * pageSizeInBytes < 2 ^ 64 ∧
      ranges env' = (va, pages) :: ranges env ∧
      ∀ range ∈ ranges env, va + pages * pageSizeInBytes ≤ range.1 ∨
        range.1 + range.2 * pageSizeInBytes ≤ va
  free_released : ∀ va pages env, (va, pages) ∈ ranges env →
    ∃ env', vmmFree va pages env = .ok env' ∧ ranges env' = (ranges env).erase (va, pages)

instance {σ : Type} : Coe (HeapPages σ) (PageSource σ) := ⟨HeapPages.toPageSource⟩

/-- The heap owns its static pointer and the memory, and the page source its own state. -/
structure Kheap (σ : Type) where
  heap : Nat
  mem : Memory
  env : σ

section
variable {σ : Type} (source : PageSource σ)

def createContainer (sizeInPages : Nat) (kheap : Kheap σ) : Outcome (Nat × Kheap σ) := do
  let sizeInPages := max kheapMinAllocInPages sizeInPages
  let (c, bytes, env) ← source.vmmAllocBetween sizeInPages kheap.env
  if c = NULL then .ok (NULL, { kheap with env := env })
  else
    let mem : Memory := fun addr =>
      if c ≤ addr ∧ addr < c + sizeInPages * pageSizeInBytes then bytes addr else kheap.mem addr
    let size := subU64 (u64 (sizeInPages * pageSizeInBytes)) sizeofContainer
    let mem := storeU64 (containerSizeInBytes c) size mem
    let mem := storeU64 (containerUsedBlocks c) 0 mem
    let mem := storeU64 (containerPrev c) NULL mem
    let mem := storeU64 (containerNext c) kheap.heap mem
    let mem := if kheap.heap ≠ NULL then storeU64 (containerPrev kheap.heap) c mem else mem
    let block := containerData c
    let mem := storeU64 (containerBlock c) block mem
    let mem := storeU64 (blockSizeInBytes block)
      (subU64 (loadU64 mem (containerSizeInBytes c)) sizeofBlock) mem
    let mem := storeU8 (blockUsed block) 0 mem
    let mem := storeU64 (blockPrev block) NULL mem
    let mem := storeU64 (blockNext block) NULL mem
    let mem := storeU64 (blockContainer block) c mem
    .ok (c, { heap := c, mem := mem, env := env })

def removeContainer (container : Nat) (kheap : Kheap σ) : Outcome (Kheap σ) := do
  let prev := loadU64 kheap.mem (containerPrev container)
  let next := loadU64 kheap.mem (containerNext container)
  let heap := if prev = NULL then next else kheap.heap
  let mem := if prev = NULL then kheap.mem else storeU64 (containerNext prev) next kheap.mem
  let next := loadU64 mem (containerNext container)
  let mem := if next ≠ NULL then
      storeU64 (containerPrev next) (loadU64 mem (containerPrev container)) mem
    else mem
  let size := loadU64 mem (containerSizeInBytes container)
  let env ← source.vmmFree container (u64 (size + sizeofContainer) / pageSizeInBytes) kheap.env
  .ok { heap := heap, mem := mem, env := env }

def kheapInit (sizeInPages : Nat) (kheap : Kheap σ) : Outcome (Kheap σ) := do
  let (c, kheap) ← createContainer source sizeInPages kheap
  if c = NULL then .error (.panic .kheapInitFailed) else .ok kheap

/-- The loop of `kmalloc` tries the containers in the order of the heap list. -/
def kmallocSearch (sizeInBytes : Nat) : Nat → Nat → Memory → Outcome (Nat × Memory)
  | 0, _, _ => .error .diverges
  | steps + 1, c, mem =>
      if c = NULL then .ok (NULL, mem)
      else do
        let (b, mem) ← tryAllocBlock c sizeInBytes mem
        if b ≠ NULL then .ok (b, mem)
        else kmallocSearch sizeInBytes steps (loadU64 mem (containerNext c)) mem

def kmalloc (sizeInBytes : Nat) (kheap : Kheap σ) : Outcome (Nat × Kheap σ) := do
  let (b, mem) ← kmallocSearch sizeInBytes walkLimit kheap.heap kheap.mem
  if b ≠ NULL then .ok (blockData b, { kheap with mem := mem })
  else do
    let (c, kheap) ← createContainer source
      (u64 (sizeInBytes + sizeofBlock) / pageSizeInBytes + 2) kheap
    if c = NULL then .ok (NULL, kheap)
    else do
      let (b, mem) ← tryAllocBlock c sizeInBytes kheap.mem
      if b = NULL then .error (.panic .kmallocImpossible)
      else .ok (blockData b, { kheap with mem := mem })

/-- The merge with the previous block leaves the `prev` link of the next block as it is. -/
def mergePrev (b totalSize : Nat) (mem : Memory) : Nat × Memory :=
  let prev := loadU64 mem (blockPrev b)
  if prev ≠ NULL ∧ loadU8 mem (blockUsed prev) = 0 then
    let mem := storeU64 (blockNext prev) (loadU64 mem (blockNext b)) mem
    let mem := storeU64 (blockSizeInBytes prev)
      (u64 (loadU64 mem (blockSizeInBytes prev) + totalSize)) mem
    let mem := storeU64 (blockNext prev) (loadU64 mem (blockNext b)) mem
    (prev, mem)
  else (b, mem)

/-- The merge with the next block links the block behind it back. -/
def mergeNext (b : Nat) (mem : Memory) : Memory :=
  let next := loadU64 mem (blockNext b)
  if next ≠ NULL ∧ loadU8 mem (blockUsed next) = 0 then
    let mem := storeU64 (blockSizeInBytes b) (u64 (loadU64 mem (blockSizeInBytes b) +
      u64 (loadU64 mem (blockSizeInBytes next) + sizeofBlock))) mem
    let mem := storeU64 (blockNext b) (loadU64 mem (blockNext next)) mem
    let behind := loadU64 mem (blockNext b)
    if behind ≠ NULL then storeU64 (blockPrev behind) b mem else mem
  else mem

def kfree (ptr : Nat) (kheap : Kheap σ) : Outcome (Kheap σ) :=
  let b := dataBlock ptr
  let totalSize := u64 (loadU64 kheap.mem (blockSizeInBytes b) + sizeofBlock)
  let mem := storeU8 (blockUsed b) 0 kheap.mem
  let container := loadU64 mem (blockContainer b)
  let mem := storeU64 (containerUsedBlocks container)
    (subU64 (loadU64 mem (containerUsedBlocks container)) 1) mem
  if loadU64 mem (containerUsedBlocks container) = 0 then
    removeContainer source container { kheap with mem := mem }
  else
    let (b, mem) := mergePrev b totalSize mem
    .ok { kheap with mem := mergeNext b mem }

end

end B0s
