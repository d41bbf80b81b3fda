import B0s.Construction.Lib.Bitmap
import B0s.Construction.Mm.Kheap
import B0s.Construction.Mm.Mmu

/-
This file models the object allocator of `vmm.c`, whose blocks are pages with a bitmap at their end.
-/

namespace B0s
open ByteMemory

namespace Vmm

/-- This is `sizeof(struct block)`. -/
def sizeofBlock : Nat := 72

/-- The address of `block->objects`. -/
def blockObjects (block : Nat) : Nat := block

/-- The address of `block->nb_used`. -/
def blockNbUsed (block : Nat) : Nat := block + 8

/-- The address of `block->object_size_in_bytes`. -/
def blockObjectSizeInBytes (block : Nat) : Nat := block + 16

/-- The address of `block->max_objects`. -/
def blockMaxObjects (block : Nat) : Nat := block + 24

/-- The address of `block->bm`, which starts with its length. -/
def blockBm (block : Nat) : Nat := block + 32

/-- The address of `block->prev`. -/
def blockPrev (block : Nat) : Nat := block + 56

/-- The address of `block->next`. -/
def blockNext (block : Nat) : Nat := block + 64

/-- This is the `DM_V2P` macro. -/
def dmV2P (va : Nat) : Nat := subU64 va higherHalfStart

/-- The records of the types have five words and two words. -/
def getStructSize : StructType → Nat
  | .vmmRegion => 40
  | .vmmSpace => 16

def loadBitmap (mem : Memory) (bm : Nat) : Bitmap := ⟨loadU64 mem bm, loadU64 mem (bm + 8), loadU64 mem (bm + 16)⟩

def storeBitmap (addr : Nat) (bm : Bitmap) (mem : Memory) : Memory :=
  storeU64 (addr + 16) bm.bitmap (storeU64 (addr + 8) bm.sizeInBlock (storeU64 addr bm.len mem))

/-- The blocks take frames of the direct mapping from `pmm_xalloc` and return them to `pmm_free`.
A frame is handed out only while nobody holds it, and its bytes are arbitrary. -/
structure BlockPages (σ : Type) where
  held : σ → Nat → Prop
  pmmXalloc : σ → Outcome (Nat × Memory × σ)
  pmmFree : Nat → σ → Outcome σ
  xalloc_aligned : ∀ env frame bytes env', pmmXalloc env = .ok (frame, bytes, env') →
    frame % pageSizeInBytes = 0 ∧ frame < 2 ^ 47
  xalloc_fresh : ∀ env frame bytes env', pmmXalloc env = .ok (frame, bytes, env') → ¬held env frame
  xalloc_held : ∀ env frame bytes env', pmmXalloc env = .ok (frame, bytes, env') →
    ∀ other, held env' other ↔ held env other ∨ other = frame
  free_held : ∀ env page env', pmmFree page env = .ok env' →
    ∀ other, held env' other ↔ held env other ∧ other ≠ page

/-- The allocator owns its static heads and the memory, and the page source its own state. -/
structure Blocks (σ : Type) where
  blockHeads : StructType → Nat
  mem : Memory
  env : σ

section
variable {σ : Type} (pages : BlockPages σ)

/-- The field `nb_used` keeps the bytes of the page. -/
def createBlock (type : StructType) (prev : Nat) (blocks : Blocks σ) : Outcome (Nat × Blocks σ) := do
  let (frame, bytes, env) ← pages.pmmXalloc blocks.env
  let newBlock := dmP2V frame
  let mem : Memory := fun addr =>
    if newBlock ≤ addr ∧ addr < newBlock + pageSizeInBytes then bytes addr else blocks.mem addr
  let mem := storeU64 (blockObjectSizeInBytes newBlock) (getStructSize type) mem
  let mem := storeU64 (blockMaxObjects newBlock) ((pageSizeInBytes - sizeofBlock) /
    u64 (loadU64 mem (blockObjectSizeInBytes newBlock) + 1)) mem
  let mem := storeU64 (blockObjects newBlock) (u64 (newBlock + sizeofBlock)) mem
  let mem := storeU64 (blockPrev newBlock) prev mem
  let mem := storeU64 (blockNext newBlock) NULL mem
  let len := loadU64 mem (blockMaxObjects newBlock)
  let ptr := u64 (loadU64 mem (blockObjects newBlock) + u64 (loadU64 mem (blockMaxObjects newBlock) *
    loadU64 mem (blockObjectSizeInBytes newBlock)))
  let mem := storeBitmap (blockBm newBlock) (bitmapInit len ptr mem).1 mem
  let mem := (bitmapInit len ptr mem).2.2
  .ok (newBlock, { blocks with mem := mem, env := env })

/-- The loop of `block_alloc` takes the first index that a bitmap offers, and appends a block when no
bitmap does. The unassigned local of `bitmap_find_and_set` holds some value for each block. -/
def blockAllocWalk (unassigned : Nat → Nat) (type : StructType) :
    Nat → Nat → Blocks σ → Outcome (Nat × Blocks σ)
  | 0, _, _ => .error .diverges
  | steps + 1, current, blocks =>
      if current = NULL then .ok (NULL, blocks)
      else
        let (index, mem) := bitmapFindAndSet (loadBitmap blocks.mem (blockBm current)) (unassigned current) blocks.mem
        if index ≠ loadU64 mem (blockBm current) then
          let mem := storeU64 (blockNbUsed current) (u64 (loadU64 mem (blockNbUsed current) + 1)) mem
          .ok (u64 (loadU64 mem (blockObjects current) +
            u64 (index * loadU64 mem (blockObjectSizeInBytes current))), { blocks with mem := mem })
        else if loadU64 mem (blockNext current) = NULL then do
          let (new, blocks) ← createBlock pages type current { blocks with mem := mem }
          let blocks := { blocks with mem := storeU64 (blockNext current) new blocks.mem }
          blockAllocWalk unassigned type steps (loadU64 blocks.mem (blockNext current)) blocks
        else blockAllocWalk unassigned type steps (loadU64 mem (blockNext current)) { blocks with mem := mem }

def blockAlloc (unassigned : Nat → Nat) (type : StructType) (blocks : Blocks σ) : Outcome (Nat × Blocks σ) := do
  let blocks ←
    if blocks.blockHeads type = NULL then do
      let (head, blocks) ← createBlock pages type NULL blocks
      .ok { blocks with blockHeads := Function.update blocks.blockHeads type head }
    else .ok blocks
  blockAllocWalk pages unassigned type walkLimit (blocks.blockHeads type) blocks

/-- A block without used objects is unlinked and its page is freed, and the head stays as it is. -/
def blockRemove (current : Nat) (blocks : Blocks σ) : Outcome (Blocks σ) := do
  let mem := blocks.mem
  let prev := loadU64 mem (blockPrev current)
  let mem := if prev ≠ NULL then storeU64 (blockNext prev) (loadU64 mem (blockNext current)) mem else mem
  let next := loadU64 mem (blockNext current)
  let mem := if next ≠ NULL then storeU64 (blockPrev next) (loadU64 mem (blockPrev current)) mem else mem
  let env ← pages.pmmFree (dmV2P current) blocks.env
  .ok { blocks with mem := mem, env := env }

/-- The object of the pointer is marked as unused in the block that encloses it. -/
def blockFreeAt (undefined : Nat → Nat) (ptr current : Nat) (blocks : Blocks σ) : Outcome (Blocks σ) :=
  let mem := blocks.mem
  let mem := bitmapUnset undefined (loadBitmap mem (blockBm current))
    (subU64 ptr (loadU64 mem (blockObjects current)) / loadU64 mem (blockObjectSizeInBytes current)) mem
  let mem := storeU64 (blockNbUsed current) (subU64 (loadU64 mem (blockNbUsed current)) 1) mem
  if loadU64 mem (blockNbUsed current) = 0 then blockRemove pages current { blocks with mem := mem }
  else .ok { blocks with mem := mem }

/-- The loop of `block_free` looks for the block whose objects enclose the pointer. -/
def blockFreeWalk (undefined : Nat → Nat) (ptr : Nat) : Nat → Nat → Blocks σ → Outcome (Blocks σ)
  | 0, _, _ => .error .diverges
  | steps + 1, current, blocks =>
      if current = NULL then .error (.panic .blockFreeUnknownPointer)
      else if ptr < loadU64 blocks.mem (blockObjects current) ∨
          ptr > u64 (loadU64 blocks.mem (blockObjects current) + u64 (loadU64 blocks.mem (blockMaxObjects current) *
            loadU64 blocks.mem (blockObjectSizeInBytes current))) then
        blockFreeWalk undefined ptr steps (loadU64 blocks.mem (blockNext current)) blocks
      else blockFreeAt pages undefined ptr current blocks

def blockFree (undefined : Nat → Nat) (ptr : Nat) (type : StructType) (blocks : Blocks σ) : Outcome (Blocks σ) :=
  blockFreeWalk pages undefined ptr walkLimit (blocks.blockHeads type) blocks

/-- The memory manager takes its records from these blocks, and its frames where the blocks take their pages. -/
def kernelCalls (undefined unassigned : Nat → Nat) : KernelCalls (Blocks σ) where
  blockAlloc type blocks := blockAlloc pages unassigned type blocks
  blockFree type ptr blocks := blockFree pages undefined ptr type blocks
  pmmXalloc blocks := do
    let (frame, _, env) ← pages.pmmXalloc blocks.env
    .ok (frame, { blocks with env := env })
  pmmFree page blocks := do
    let env ← pages.pmmFree page blocks.env
    .ok { blocks with env := env }

end

end Vmm

end B0s
