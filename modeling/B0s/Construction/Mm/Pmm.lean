import B0s.Construction.Lib.Bitmap

/-
This file models the physical page allocator of `pmm.c` in the build without `DEBUG`.
-/

namespace B0s
open ByteMemory

def kernelVma : Nat := 0xffffffff80000000

def biosEnd : Nat := 0x100000

def uefiEnd : Nat := 0x200000

/-- This is the `V2P` macro. -/
def v2p (va : Nat) : Nat := subU64 va kernelVma

/-- This is the `P2V` macro. -/
def p2v (pa : Nat) : Nat := u64 (pa + kernelVma)

/-- The linker ends the kernel image on a page boundary, in the first gibibyte that the boot tables
map behind its link address. -/
structure KernelImage where
  vmaStop : Nat
  aligned : 4096 ∣ vmaStop
  above : kernelVma + uefiEnd ≤ vmaStop
  below : vmaStop < kernelVma + 0x40000000

inductive PmmRegionType where
  | available
  | reserved
  deriving DecidableEq, Repr

/-- A region of `pmap` is a range of pages, and the bitmap is meaningful in an available one. -/
structure PmmRegion where
  addr : Nat
  sizeInPages : Nat
  type : PmmRegionType
  bitmap : Bitmap
  deriving DecidableEq, Repr

/-- An entry of the multiboot memory map has words for its bounds and a type. -/
structure MultibootMmapEntry where
  addr : Nat
  len : Nat
  type : Nat
  addr_lt : addr < 2 ^ 64
  len_lt : len < 2 ^ 64
  deriving DecidableEq

def multibootMemoryAvailable : Nat := 1

def multibootMemoryReserved : Nat := 2

def pmapSizeLimit : Nat := 10

/-- The first address behind a region. -/
def PmmRegion.stop (region : PmmRegion) : Nat :=
  u64 (region.addr + u64 (region.sizeInPages * pageSizeInBytes))

/-- The region that `pmap_insert` computes, and its `addr_stop`. -/
def pmapRegion (image : KernelImage) (entry : MultibootMmapEntry) : PmmRegion × Nat :=
  let type := if entry.type = multibootMemoryAvailable then PmmRegionType.available else .reserved
  let addr := if type = .available then pageAddr (max (v2p image.vmaStop) entry.addr)
    else pageAddr entry.addr
  let len := subU64 entry.len (subU64 addr entry.addr)
  let addrStop := roundUp (subU64 (u64 (addr + len)) 1) pageSizeInBytes
  ({ addr := addr
     sizeInPages := subU64 addrStop addr / pageSizeInBytes
     type := type
     bitmap := { len := 0, sizeInBlock := 0, bitmap := NULL } }, addrStop)

/-- The new region lies behind or before an earlier one. -/
def pmapApart (region : PmmRegion) (addrStop : Nat) (other : PmmRegion) : Prop :=
  other.stop ≤ region.addr ∨ addrStop ≤ other.addr

instance (region : PmmRegion) (addrStop : Nat) (other : PmmRegion) :
    Decidable (pmapApart region addrStop other) :=
  inferInstanceAs (Decidable (_ ∨ _))

def pmapInsert (image : KernelImage) (entry : MultibootMmapEntry) (pmap : List PmmRegion) :
    Outcome (List PmmRegion) :=
  let (region, addrStop) := pmapRegion image entry
  if ∀ other ∈ pmap, pmapApart region addrStop other then .ok (pmap ++ [region])
  else .error (.panic .pmapInsertOverlap)

/-- The map keeps the reserved entries and the available ones behind the first mebibyte. -/
def isAvailableOrReserved (entry : MultibootMmapEntry) : Bool :=
  (entry.type = multibootMemoryAvailable ∧ entry.addr ≥ biosEnd) ∨
    entry.type = multibootMemoryReserved

def pmapInsertAll (image : KernelImage) :
    List MultibootMmapEntry → List PmmRegion → Outcome (List PmmRegion)
  | [], pmap => .ok pmap
  | entry :: entries, pmap =>
      if isAvailableOrReserved entry then
        if pmap.length ≥ pmapSizeLimit then .error (.panic .pmapInitNotBigEnough)
        else do
          let pmap ← pmapInsert image entry pmap
          pmapInsertAll image entries pmap
      else pmapInsertAll image entries pmap

/-- The inner loop of `pmap_sort` keeps the index and the value of the smallest region. -/
def pmapMin (min : Nat × PmmRegion) (j : Nat) : List PmmRegion → Nat × PmmRegion
  | [] => min
  | region :: rest => pmapMin (if min.2.addr > region.addr then (j, region) else min) (j + 1) rest

/-- Each round of `pmap_sort` exchanges the first region of the range with its smallest one. -/
def pmapSortRange : Nat → List PmmRegion → List PmmRegion
  | range + 1, first :: rest =>
      let (min, smallest) := pmapMin (0, first) 1 rest
      smallest :: pmapSortRange range ((first :: rest).set min first).tail
  | _, pmap => pmap

def pmapSort (pmap : List PmmRegion) : List PmmRegion := pmapSortRange pmap.length pmap

def pmapInit (image : KernelImage) (mmap : List MultibootMmapEntry) : Outcome (List PmmRegion) := do
  let pmap ← pmapInsertAll image mmap []
  .ok (pmapSort pmap)

/-- The allocator owns its table of regions, the end of its bitmaps, and the memory. -/
structure Pmm where
  pmap : List PmmRegion
  pmmVmaStop : Nat
  mem : Memory

/-- The unassigned local holds some value for each region of each call. -/
def pmmAllocFrom (unassigned : Nat → Nat) : Nat → List PmmRegion → Memory → Nat × Memory
  | _, [], mem => (NULL, mem)
  | i, region :: rest, mem =>
      if region.type ≠ .available then pmmAllocFrom unassigned (i + 1) rest mem
      else
        let (j, mem) := bitmapFindAndSet region.bitmap (unassigned i) mem
        if j = region.bitmap.len then pmmAllocFrom unassigned (i + 1) rest mem
        else (u64 (region.addr + u64 (j * pageSizeInBytes)), mem)

def pmmAlloc (unassigned : Nat → Nat) (pmm : Pmm) : Nat × Pmm :=
  let (page, mem) := pmmAllocFrom unassigned 0 pmm.pmap pmm.mem
  (page, { pmm with mem := mem })

def pmmXalloc (unassigned : Nat → Nat) (pmm : Pmm) : Outcome (Nat × Pmm) :=
  let (page, pmm) := pmmAlloc unassigned pmm
  if page = NULL then .error (.panic .pmmXallocNoMemory) else .ok (page, pmm)

/-- The region that `pmm_free` finds for a page. -/
def PmmRegion.Covers (region : PmmRegion) (page : Nat) : Prop :=
  region.type = .available ∧ region.addr ≤ page ∧ page < region.stop

instance (region : PmmRegion) (page : Nat) : Decidable (region.Covers page) :=
  inferInstanceAs (Decidable (_ ∧ _ ∧ _))

def pmmFree (undefined : Nat → Nat) (page : Nat) (pmm : Pmm) : Outcome Pmm :=
  if page ≤ v2p pmm.pmmVmaStop then .error (.panic (.pmmFreeNotFreeable page))
  else
    match pmm.pmap.find? (fun region => region.Covers page) with
    | some region =>
        let j := subU64 page region.addr / pageSizeInBytes
        .ok { pmm with mem := bitmapUnset undefined region.bitmap j pmm.mem }
    | none => .error (.panic (.pmmFreeBadPage page))

/-- A page of physical memory is tagged with the type of its region. -/
structure PmmPhysAddr where
  type : PmmRegionType
  pa : Nat
  deriving DecidableEq, Repr

/-- The loop of `pmm_next_phys_page` returns address 1 behind the last region, since no page has it. -/
def pmmNextPhysPageFrom (next : Nat) : List PmmRegion → PmmPhysAddr
  | [] => { type := .available, pa := 1 }
  | region :: rest =>
      if next ≥ region.stop then pmmNextPhysPageFrom next rest
      else { type := region.type, pa := max next region.addr }

def pmmNextPhysPage (pmap : List PmmRegion) (addr : Nat) : PmmPhysAddr :=
  pmmNextPhysPageFrom (u64 (addr + pageSizeInBytes)) pmap

/-- The loop of `vmm_init_direct_mapping` steps from each page to the next one. -/
def pmmPhysPages (pmap : List PmmRegion) : Nat → Nat → Outcome (List PmmPhysAddr)
  | 0, _ => .error .diverges
  | steps + 1, addr =>
      let next := pmmNextPhysPage pmap addr
      if next.pa = 1 then .ok []
      else do
        let rest ← pmmPhysPages pmap steps next.pa
        .ok (next :: rest)

/-- The first loop of `pmm_init` gives each available region a bitmap and counts the pages. -/
def pmmInitBitmaps : List PmmRegion → Nat → Nat → Memory → List PmmRegion × Nat × Nat × Memory
  | [], bitmapAlloc, availablePages, mem => ([], bitmapAlloc, availablePages, mem)
  | region :: rest, bitmapAlloc, availablePages, mem =>
      if region.type ≠ .available then
        let (rest, result) := pmmInitBitmaps rest bitmapAlloc availablePages mem
        (region :: rest, result)
      else
        let (bitmap, bitmapAlloc, mem) := bitmapInit region.sizeInPages bitmapAlloc mem
        let (rest, result) :=
          pmmInitBitmaps rest bitmapAlloc (u64 (availablePages + region.sizeInPages)) mem
        ({ region with bitmap := bitmap } :: rest, result)

/-- The second loop of `pmm_init` takes one page for each page of the bitmaps. -/
def pmmInitReserve (unassigned : Nat → Nat → Nat) (stop : Nat) :
    Nat → Nat → Nat → Pmm → Outcome (List Nat × Nat × Pmm)
  | 0, _, _, _ => .error .diverges
  | steps + 1, pa, availablePages, pmm =>
      if pa < stop then do
        let (page, pmm) := pmmAlloc (unassigned pa) pmm
        let (pages, result) ← pmmInitReserve unassigned stop steps (u64 (pa + pageSizeInBytes))
          (subU64 availablePages 1) pmm
        .ok (page :: pages, result)
      else .ok ([], availablePages, pmm)

/-- The initialisation returns the count of available pages, with the pages that it took as ghosts. -/
def pmmInit (image : KernelImage) (unassigned : Nat → Nat → Nat) (mmap : List MultibootMmapEntry)
    (mem : Memory) : Outcome (List Nat × Nat × Pmm) := do
  let pmap ← pmapInit image mmap
  let (pmap, bitmapAlloc, availablePages, mem) := pmmInitBitmaps pmap image.vmaStop 0 mem
  let pmmVmaStop := roundUp (subU64 bitmapAlloc 1) pageSizeInBytes
  pmmInitReserve unassigned (v2p pmmVmaStop) walkLimit (v2p image.vmaStop) availablePages
    { pmap := pmap, pmmVmaStop := pmmVmaStop, mem := mem }

end B0s
