import B0s.Construction.Lib.BitmapStatic
import B0s.Construction.Lib.String
import B0s.Construction.Lib.Word
import B0s.Construction.Mm.Kheap
import B0s.Construction.Mm.Vmm
import B0s.Construction.Multitasking.Pid
import B0s.Construction.Multitasking.Switch

/-
This file models `process_create` with the records, stacks, and bitmaps as bytes of the kernel memory.
-/

namespace B0s
open ByteMemory

/-- The node at `list` links to itself, as `LIST_HEAD_INIT` assigns it. -/
def listHeadInitIn (list : Nat) (mem : Memory) : Memory := storeU64 (list + 8) list (storeU64 list list mem)

/-- This is `list_add` on nodes in memory. -/
def listAddIn (el head : Nat) (mem : Memory) : Outcome Memory :=
  let next := loadU64 mem head
  if next = NULL then .error .nullAccess
  else
    let mem := storeU64 (next + 8) el mem
    let mem := storeU64 el next mem
    let mem := storeU64 (el + 8) head mem
    .ok (storeU64 head el mem)

def processNameMax : Nat := 64

def processMaxFd : Nat := 256

def lowerHalfStop : Nat := 0x00007fffffffffff

/-- The second enumerator of `enum process_state`. -/
def processReady : Nat := 1

def sizeofProcess : Nat := 5008

/-- The kernel image holds the pointer `kspace`, the bitmap of the pids, and the code. -/
structure ProcessStatics where
  kspace : Nat
  pidBitmap : Bitmap
  text : KernelText

/-- The name holds the bytes that its pointer leads to. -/
structure ProcessCall where
  name : Str
  uentry : BitVec 64
  parent : Nat

namespace ProcessRecord

/-- A pointer in memory is followed to a field, or to bytes that are cleared. -/
def storeThrough (pointer offset : Nat) (value : BitVec 64) (mem : Memory) : Memory :=
  storeWord mem (loadU64 mem pointer + offset) value

def clearThrough (pointer size : Nat) (mem : Memory) : Memory := memset (loadU64 mem pointer) 0 size mem

/-- The arch part of the record leads to its kernel stack, with a trap frame and a context on it. -/
def processArchInit (text : KernelText) (proc : Nat) (uentry ustack : BitVec 64) (mem : Memory) : Memory :=
  let sp := u64 (loadU64 mem (kstack proc) + processKernelStackSize)
  let sp := subU64 sp sizeofTrapFrame
  let mem := storeU64 (tf proc) sp mem
  let mem := clearThrough (tf proc) sizeofTrapFrame mem
  let mem := storeThrough (tf proc) 160 ustack mem
  let mem := storeThrough (tf proc) 168 (BitVec.ofNat 64 (gdtUserDataIndex * 8 ||| dplUser)) mem
  let mem := storeThrough (tf proc) 144 (BitVec.ofNat 64 (gdtUserCodeIndex * 8 ||| dplUser)) mem
  let mem := storeThrough (tf proc) 152 0x202 mem
  let mem := storeThrough (tf proc) 136 uentry mem
  let sp := subU64 sp 8
  let mem := storeWord mem sp text.trapRet
  let sp := subU64 sp sizeofContext
  let mem := storeU64 (context proc) sp mem
  let mem := clearThrough (context proc) sizeofContext mem
  storeThrough (context proc) 48 text.processFirstRun mem

/-- The name is cut at its maximum and gets its null character. -/
def setName (proc : Nat) (call : ProcessCall) (mem : Memory) : Memory :=
  let nameLen := strlen call.name processNameMax
  let mem := memcpy (name proc) call.name nameLen mem
  storeU8 (name proc + nameLen) 0 mem

/-- The new process becomes a sibling of the child of its parent, or this child. -/
def setFamily (proc parent : Nat) (mem : Memory) : Outcome Memory :=
  if parent ≠ NULL ∧ loadU64 mem (child parent) ≠ NULL then
    listAddIn (siblingsList proc) (siblingsList (loadU64 mem (child parent))) mem
  else if parent = NULL then .error .nullAccess
  else .ok (storeU64 (child parent) proc mem)

/-- The part of `process_create` behind the pid, up to the family. The descriptors are initialised through a pointer
that nothing has written, under the page tables of the loaded space. -/
def setFields (tables : Translation) (proc pid parent : Nat) (mem : Memory) : Outcome Memory := do
  let mem := storeU16 (ProcessRecord.pid proc) pid mem
  let mem ← bitmapInitStaticMapped tables (fdbitmap proc) processMaxFd mem
  let mem := listHeadInitIn (schedList proc) mem
  let mem := listHeadInitIn (siblingsList proc) mem
  let mem := storeU32 (state proc) processReady mem
  .ok (storeU64 (ProcessRecord.parent proc) parent mem)

/-- The part of `process_create` behind its allocations. -/
def fillRecord (tables : Translation) (unassigned : Nat) (statics : ProcessStatics) (call : ProcessCall) (proc : Nat)
    (mem : Memory) : Outcome Memory := do
  let mem := processArchInit statics.text proc call.uentry 0xffff mem
  let mem := setName proc call mem
  let (pid, pids) ← processGetUnusedPid unassigned ⟨statics.pidBitmap, mem, []⟩
  let mem ← setFields tables proc pid call.parent pids.mem
  let mem ← setFamily proc call.parent mem
  let mem := storeU64 (child proc) NULL mem
  .ok (memset (signalsHandlers proc) 0 (8 * processNsig) mem)

section
variable {σ : Type} (calls : KernelCalls σ) (source : PageSource (Kernel σ)) (tables : Translation)
variable (unassigned : Nat) (statics : ProcessStatics)

/-- A field of a record is stored. -/
def setField (field value : Nat) (kheap : Kheap (Kernel σ)) : Kheap (Kernel σ) :=
  { kheap with mem := storeU64 field value kheap.mem }

def failKstack (proc : Nat) (kheap : Kheap (Kernel σ)) : Outcome (Nat × Kheap (Kernel σ)) := do
  let kheap ← kfree source proc kheap
  .ok (NULL, kheap)

def failVmm (proc : Nat) (kheap : Kheap (Kernel σ)) : Outcome (Nat × Kheap (Kernel σ)) := do
  let kheap ← kfree source (loadU64 kheap.mem (kstack proc)) kheap
  failKstack source proc kheap

def failUstack (proc : Nat) (kheap : Kheap (Kernel σ)) : Outcome (Nat × Kheap (Kernel σ)) := do
  let env ← vmmDeleteSpace calls (loadU64 kheap.mem (space proc)) kheap.env
  failVmm source proc { kheap with env := env }

def processCreate (call : ProcessCall) (kheap : Kheap (Kernel σ)) : Outcome (Nat × Kheap (Kernel σ)) := do
  let (proc, kheap) ← kmalloc source sizeofProcess kheap
  if proc = NULL then .ok (NULL, kheap)
  else do
    let (stack, kheap) ← kmalloc source processKernelStackSize kheap
    let kheap := setField (kstack proc) stack kheap
    if loadU64 kheap.mem (kstack proc) = NULL then failKstack source proc kheap
    else do
      let kheap := setField (space proc) statics.kspace kheap
      let (created, env) ← vmmCreateSpace calls 0x1000 lowerHalfStop kheap.env
      let kheap := setField (space proc) created { kheap with env := env }
      if loadU64 kheap.mem (space proc) = NULL then failVmm source proc kheap
      else do
        let env ← vmmCopyRegions calls (loadU64 kheap.mem (space proc)) statics.kspace kheap.env
        let (ustack, env) ← vmmAllocAt calls (loadU64 kheap.mem (space proc)) 0xf000 8 pageUserRw env
        let kheap := { kheap with env := env }
        if ustack = NULL then failUstack calls source proc kheap
        else do
          let mem ← fillRecord tables unassigned statics call proc kheap.mem
          .ok (proc, { kheap with mem := mem })

end

end ProcessRecord

end B0s
