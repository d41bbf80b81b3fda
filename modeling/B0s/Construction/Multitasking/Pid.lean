import B0s.Construction.Lib.Bitmap

/-
This file models the process identifiers of `process.c`, with the other parts of a process left out.
-/

namespace B0s
open ByteMemory

def u16Max : Nat := 0xffff

/-- The conversion to `u16` keeps the low 16 bits. -/
def u16 (value : Nat) : Nat := value % 2 ^ 16

/-- The words of the bitmap lie where `kmalloc` returned `ptr`, and nothing is written without memory. -/
def bitmapInitKheap (len ptr : Nat) (mem : Memory) : Bitmap × Nat × Memory :=
  let bm : Bitmap := { len := len, sizeInBlock := bitmapSizeInBlock len, bitmap := ptr }
  if ptr = NULL then (bm, NULL, mem)
  else (bm, u64 (ptr + bm.sizeInBlock), memset bm.bitmap 0xff (u64 (bm.sizeInBlock * sizeofU64)) mem)

/-- The kernel has the static bitmap, the memory with its words, and the pids of its processes. -/
structure Pids where
  pidBitmap : Bitmap
  mem : Memory
  pids : List Nat

/-- The local `index` of `bitmap_find_and_set` starts `unassigned`. -/
def processGetUnusedPid (unassigned : Nat) (state : Pids) : Outcome (Nat × Pids) :=
  if state.pidBitmap.bitmap = NULL then .error .nullAccess
  else
    let (index, mem) := bitmapFindAndSet state.pidBitmap unassigned state.mem
    let pid := u16 index
    if pid = state.pidBitmap.len then .error (.panic .processExhaustedPids)
    else .ok (pid, { state with mem := mem })

/-- The bootstrap process has pid 0, and `kmalloc` returns `ptr` for the words of the bitmap. -/
def processInit (ptr : Nat) (mem : Memory) : Pids :=
  let (bm, _, mem) := bitmapInitKheap u16Max ptr mem
  { pidBitmap := bm, mem := mem, pids := [0] }

/-- A process that is created gets an unused pid. -/
def processCreate (unassigned : Nat) (state : Pids) : Outcome Pids := do
  let (pid, state) ← processGetUnusedPid unassigned state
  .ok { state with pids := pid :: state.pids }

end B0s
