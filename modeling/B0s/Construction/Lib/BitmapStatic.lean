import B0s.Construction.Lib.Bitmap
import B0s.Library.PagedMemory

/-
This file models the bitmaps of `BITMAP_STATIC`, whose words lie where a `struct bitmap` has its pointer.
-/

namespace B0s
open ByteMemory

/-- The words lie behind the two fields of the object. -/
def bitmapStaticWords (bm : Nat) : Nat := bm + 16

/-- The size of an object that `BITMAP_STATIC` declares. -/
def sizeofBitmapStatic (len : Nat) : Nat := 16 + bitmapSizeInBlock len * sizeofU64

/-- The fields that the operations read through a `struct bitmap` pointer. -/
def Bitmap.load (bm : Nat) (mem : Memory) : Bitmap :=
  { len := (loadWord mem bm).toNat
    sizeInBlock := (loadWord mem (bm + 8)).toNat
    bitmap := (loadWord mem (bm + 16)).toNat }

/-- The pointer is read and never written. -/
def bitmapInitStatic (bm len : Nat) (mem : Memory) : Memory :=
  let mem := storeWord mem bm (BitVec.ofNat 64 len)
  let mem := storeWord mem (bm + 8) (BitVec.ofNat 64 (bitmapSizeInBlock len))
  let fields := Bitmap.load bm mem
  memset fields.bitmap 0xff (u64 (fields.sizeInBlock * sizeofU64)) mem

/-- This is `bitmap_init_static` under some page tables. The words behind the pointer must be mapped, or the fill
panics in the page fault handler. -/
def bitmapInitStaticMapped (tables : Translation) (bm len : Nat) (mem : Memory) : Outcome Memory :=
  let mem := storeWord mem bm (BitVec.ofNat 64 len)
  let mem := storeWord mem (bm + 8) (BitVec.ofNat 64 (bitmapSizeInBlock len))
  let fields := Bitmap.load bm mem
  let size := u64 (fields.sizeInBlock * sizeofU64)
  if Translates tables fields.bitmap size then .ok (memset fields.bitmap 0xff size mem) else .error (.panic .pageFault)

/-- The length is read again behind the loop, which may have written it. -/
def bitmapFindAndSetIn (bm unassigned : Nat) (mem : Memory) : Nat × Memory :=
  let fields := Bitmap.load bm mem
  let (index, mem) := bitmapFindAndSetFrom fields unassigned fields.sizeInBlock 0 mem
  (min index (Bitmap.load bm mem).len, mem)

def bitmapUnsetIn (undefined : Nat → Nat) (bm i : Nat) (mem : Memory) : Memory :=
  bitmapUnset undefined (Bitmap.load bm mem) i mem

/-- An access reads or writes some bytes from an address on. -/
structure Access where
  addr : Nat
  size : Nat
  deriving DecidableEq, Repr

/-- The fields of a `struct bitmap` are read or written. -/
def Bitmap.fieldAccesses (bm : Nat) : List Access := [⟨bm, 8⟩, ⟨bm + 8, 8⟩, ⟨bm + 16, 8⟩]

/-- The loop of `bitmap_find_and_set` reads the words up to the first one with a set bit. -/
def Bitmap.scanned (bm : Bitmap) : Nat → Nat → Memory → List Access
  | 0, _, _ => []
  | steps + 1, i, mem =>
      if loadWord mem (bm.word i) = 0 then ⟨bm.word i, sizeofU64⟩ :: bm.scanned steps (i + 1) mem
      else [⟨bm.word i, sizeofU64⟩]

/-- The calls on a bitmap in memory. -/
inductive BitmapCall where
  | findAndSet (unassigned : Nat)
  | unset (i : Nat)
  deriving DecidableEq

def BitmapCall.run (undefined : Nat → Nat) (bm : Nat) : BitmapCall → Memory → Memory
  | .findAndSet unassigned, mem => (bitmapFindAndSetIn bm unassigned mem).2
  | .unset i, mem => bitmapUnsetIn undefined bm i mem

def bitmapInitStaticAccesses (bm len : Nat) (mem : Memory) : List Access :=
  Bitmap.fieldAccesses bm ++ [⟨(Bitmap.load bm mem).bitmap, bitmapSizeInBlock len * sizeofU64⟩]

def BitmapCall.accesses (bm : Nat) : BitmapCall → Memory → List Access
  | .findAndSet _, mem =>
      let fields := Bitmap.load bm mem
      Bitmap.fieldAccesses bm ++ fields.scanned fields.sizeInBlock 0 mem
  | .unset i, mem =>
      let fields := Bitmap.load bm mem
      Bitmap.fieldAccesses bm ++ if i ≥ fields.len then [] else [⟨fields.word (i / 64), sizeofU64⟩]

end B0s
