import B0s.Library.ByteMemory
import B0s.Construction.Machine

/-
This file models `bitmap.c`. A set bit marks an unused index, and the highest bit of a word comes first.
-/

namespace B0s
open ByteMemory

/-- A bitmap records its length, its number of words, and the address of its words. -/
structure Bitmap where
  len : Nat
  sizeInBlock : Nat
  bitmap : Nat
  deriving DecidableEq, Repr

/-- This is the `BITMAP_SIZE_IN_BLOCK` macro. -/
def bitmapSizeInBlock (len : Nat) : Nat := len / 64 + 1

def sizeofU64 : Nat := 8

def memset (ptr : Nat) (val : BitVec 8) (size : Nat) (mem : Memory) : Memory := fill mem ptr val size

/-- The address of `bm->bitmap[i]`. -/
def Bitmap.word (bm : Bitmap) (i : Nat) : Nat := u64 (bm.bitmap + i * sizeofU64)

/-- The returned address lies one byte behind the start for each word. -/
def bitmapInit (len ptr : Nat) (mem : Memory) : Bitmap × Nat × Memory :=
  let bm : Bitmap := { len := len, sizeInBlock := bitmapSizeInBlock len, bitmap := ptr }
  (bm, u64 (ptr + bm.sizeInBlock), memset bm.bitmap 0xff (u64 (bm.sizeInBlock * sizeofU64)) mem)

/-- The loop of `bitmap_find_and_set` leaves the local `index` as it was when every word is zero. -/
def bitmapFindAndSetFrom (bm : Bitmap) (unassigned : Nat) : Nat → Nat → Memory → Nat × Memory
  | 0, _, mem => (unassigned, mem)
  | steps + 1, i, mem =>
      let word := loadWord mem (bm.word i)
      if word = 0 then bitmapFindAndSetFrom bm unassigned steps (i + 1) mem
      else
        let bitSetIndex := word.clz.toNat
        (u64 (i * 64 + bitSetIndex),
          storeWord mem (bm.word i) (word &&& ~~~((1 : BitVec 64) <<< (63 - bitSetIndex))))

def bitmapFindAndSet (bm : Bitmap) (unassigned : Nat) (mem : Memory) : Nat × Memory :=
  let (index, mem) := bitmapFindAndSetFrom bm unassigned bm.sizeInBlock 0 mem
  (min index bm.len, mem)

def bitmapUnset (undefined : Nat → Nat) (bm : Bitmap) (i : Nat) (mem : Memory) : Memory :=
  if i ≥ bm.len then mem
  else
    let j := i / 64
    let bitSetIndex := i % 64
    storeWord mem (bm.word j)
      (loadWord mem (bm.word j) ||| BitVec.ofNat 64 (intShift undefined (63 - bitSetIndex)))

end B0s
