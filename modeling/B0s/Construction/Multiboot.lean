import B0s.Construction.Lib.Word
import B0s.Construction.Mm.Pmm

/-
This file models `read_tags` of `kmain.c`, which reads the tags of the bootloader.
-/

namespace B0s
open ByteMemory

def multibootTagTypeEnd : Nat := 0

def multibootTagTypeMmap : Nat := 6

def multibootTagTypeAcpiOld : Nat := 14

def sizeofMultibootTag : Nat := 8

/-- The local bitmap, and the statics `rsdp` and `mmap`. -/
structure BootTags where
  bitmap : Nat
  rsdp : Nat
  mmap : Nat
  deriving DecidableEq, Repr

section
variable (undefined : Nat → Nat) (mem : Memory) (mbInfos : Nat)

/-- The fields of the tag at an offset. -/
def tagType (tag : Nat) : Nat := loadU32 mem (mbInfos + tag)

def tagSize (tag : Nat) : Nat := loadU32 mem (mbInfos + tag + 4)

/-- The size of a tag is rounded up in a `u32`. -/
def tagStep (tag : Nat) : Nat := (tagSize mem mbInfos tag + 7) % 2 ^ 32 &&& (2 ^ 32 - 8)

/-- The body of the loop marks the type of the tag, and it keeps the tag that it looks for. -/
def readTag (tag : Nat) (tags : BootTags) : BootTags :=
  let type := tagType mem mbInfos tag
  let tags := { tags with bitmap := tags.bitmap ||| intShift undefined type % 2 ^ 32 }
  if type = multibootTagTypeAcpiOld then { tags with rsdp := p2v (mbInfos + tag + sizeofMultibootTag) }
  else if type = multibootTagTypeMmap then { tags with mmap := p2v (mbInfos + tag) }
  else tags

/-- The loop of `read_tags` lists the offsets of the tags that it reads. The end is computed with a pointer to tags, so
that the size counts tags. -/
def readTagsFrom (size : Nat) : Nat → Nat → BootTags → Outcome (BootTags × List Nat)
  | 0, _, _ => .error .diverges
  | steps + 1, tag, tags =>
      if tag < sizeofMultibootTag * size then
        let tags := readTag undefined mem mbInfos tag tags
        if tagType mem mbInfos tag = multibootTagTypeEnd then .ok (tags, [tag])
        else do
          let (tags, reads) ← readTagsFrom size steps (tag + tagStep mem mbInfos tag) tags
          .ok (tags, tag :: reads)
      else .ok (tags, [])

def expectedBitmap : Nat := 2 ^ multibootTagTypeAcpiOld ||| 2 ^ multibootTagTypeMmap

def readTags : Outcome (Nat × BootTags × List Nat) := do
  let (tags, reads) ← readTagsFrom undefined mem mbInfos (loadU32 mem mbInfos) walkLimit 8 ⟨0, NULL, NULL⟩
  .ok (if tags.bitmap &&& expectedBitmap ≠ expectedBitmap then 1 else 0, tags, reads)

end

end B0s
