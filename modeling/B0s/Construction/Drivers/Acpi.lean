import B0s.Construction.Lib.String
import B0s.Construction.Lib.Word
import B0s.Construction.Mm.Mmu

/-
This file models the table lookups of `acpi.c` in the build without `DEBUG`.
-/

namespace B0s
open ByteMemory

def sizeofAcpiRsdp : Nat := 20

def sizeofAcpiHeader : Nat := 36

/-- The address of `h->length`. -/
def acpiHeaderLength (header : Nat) : Nat := header + 4

/-- The entries of the table `madt` lie behind its header and two words. -/
def acpiMadtEntries : Nat := 44

/-- The characters of `RSD PTR `. -/
def acpiRsdpSignature : Str := fun index => [0x52, 0x53, 0x44, 0x20, 0x50, 0x54, 0x52, 0x20].getD index 0

/-- The characters of `APIC`. -/
def acpiMadtSignature : Str := fun index => [0x41, 0x50, 0x49, 0x43].getD index 0

/-- The loop of `checksum` adds the last bytes first. -/
def checksumFrom (bytes : Str) : Nat → BitVec 8 → BitVec 8
  | 0, sum => sum
  | size + 1, sum => checksumFrom bytes size (sum + bytes size)

def checksum (bytes : Str) (size : Nat) : BitVec 8 := checksumFrom bytes size 0

/-- The result is the pointer `rsdt`. -/
def acpiInit (mem : Memory) (rsdp : Nat) : Outcome Nat :=
  if memcmp (bytesAt mem rsdp) acpiRsdpSignature 8 ≠ 0 ∨ checksum (bytesAt mem rsdp) sizeofAcpiRsdp ≠ 0 then
    .error (.panic .acpiInvalidRsdp)
  else
    let rsdt := dmP2V (loadU32 mem (rsdp + 16))
    if checksum (bytesAt mem rsdt) (loadU32 mem (acpiHeaderLength rsdt)) ≠ 0 then .error (.panic .acpiInvalidRsdt)
    else .ok rsdt

/-- The number of entries is a `u64` that is cut to a `u32`. -/
def acpiEntries (length : Nat) : Nat := subU64 length sizeofAcpiHeader / 4 % 2 ^ 32

/-- The offset of an entry in the table `rsdt`. -/
def acpiSdt (i : Nat) : Nat := sizeofAcpiHeader + 4 * i

/-- The loop of `acpi_find_table` lists the offsets of the entries that it reads. -/
def acpiFindTableFrom (mem : Memory) (rsdt : Nat) (signature : Str) : Nat → Nat → Nat × List Nat
  | 0, _ => (NULL, [])
  | left + 1, i =>
      let h := dmP2V (loadU32 mem (rsdt + acpiSdt i))
      if memcmp (bytesAt mem h) signature 4 = 0 then (h, [acpiSdt i])
      else
        let (found, reads) := acpiFindTableFrom mem rsdt signature left (i + 1)
        (found, acpiSdt i :: reads)

def acpiFindTable (mem : Memory) (rsdt : Nat) (signature : Str) : Nat × List Nat :=
  acpiFindTableFrom mem rsdt signature (acpiEntries (loadU32 mem (acpiHeaderLength rsdt))) 0

/-- The loop of `acpi_madt_find` walks to the end of the table. The offsets of the read bytes are listed. The table lies
in the direct mapping, so that its addresses do not wrap around. -/
def acpiMadtFindFrom (table : Str) (type : BitVec 8) (stop : Nat) : Nat → Nat → Outcome (Option Nat × List Nat)
  | 0, _ => .error .diverges
  | steps + 1, entry =>
      if entry < stop then
        if table entry = type then .ok (some entry, [entry])
        else do
          let (found, reads) ← acpiMadtFindFrom table type stop steps (entry + (table (entry + 1)).toNat)
          .ok (found, entry :: (entry + 1) :: reads)
      else .ok (none, [])

/-- The first call looks for the table and tests it. -/
def acpiMadtLoad (mem : Memory) (rsdt madt : Nat) : Outcome (Nat × List Nat) :=
  if madt = NULL then
    let found := (acpiFindTable mem rsdt acpiMadtSignature).1
    if found = NULL then .error .nullAccess
    else
      let length := loadU32 mem (acpiHeaderLength found)
      if checksum (bytesAt mem found) length ≠ 0 then .error (.panic .acpiInvalidMadt)
      else .ok (found, [4, 5, 6, 7] ++ (List.range length).reverse)
  else .ok (madt, [])

/-- The result has the entry, the pointer `madt`, and the offsets in the table that were read. -/
def acpiMadtFind (mem : Memory) (rsdt madt : Nat) (type : BitVec 8) : Outcome (Nat × Nat × List Nat) := do
  let (madt, tested) ← acpiMadtLoad mem rsdt madt
  let stop := loadU32 mem (acpiHeaderLength madt)
  let (found, walked) ← acpiMadtFindFrom (bytesAt mem madt) type stop walkLimit acpiMadtEntries
  match found with
  | none => .ok (NULL, madt, tested ++ ([4, 5, 6, 7] ++ walked))
  | some entry => .ok (u64 (madt + entry), madt, tested ++ ([4, 5, 6, 7] ++ walked))

end B0s
