import B0s.Construction.Drivers.Acpi
import B0s.Proof.Lib.StringRun
import B0s.Proof.Machine

/-
This file proves when `acpi_find_table` stays inside the table that `acpi_init` accepted.
-/

namespace B0s
open ByteMemory

/-- A table carries a signature. -/
def Signed (mem : Memory) (signature : Str) (table : Nat) : Prop :=
  ∀ index < 4, bytesAt mem table index = signature index

/-- The tables that are listed in a part of the entries. -/
def acpiListed (mem : Memory) (rsdt i left : Nat) : List Nat :=
  (List.range' i left).map fun i => dmP2V (loadU32 mem (rsdt + acpiSdt i))

/-- A result is the first of some tables with a signature, or `NULL` if none has it. -/
def FirstSigned (mem : Memory) (signature : Str) (tables : List Nat) (found : Nat) : Prop :=
  (∃ front rest, tables = front ++ found :: rest ∧ Signed mem signature found ∧
      ∀ table ∈ front, ¬Signed mem signature table) ∨
    found = NULL ∧ ∀ table ∈ tables, ¬Signed mem signature table

section
variable {mem : Memory} {signature : Str} {table found : Nat} {tables : List Nat}

theorem FirstSigned.here (signed : Signed mem signature table) : FirstSigned mem signature (table :: tables) table :=
  Or.inl ⟨[], tables, rfl, signed, fun _ member => absurd member List.not_mem_nil⟩

theorem FirstSigned.later (unsigned : ¬Signed mem signature table) (first : FirstSigned mem signature tables found) :
    FirstSigned mem signature (table :: tables) found := by
  rcases first with ⟨front, rest, shape, signed, before⟩ | ⟨null, none⟩
  · refine Or.inl ⟨table :: front, rest, by rw [shape, List.cons_append], signed, ?_⟩
    exact List.forall_mem_cons.mpr ⟨unsigned, before⟩
  · exact Or.inr ⟨null, List.forall_mem_cons.mpr ⟨unsigned, none⟩⟩

/-- The loop finds the first table, and it reads the entries up to there. -/
theorem acpiFindTableFrom_spec (mem : Memory) (rsdt : Nat) (signature : Str) (left i : Nat) :
    FirstSigned mem signature (acpiListed mem rsdt i left) (acpiFindTableFrom mem rsdt signature left i).1 ∧
      ∀ offset ∈ (acpiFindTableFrom mem rsdt signature left i).2, ∃ entry < i + left, offset = acpiSdt entry := by
  induction left generalizing i with
  | zero => exact ⟨Or.inr ⟨rfl, fun _ member => absurd member List.not_mem_nil⟩, fun _ member => absurd member List.not_mem_nil⟩
  | succ left ih =>
      obtain ⟨first, inside⟩ := ih (i + 1)
      rw [acpiFindTableFrom, acpiListed, List.range'_succ, List.map_cons]
      dsimp only
      split_ifs with same
      · refine ⟨FirstSigned.here (memcmp_eq_zero.mp same), ?_⟩
        intro offset member
        exact ⟨i, by omega, List.mem_singleton.mp member⟩
      · refine ⟨first.later fun signed => same (memcmp_eq_zero.mpr signed), ?_⟩
        intro offset member
        rcases List.mem_cons.mp member with rfl | member
        · exact ⟨i, by omega, rfl⟩
        · obtain ⟨entry, before, place⟩ := inside offset member
          exact ⟨entry, by omega, place⟩

/-- The loop reads its first entry. -/
theorem acpiFindTableFrom_reads (mem : Memory) (rsdt : Nat) (signature : Str) {left : Nat} (some : 0 < left) (i : Nat) :
    acpiSdt i ∈ (acpiFindTableFrom mem rsdt signature left i).2 := by
  obtain ⟨left, rfl⟩ := Nat.exists_eq_succ_of_ne_zero (Nat.ne_of_gt some)
  rw [acpiFindTableFrom]
  dsimp only
  split_ifs <;> exact List.mem_cons_self

end

theorem acpiEntries_eq {length : Nat} (small : length < 2 ^ 32) (header : sizeofAcpiHeader ≤ length) :
    acpiEntries length = (length - sizeofAcpiHeader) / 4 := by
  rw [acpiEntries, subU64_eq (by omega) header]
  omega

/-- A length below the header wraps around to very many entries. -/
theorem acpiEntries_pos {length : Nat} (short : length < sizeofAcpiHeader) : 0 < acpiEntries length := by
  unfold acpiEntries subU64 sizeofAcpiHeader at *
  omega

/-- The lookup reads entries that lie wholly inside the table, and it results in the first listed table with the
signature. -/
def LooksUp (mem : Memory) (rsdt : Nat) (signature : Str) : Prop :=
  (∀ offset ∈ (acpiFindTable mem rsdt signature).2, offset + 4 ≤ loadU32 mem (acpiHeaderLength rsdt)) ∧
    FirstSigned mem signature (acpiListed mem rsdt 0 ((loadU32 mem (acpiHeaderLength rsdt) - sizeofAcpiHeader) / 4))
      (acpiFindTable mem rsdt signature).1

/-- For an accepted table, the lookup is right exactly when the table is at least as long as its header. -/
theorem acpiFindTable_looksUp_iff {mem : Memory} {rsdp rsdt : Nat} (_ : acpiInit mem rsdp = .ok rsdt)
    (signature : Str) : LooksUp mem rsdt signature ↔ sizeofAcpiHeader ≤ loadU32 mem (acpiHeaderLength rsdt) := by
  have small := loadU32_lt mem (acpiHeaderLength rsdt)
  unfold LooksUp acpiFindTable
  generalize loadU32 mem (acpiHeaderLength rsdt) = length at *
  constructor
  · rintro ⟨inside, -⟩
    by_contra short
    have first := inside _ (acpiFindTableFrom_reads mem rsdt signature (acpiEntries_pos (Nat.lt_of_not_le short)) 0)
    unfold acpiSdt at first
    omega
  · intro header
    obtain ⟨first, reads⟩ := acpiFindTableFrom_spec mem rsdt signature (acpiEntries length) 0
    rw [acpiEntries_eq small header] at first reads ⊢
    refine ⟨?_, first⟩
    intro offset member
    obtain ⟨entry, before, rfl⟩ := reads offset member
    unfold acpiSdt
    omega

/-- A memory with a valid `rsdp` at 0, whose `rsdt` at the start of the direct mapping has zeros but for its length. -/
def sampleTables (length : BitVec 8) : Memory := fun addr =>
  if addr < 8 then acpiRsdpSignature addr
  else if addr = 8 then 0xe1
  else if addr = higherHalfStart + 4 then length
  else if addr = higherHalfStart + 9 then -length
  else 0

/-- An accepted `rsdt` that lists a table of zeros at 0x1000 and then a table at 0x2000 with the signature `APIC`. -/
def twoTables : Memory := fun addr =>
  if addr = higherHalfStart + 9 then -(44 + 0x10 + 0x20)
  else if addr = higherHalfStart + 37 then 0x10
  else if addr = higherHalfStart + 41 then 0x20
  else if higherHalfStart + 0x2000 ≤ addr ∧ addr < higherHalfStart + 0x2004 then
    acpiMadtSignature (addr - (higherHalfStart + 0x2000))
  else sampleTables 44 addr

/-- The lookup passes the first entry and finds the table of the second one. -/
theorem acpiFindTable_looksUp_iff_second :
    acpiInit twoTables 0 = .ok higherHalfStart ∧ LooksUp twoTables higherHalfStart acpiMadtSignature ∧
      acpiFindTable twoTables higherHalfStart acpiMadtSignature = (dmP2V 0x2000, [36, 40]) := by
  have accepted : acpiInit twoTables 0 = .ok higherHalfStart := by decide +kernel
  refine ⟨accepted, (acpiFindTable_looksUp_iff accepted acpiMadtSignature).mpr ?_, ?_⟩
  · decide +kernel
  · decide +kernel

/-- A table of length 0 is accepted, and its first entry is read. -/
theorem acpiFindTable_empty_table :
    acpiInit (sampleTables 0) 0 = .ok higherHalfStart ∧ ¬LooksUp (sampleTables 0) higherHalfStart acpiMadtSignature := by
  refine ⟨by decide +kernel, ?_⟩
  rintro ⟨inside, -⟩
  have length : loadU32 (sampleTables 0) (acpiHeaderLength higherHalfStart) = 0 := by decide +kernel
  rw [acpiFindTable, length] at inside
  have first := inside _ (acpiFindTableFrom_reads _ _ _ (acpiEntries_pos (by decide)) 0)
  omega

end B0s
