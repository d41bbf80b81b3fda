import Mathlib.Data.List.Forall2
import Mathlib.Data.List.Perm.Basic
import B0s.Proof.Mm.PmmSound

/-
This file settles when the table of `pmap_init` is a sorted list of disjoint regions inside their entries.
-/

namespace B0s

/-- The region has the type of its entry, ends below the end of the address space, and is no longer than the entry
rounded out to whole pages. -/
structure PmmRegion.Describes (region : PmmRegion) (entry : MultibootMmapEntry) : Prop where
  type : region.type = .available ↔ entry.type = multibootMemoryAvailable
  unwrapped : region.Unwrapped
  short : region.sizeInPages * pageSizeInBytes ≤ entry.pageStop - pageAddr entry.addr

/-- The table holds one region for each kept entry, in strictly ascending order and without an overlap. -/
structure PmapSound (mmap : List MultibootMmapEntry) (pmap : List PmmRegion) : Prop where
  regions : ∃ entries : List MultibootMmapEntry, List.Forall₂ PmmRegion.Describes pmap entries ∧
    entries.Perm (mmap.filter isAvailableOrReserved)
  ascending : pmap.Pairwise fun region other => region.addr < other.addr
  disjoint : pmap.Pairwise fun region other => region.addr + region.sizeInPages * pageSizeInBytes ≤ other.addr

/-- The page in which an entry begins. An available entry begins behind the kernel image at the earliest. -/
def MultibootMmapEntry.firstPage (image : KernelImage) (entry : MultibootMmapEntry) : Nat :=
  if entry.type = multibootMemoryAvailable then pageAddr (max (v2p image.vmaStop) entry.addr)
  else pageAddr entry.addr

/-- Each kept available entry ends, rounded up, at or behind the end of the kernel image, and no two kept entries
begin in the same page. -/
structure PmapAdmits (image : KernelImage) (mmap : List MultibootMmapEntry) : Prop where
  behind : ∀ entry ∈ mmap, entry.type = multibootMemoryAvailable → biosEnd ≤ entry.addr →
    v2p image.vmaStop ≤ entry.pageStop
  distinct : (mmap.filter isAvailableOrReserved).Pairwise fun entry other =>
    entry.firstPage image ≠ other.firstPage image

theorem pmapRegion_firstPage (image : KernelImage) (entry : MultibootMmapEntry) :
    (pmapRegion image entry).1.addr = entry.firstPage image := by
  by_cases available : entry.type = multibootMemoryAvailable
  · simp only [pmapRegion, MultibootMmapEntry.firstPage, if_pos available, if_true]
  · simp only [pmapRegion, MultibootMmapEntry.firstPage, if_neg available, reduceCtorEq, if_false]

section
variable {image : KernelImage} {mmap : List MultibootMmapEntry} {entry : MultibootMmapEntry} {pmap : List PmmRegion}

/-- A short entry ends, rounded up, on a page boundary behind its first page. -/
theorem pageStop_bounds (short : entry.addr + entry.len < 2 ^ 64 - 4096) :
    entry.pageStop % 4096 = 0 ∧ entry.pageStop < 2 ^ 64 ∧ entry.addr ≤ entry.pageStop := by
  have unwrapped : (entry.addr + entry.len + 4095) % 2 ^ 64 = entry.addr + entry.len + 4095 :=
    Nat.mod_eq_of_lt (by omega)
  rw [MultibootMmapEntry.pageStop, unwrapped]
  omega

/-- A reserved region ends at the rounded end of its entry. -/
theorem pmapRegion_reserved (short : entry.addr + entry.len < 2 ^ 64 - 4096)
    (reserved : entry.type ≠ multibootMemoryAvailable) :
    (pmapRegion image entry).1.addr + (pmapRegion image entry).1.sizeInPages * 4096 = entry.pageStop ∧
      (pmapRegion image entry).1.addr = pageAddr entry.addr := by
  obtain ⟨aligned, below, covers⟩ := pageStop_bounds short
  have size := pmapRegion_size image entry
  have addr := pmapRegion_firstPage image entry
  rw [MultibootMmapEntry.firstPage, if_neg reserved] at addr
  have start : pageAddr entry.addr = entry.addr / 4096 * 4096 := pageAddr_eq entry.addr_lt
  refine ⟨?_, addr⟩
  rw [size, addr, start, subU64]
  generalize entry.pageStop = stop at *
  clear size addr start
  omega

/-- A region that ends below the end of the address space comes from an entry that ends behind the kernel image. -/
theorem behind_of_unwrapped (available : entry.type = multibootMemoryAvailable)
    (unwrapped : (pmapRegion image entry).1.Unwrapped) : v2p image.vmaStop ≤ entry.pageStop := by
  by_contra before
  have size := pmapRegion_size image entry
  have addr := pmapRegion_addr image entry available
  have bounded := (pmapRegion_aligned image entry).bounded
  have raised := le_max_left (v2p image.vmaStop) entry.addr
  have kernel := image.v2p_bounds.1
  unfold PmmRegion.Unwrapped at unwrapped
  rw [size, subU64] at unwrapped
  have aligned : entry.pageStop % 4096 = 0 := by
    unfold MultibootMmapEntry.pageStop
    exact Nat.mul_mod_left _ _
  generalize v2p image.vmaStop = kernelStop at *
  generalize max kernelStop entry.addr = first at *
  generalize (pmapRegion image entry).1.addr = start at *
  generalize entry.pageStop = stop at *
  clear size
  omega

/-- The region of an entry describes it exactly when an available entry ends behind the kernel image. -/
theorem pmapRegion_describes_iff (short : entry.addr + entry.len < 2 ^ 64 - 4096) :
    (pmapRegion image entry).1.Describes entry ↔
      (entry.type = multibootMemoryAvailable → v2p image.vmaStop ≤ entry.pageStop) := by
  constructor
  · intro describes available
    exact behind_of_unwrapped available describes.unwrapped
  · intro behind
    have start : pageAddr entry.addr = entry.addr / 4096 * 4096 := pageAddr_eq entry.addr_lt
    by_cases available : entry.type = multibootMemoryAvailable
    · have below : entry.addr + entry.len < 2 ^ 64 := lt_of_lt_of_le short (Nat.sub_le _ _)
      obtain ⟨unwrapped, -, length⟩ := (unwrapped_of_behind below (behind available)).region available
      have addr := pmapRegion_addr image entry available
      have raised := le_max_right (v2p image.vmaStop) entry.addr
      refine ⟨pmapRegion_available_iff image entry, unwrapped, ?_⟩
      rw [start, pageSizeInBytes, ← length, addr]
      generalize max (v2p image.vmaStop) entry.addr = first at *
      generalize (pmapRegion image entry).1.sizeInPages = count at *
      clear addr start length
      omega
    · obtain ⟨length, addr⟩ := @pmapRegion_reserved image entry short available
      refine ⟨pmapRegion_available_iff image entry, ?_, ?_⟩
      · rw [PmmRegion.Unwrapped, length]
        exact (pageStop_bounds short).2.1
      · rw [pageSizeInBytes, ← length, addr, Nat.add_sub_cancel_left]

/-- Two regions that start in ascending order and do not overlap for `pmap_insert` are disjoint. -/
theorem PmmRegion.Apart.before {region other : PmmRegion} (apart : region.Apart other)
    (unwrapped : region.Unwrapped) (unwrapped' : other.Unwrapped) (order : region.addr < other.addr) :
    region.addr + region.sizeInPages * pageSizeInBytes ≤ other.addr := by
  unfold PmmRegion.Apart at apart
  rw [unwrapped.stop, unwrapped'.stop] at apart
  unfold pageSizeInBytes
  omega

/-- A table whose regions describe the entries is in strict order when no two regions start at one address. -/
theorem pmapSound_of_distinct (accepted : pmapInit image mmap = .ok pmap)
    (describes : ∀ entry ∈ mmap.filter isAvailableOrReserved, (pmapRegion image entry).1.Describes entry)
    (distinct : (pmapRegions image mmap).Pairwise fun region other => region.addr ≠ other.addr) :
    PmapSound mmap pmap := by
  obtain ⟨perm, -, sorted, apart⟩ := pmapInit_spec accepted
  have unwrapped : ∀ region ∈ pmap, region.Unwrapped := by
    intro region member
    obtain ⟨entry, kept, rfl⟩ := List.mem_map.mp (perm.mem_iff.mp member)
    exact (describes entry kept).unwrapped
  have differ : pmap.Pairwise fun region other => region.addr ≠ other.addr :=
    (perm.pairwise_iff fun pair => Ne.symm pair).mpr distinct
  have ascending : pmap.Pairwise fun region other => region.addr < other.addr :=
    sorted.imp₂ (fun _ _ => lt_of_le_of_ne) differ
  refine ⟨?_, ascending, ?_⟩
  · have each : List.Forall₂ PmmRegion.Describes (pmapRegions image mmap) (mmap.filter isAvailableOrReserved) := by
      rw [pmapRegions, List.forall₂_map_left_iff]
      exact List.forall₂_same.mpr describes
    exact List.perm_comp_forall₂ perm each
  · apply (ascending.and apart).imp_of_mem
    intro region other member member' pair
    exact pair.2.before (unwrapped region member) (unwrapped other member') pair.1

end

/-- The table of an accepted map has a region for each kept entry, in strict order and disjoint, exactly when each
kept available entry ends behind the kernel image and no two kept entries begin in the same page. -/
theorem pmapInit_sound_iff (image : KernelImage) (mmap : List MultibootMmapEntry) (pmap : List PmmRegion)
    (short : ∀ entry ∈ mmap, entry.addr + entry.len < 2 ^ 64 - 4096)
    (accepted : pmapInit image mmap = .ok pmap) : PmapSound mmap pmap ↔ PmapAdmits image mmap := by
  obtain ⟨perm, -, -, -⟩ := pmapInit_spec accepted
  have starts : (pmapRegions image mmap).Pairwise (fun region other => region.addr ≠ other.addr) ↔
      (mmap.filter isAvailableOrReserved).Pairwise fun entry other =>
        entry.firstPage image ≠ other.firstPage image := by
    rw [pmapRegions, List.pairwise_map]
    simp only [pmapRegion_firstPage]
  constructor
  · intro sound
    refine ⟨?_, starts.mp ?_⟩
    · intro entry member available behindBios
      have kept : entry ∈ mmap.filter isAvailableOrReserved :=
        List.mem_filter.mpr ⟨member, by simp [isAvailableOrReserved, available, behindBios]⟩
      have listed : (pmapRegion image entry).1 ∈ pmap := perm.mem_iff.mpr (List.mem_map.mpr ⟨entry, kept, rfl⟩)
      obtain ⟨entries, describes, -⟩ := sound.regions
      have unwrapped : ∀ region ∈ pmap, region.Unwrapped :=
        ((List.forall₂_and_left pmap entries).mp
          (describes.imp fun _ _ described => ⟨described.unwrapped, described⟩)).1
      exact behind_of_unwrapped available (unwrapped _ listed)
    · have differ : pmap.Pairwise fun region other => region.addr ≠ other.addr :=
        sound.ascending.imp fun order => Nat.ne_of_lt order
      exact (perm.pairwise_iff fun pair => Ne.symm pair).mp differ
  · intro admits
    apply pmapSound_of_distinct accepted _ (starts.mpr admits.distinct)
    intro entry kept
    obtain ⟨member, which⟩ := List.mem_filter.mp kept
    rw [pmapRegion_describes_iff (short entry member)]
    intro available
    have behindBios : biosEnd ≤ entry.addr := by
      simp only [isAvailableOrReserved, available, multibootMemoryAvailable, multibootMemoryReserved] at which
      simpa using which
    exact admits.behind entry member available behindBios

/-- Two entries behind the image that are listed out of order get two regions in order. -/
theorem pmapInit_sound_iff_two :
    PmapSound twoEntries [⟨0x200000, 64, .available, ⟨0, 0, NULL⟩⟩, ⟨0x300000, 64, .available, ⟨0, 0, NULL⟩⟩] := by
  have listed : ∀ entry ∈ twoEntries, entry = ⟨0x300000, 0x40000, multibootMemoryAvailable, by decide, by decide⟩ ∨
      entry = ⟨0x200000, 0x40000, multibootMemoryAvailable, by decide, by decide⟩ := by
    intro entry member
    rcases List.mem_cons.mp member with rfl | second
    · exact Or.inl rfl
    · exact Or.inr (List.mem_singleton.mp second)
  refine (pmapInit_sound_iff bootImage _ _ ?_ (by decide +kernel)).mpr ⟨?_, ?_⟩
  · intro entry member
    rcases listed entry member with rfl | rfl <;> decide
  · intro entry member _ _
    rcases listed entry member with rfl | rfl <;> decide +kernel
  · decide +kernel

/-- This available entry starts at the first mebibyte and ends below the end of the kernel image. -/
def lowEntry : MultibootMmapEntry :=
  { addr := 0x100000, len := 0x80000, type := multibootMemoryAvailable, addr_lt := by decide, len_lt := by decide }

/-- An entry that lies below the end of the kernel image gets a region that wraps around the address space. -/
theorem pmapInit_wraps :
    pmapInit bootImage [lowEntry] = .ok [⟨0x200000, 0xfffffffffff80, .available, ⟨0, 0, NULL⟩⟩] ∧
      lowEntry.addr + lowEntry.len < 2 ^ 64 - 4096 ∧
      ¬PmapSound [lowEntry] [⟨0x200000, 0xfffffffffff80, .available, ⟨0, 0, NULL⟩⟩] := by
  have accepted : pmapInit bootImage [lowEntry] = .ok [⟨0x200000, 0xfffffffffff80, .available, ⟨0, 0, NULL⟩⟩] := by
    decide +kernel
  refine ⟨accepted, by decide, ?_⟩
  intro sound
  obtain ⟨entries, describes, -⟩ := sound.regions
  cases describes with
  | cons described _ =>
      have unwrapped := described.unwrapped
      norm_num [PmmRegion.Unwrapped] at unwrapped

end B0s
