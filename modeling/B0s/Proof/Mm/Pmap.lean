import B0s.Proof.Machine
import B0s.Construction.Mm.Pmm

/-
This file proves what `pmap_init` computes: one region for each kept entry, pairwise apart and sorted.
-/

namespace B0s

theorem KernelImage.v2p_eq (image : KernelImage) : v2p image.vmaStop = image.vmaStop - kernelVma := by
  have above := image.above
  have below := image.below
  unfold v2p subU64
  unfold kernelVma uefiEnd at *
  omega

/-- The physical end of the image is the boundary of a page in the first gibibyte. -/
theorem KernelImage.v2p_bounds (image : KernelImage) :
    v2p image.vmaStop % 4096 = 0 ∧ uefiEnd ≤ v2p image.vmaStop ∧ v2p image.vmaStop < 0x40000000 := by
  have aligned := Nat.mod_eq_zero_of_dvd image.aligned
  have above := image.above
  have below := image.below
  rw [image.v2p_eq]
  unfold kernelVma uefiEnd at *
  omega

/-- A region has page boundaries below the end of the address space. -/
structure PmmRegion.Aligned (region : PmmRegion) : Prop where
  addr : region.addr % 4096 = 0
  bounded : region.addr < 2 ^ 64
  size : region.sizeInPages ≤ 2 ^ 52

/-- The end of an entry is rounded up to a page boundary. -/
def MultibootMmapEntry.pageStop (entry : MultibootMmapEntry) : Nat :=
  (entry.addr + entry.len + 4095) % 2 ^ 64 / 4096 * 4096

section
variable (image : KernelImage) (entry : MultibootMmapEntry)

theorem pmapRegion_available_iff :
    (pmapRegion image entry).1.type = .available ↔ entry.type = multibootMemoryAvailable := by
  simp only [pmapRegion]
  split_ifs with available <;> simp [available]

theorem pmapRegion_addr (available : entry.type = multibootMemoryAvailable) :
    (pmapRegion image entry).1.addr = max (v2p image.vmaStop) entry.addr / 4096 * 4096 := by
  have bounded : max (v2p image.vmaStop) entry.addr < 2 ^ 64 := by
    have first := image.v2p_bounds.2.2
    have second := entry.addr_lt
    omega
  simp only [pmapRegion, if_pos available, if_true]
  rw [pageAddr_eq bounded, pageSizeInBytes]

theorem pmapRegion_aligned : (pmapRegion image entry).1.Aligned := by
  have addrForm : ∃ value, (pmapRegion image entry).1.addr = pageAddr value := by
    simp only [pmapRegion]
    split_ifs <;> exact ⟨_, rfl⟩
  obtain ⟨value, form⟩ := addrForm
  refine ⟨?_, ?_, ?_⟩
  · rw [form]
    exact pageAddr_aligned value
  · rw [form]
    exact pageAddr_lt value
  · have bound : ∀ left right, subU64 left right / pageSizeInBytes ≤ 2 ^ 52 := by
      intro left right
      unfold subU64 pageSizeInBytes
      omega
    simp only [pmapRegion]
    exact bound _ _

/-- The computed end is the rounded end of the entry, since the raised start cancels out. -/
theorem pmapRegion_addrStop : (pmapRegion image entry).2 = entry.pageStop := by
  have aligned := pmapRegion_aligned image entry
  have expanded : (pmapRegion image entry).2 = roundUp (subU64 (u64 ((pmapRegion image entry).1.addr +
      subU64 entry.len (subU64 (pmapRegion image entry).1.addr entry.addr))) 1) pageSizeInBytes := by
    simp only [pmapRegion]
  have first := entry.addr_lt
  have second := entry.len_lt
  have bounded := aligned.bounded
  rw [expanded, roundUp_pred]
  generalize (pmapRegion image entry).1.addr = addr at *
  have cancels : (u64 (addr + subU64 entry.len (subU64 addr entry.addr)) + 4095) % 2 ^ 64 =
      (entry.addr + entry.len + 4095) % 2 ^ 64 := by
    unfold u64 subU64
    omega
  rw [cancels, MultibootMmapEntry.pageStop, pageSizeInBytes]

/-- The number of pages spans the distance to the rounded end. -/
theorem pmapRegion_size :
    (pmapRegion image entry).1.sizeInPages =
      subU64 entry.pageStop (pmapRegion image entry).1.addr / 4096 := by
  rw [← pmapRegion_addrStop image entry]
  simp only [pmapRegion, pageSizeInBytes]

theorem pmapRegion_stop : (pmapRegion image entry).1.stop = entry.pageStop := by
  have aligned := pmapRegion_aligned image entry
  have bounded := aligned.bounded
  have addrAligned := aligned.addr
  rw [PmmRegion.stop, pmapRegion_size]
  generalize (pmapRegion image entry).1.addr = addr at *
  unfold MultibootMmapEntry.pageStop u64 subU64 pageSizeInBytes
  omega

end

/-- Two regions do not overlap as far as `pmap_insert` can tell. -/
def PmmRegion.Apart (region other : PmmRegion) : Prop :=
  other.stop ≤ region.addr ∨ region.stop ≤ other.addr

theorem PmmRegion.Apart.symm {region other : PmmRegion} (apart : region.Apart other) :
    other.Apart region := Or.symm apart

instance : Std.Symm PmmRegion.Apart := ⟨fun _ _ => PmmRegion.Apart.symm⟩

section
variable (image : KernelImage)

/-- The regions of the kept entries in the order of the map. -/
def pmapRegions (mmap : List MultibootMmapEntry) : List PmmRegion :=
  (mmap.filter isAvailableOrReserved).map fun entry => (pmapRegion image entry).1

/-- Without a panic every kept entry has its region, and the regions are apart. -/
theorem pmapInsertAll_spec {mmap : List MultibootMmapEntry} {pmap pmap' : List PmmRegion}
    (inserted : pmapInsertAll image mmap pmap = .ok pmap') (short : pmap.length ≤ pmapSizeLimit)
    (apart : pmap.Pairwise PmmRegion.Apart) :
    pmap' = pmap ++ pmapRegions image mmap ∧ pmap'.length ≤ pmapSizeLimit ∧
      pmap'.Pairwise PmmRegion.Apart := by
  induction mmap generalizing pmap with
  | nil =>
      obtain rfl := Except.ok.inj inserted
      exact ⟨by simp [pmapRegions], short, apart⟩
  | cons entry mmap ih =>
      rw [pmapInsertAll] at inserted
      split_ifs at inserted with kept full
      · obtain ⟨middle, added, rest⟩ := Outcome.bind_eq_ok.mp inserted
        simp only [pmapInsert] at added
        split_ifs at added with clear
        obtain rfl := Except.ok.inj added
        have longer : (pmap ++ [(pmapRegion image entry).1]).length ≤ pmapSizeLimit := by
          rw [List.length_append, List.length_singleton]
          omega
        have apart' : (pmap ++ [(pmapRegion image entry).1]).Pairwise PmmRegion.Apart := by
          rw [List.pairwise_append]
          refine ⟨apart, List.pairwise_singleton _ _, ?_⟩
          intro other member region single
          obtain rfl := List.mem_singleton.mp single
          have checked := clear other member
          rw [pmapApart, pmapRegion_addrStop, ← pmapRegion_stop image] at checked
          exact PmmRegion.Apart.symm checked
        obtain ⟨equal, bound, pairs⟩ := ih rest longer apart'
        refine ⟨?_, bound, pairs⟩
        rw [equal]
        simp [pmapRegions, kept]
      · obtain ⟨equal, bound, pairs⟩ := ih inserted short apart
        refine ⟨?_, bound, pairs⟩
        rw [equal]
        simp [pmapRegions, kept]

end

/-- The inner loop finds the index of a smallest region. -/
theorem pmapMin_spec (regions : List PmmRegion) {start rest : List PmmRegion} {min : Nat × PmmRegion}
    (split : regions = start ++ rest) (named : regions[min.1]? = some min.2)
    (least : ∀ region ∈ start, min.2.addr ≤ region.addr) :
    regions[(pmapMin min start.length rest).1]? = some (pmapMin min start.length rest).2 ∧
      ∀ region ∈ regions, (pmapMin min start.length rest).2.addr ≤ region.addr := by
  induction rest generalizing start min with
  | nil =>
      rw [List.append_nil] at split
      rw [pmapMin]
      exact ⟨named, fun region member => least region (split ▸ member)⟩
  | cons region rest ih =>
      have split' : regions = (start ++ [region]) ++ rest := by simp [split]
      have length : (start ++ [region]).length = start.length + 1 := by simp
      rw [pmapMin]
      by_cases smaller : min.2.addr > region.addr
      · have here : regions[start.length]? = some region := by simp [split]
        have next := @ih (start ++ [region]) (start.length, region) split' here (by
          intro other member
          rcases List.mem_append.mp member with before | single
          · have bound := least other before
            dsimp only
            omega
          · obtain rfl := List.mem_singleton.mp single
            exact le_refl _)
        rw [length] at next
        rw [if_pos smaller]
        exact next
      · have next := @ih (start ++ [region]) min split' named (by
          intro other member
          rcases List.mem_append.mp member with before | single
          · exact least other before
          · obtain rfl := List.mem_singleton.mp single
            omega)
        rw [length] at next
        rw [if_neg smaller]
        exact next

/-- Putting the first element in the place of the moved one permutes a list. -/
theorem cons_tail_set_perm {A : Type} {first moved : A} {rest : List A} {index : Nat}
    (named : (first :: rest)[index]? = some moved) :
    (moved :: ((first :: rest).set index first).tail).Perm (first :: rest) := by
  cases index with
  | zero =>
      obtain rfl := Option.some.inj named
      exact List.Perm.refl _
  | succ index =>
      rw [List.getElem?_cons_succ] at named
      rw [List.set_cons_succ, List.tail_cons]
      induction rest generalizing index with
      | nil => simp at named
      | cons head rest ih =>
          cases index with
          | zero =>
              obtain rfl : head = moved := Option.some.inj named
              exact List.Perm.swap _ _ _
          | succ index =>
              have inner := ih index named
              rw [List.set_cons_succ]
              calc (moved :: head :: rest.set index first).Perm (head :: moved :: rest.set index first) :=
                    List.Perm.swap _ _ _
                _ |>.Perm (head :: first :: rest) := inner.cons head
                _ |>.Perm (first :: head :: rest) := List.Perm.swap _ _ _

/-- The table is sorted by the addresses of its regions. -/
def Sorted (pmap : List PmmRegion) : Prop :=
  pmap.Pairwise fun region other => region.addr ≤ other.addr

theorem pmapSortRange_spec {range : Nat} {pmap : List PmmRegion} (whole : pmap.length = range) :
    (pmapSortRange range pmap).Perm pmap ∧ Sorted (pmapSortRange range pmap) := by
  induction range generalizing pmap with
  | zero =>
      obtain rfl := List.length_eq_zero_iff.mp whole
      exact ⟨List.Perm.refl _, List.Pairwise.nil⟩
  | succ range ih =>
      cases pmap with
      | nil => simp at whole
      | cons first rest =>
          have found := @pmapMin_spec (first :: rest) [first] rest (0, first) rfl rfl (by simp)
          obtain ⟨named, least⟩ := found
          rw [List.length_singleton] at named least
          rw [pmapSortRange]
          generalize pmapMin (0, first) 1 rest = best at named least
          obtain ⟨index, smallest⟩ := best
          dsimp only at named least ⊢
          have permuted := cons_tail_set_perm named
          have shorter : ((first :: rest).set index first).tail.length = range := by
            rw [List.length_tail, List.length_set]
            omega
          obtain ⟨perm, sorted⟩ := ih shorter
          refine ⟨(perm.cons smallest).trans permuted, ?_⟩
          rw [Sorted, List.pairwise_cons]
          refine ⟨?_, sorted⟩
          intro region member
          apply least
          exact permuted.mem_iff.mp (List.mem_cons_of_mem _ (perm.mem_iff.mp member))

/-- The table of an accepted map is a sorted arrangement of its regions, and they are apart. -/
theorem pmapInit_spec {image : KernelImage} {mmap : List MultibootMmapEntry} {pmap : List PmmRegion}
    (accepted : pmapInit image mmap = .ok pmap) :
    pmap.Perm (pmapRegions image mmap) ∧ pmap.length ≤ pmapSizeLimit ∧ Sorted pmap ∧
      pmap.Pairwise PmmRegion.Apart := by
  obtain ⟨inserted, done, rest⟩ := Outcome.bind_eq_ok.mp accepted
  obtain rfl := Except.ok.inj rest
  obtain ⟨equal, bound, apart⟩ := pmapInsertAll_spec image done (by decide) List.Pairwise.nil
  obtain ⟨perm, sorted⟩ := @pmapSortRange_spec inserted.length inserted rfl
  rw [List.nil_append] at equal
  refine ⟨equal ▸ perm, ?_, sorted, ?_⟩
  · rw [pmapSort, perm.length_eq]
    exact bound
  · exact (perm.pairwise_iff fun pair => PmmRegion.Apart.symm pair).mpr apart

end B0s
