import B0s.Proof.Mm.Pmap

/-
This file proves that the steps of `pmm_next_phys_page` enumerate the pages of all regions.
-/

namespace B0s

/-- A page of a region starts in its range. -/
structure PmmRegion.Holds (region : PmmRegion) (pa : Nat) : Prop where
  aligned : pa % pageSizeInBytes = 0
  lower : region.addr ≤ pa
  upper : pa < region.addr + region.sizeInPages * pageSizeInBytes

/-- The table is sorted, and its regions are disjoint ranges of pages that end before the last page of the
address space. -/
structure PageRegions (pmap : List PmmRegion) : Prop where
  sorted : Sorted pmap
  apart : pmap.Pairwise PmmRegion.Apart
  nonempty : ∀ region ∈ pmap, 0 < region.sizeInPages
  aligned : ∀ region ∈ pmap, region.addr % pageSizeInBytes = 0
  bounded : ∀ region ∈ pmap, region.addr + region.sizeInPages * pageSizeInBytes < 2 ^ 64 - pageSizeInBytes

section
variable {pmap rest : List PmmRegion} {region : PmmRegion} {next addr pa : Nat}

theorem PageRegions.stop_eq (regions : PageRegions pmap) (member : region ∈ pmap) :
    region.stop = region.addr + region.sizeInPages * pageSizeInBytes := by
  have bounded := regions.bounded region member
  unfold PmmRegion.stop u64 pageSizeInBytes at *
  omega

theorem PageRegions.tail (regions : PageRegions (region :: rest)) : PageRegions rest where
  sorted := (List.pairwise_cons.mp regions.sorted).2
  apart := (List.pairwise_cons.mp regions.apart).2
  nonempty other member := regions.nonempty other (List.mem_cons_of_mem _ member)
  aligned other member := regions.aligned other (List.mem_cons_of_mem _ member)
  bounded other member := regions.bounded other (List.mem_cons_of_mem _ member)

/-- Each region ends before the later ones start. -/
theorem PageRegions.before (regions : PageRegions (region :: rest)) {other : PmmRegion} (member : other ∈ rest) :
    region.stop ≤ other.addr := by
  have sorted := (List.pairwise_cons.mp regions.sorted).1 other member
  rcases (List.pairwise_cons.mp regions.apart).1 other member with behind | before
  · have inside := List.mem_cons_of_mem region member
    have nonempty := regions.nonempty other inside
    have stop := regions.stop_eq inside
    unfold pageSizeInBytes at stop
    omega
  · exact before

/-- The step from one page finds the next one that a region holds, with the type of the region. -/
structure NextPage (pmap : List PmmRegion) (next : Nat) (found : PmmPhysAddr) : Prop where
  lower : next ≤ found.pa
  held : ∃ region ∈ pmap, region.type = found.type ∧ region.Holds found.pa
  least : ∀ pa, next ≤ pa → pa < found.pa → ∀ region ∈ pmap, ¬region.Holds pa

/-- The search returns the next page of a region, or address 1 when no region holds a later page. -/
theorem pmmNextPhysPageFrom_spec (regions : PageRegions pmap) (aligned : next % pageSizeInBytes = 0) :
    ((pmmNextPhysPageFrom next pmap).pa = 1 ∧ ∀ pa, next ≤ pa → ∀ region ∈ pmap, ¬region.Holds pa) ∨
      NextPage pmap next (pmmNextPhysPageFrom next pmap) := by
  induction pmap with
  | nil => exact Or.inl ⟨rfl, fun _ _ _ member => absurd member List.not_mem_nil⟩
  | cons region rest ih =>
      have stop := regions.stop_eq List.mem_cons_self
      rw [pmmNextPhysPageFrom]
      by_cases passed : next ≥ region.stop
      · rw [if_pos passed]
        have outside : ∀ pa, next ≤ pa → ¬region.Holds pa := by
          intro pa lower holds
          have upper := holds.upper
          omega
        rcases ih regions.tail with ⟨none, all⟩ | found
        · left
          refine ⟨none, ?_⟩
          intro pa lower other member
          rcases List.mem_cons.mp member with rfl | inside
          · exact outside pa lower
          · exact all pa lower other inside
        · right
          obtain ⟨other, inside, type, holds⟩ := found.held
          refine ⟨found.lower, ⟨other, List.mem_cons_of_mem _ inside, type, holds⟩, ?_⟩
          intro pa lower upper other member
          rcases List.mem_cons.mp member with rfl | inside
          · exact outside pa lower
          · exact found.least pa lower upper other inside
      · rw [if_neg passed]
        right
        have start := regions.aligned region List.mem_cons_self
        have nonempty := regions.nonempty region List.mem_cons_self
        refine ⟨le_max_left _ _, ⟨region, List.mem_cons_self, rfl, ?_, le_max_right _ _, ?_⟩, ?_⟩
        · dsimp only
          rcases max_choice next region.addr with same | same
          · rw [same]
            exact aligned
          · rw [same]
            exact start
        · apply max_lt
          · omega
          · unfold pageSizeInBytes
            omega
        · intro pa lower upper other member holds
          have start : pa < region.addr := (lt_max_iff.mp upper).resolve_left (Nat.not_lt.mpr lower)
          have above := holds.lower
          rcases List.mem_cons.mp member with rfl | inside
          · omega
          · have order := regions.before inside
            omega

/-- The step from an aligned page behind which the address space goes on. -/
theorem pmmNextPhysPage_spec (regions : PageRegions pmap) (aligned : addr % pageSizeInBytes = 0)
    (bounded : addr < 2 ^ 64 - pageSizeInBytes) :
    ((pmmNextPhysPage pmap addr).pa = 1 ∧
        ∀ pa, addr + pageSizeInBytes ≤ pa → ∀ region ∈ pmap, ¬region.Holds pa) ∨
      NextPage pmap (addr + pageSizeInBytes) (pmmNextPhysPage pmap addr) := by
  have noWrap : u64 (addr + pageSizeInBytes) = addr + pageSizeInBytes := by
    unfold u64 pageSizeInBytes at *
    omega
  have aligned' : (addr + pageSizeInBytes) % pageSizeInBytes = 0 := by
    rw [Nat.add_mod_right]
    exact aligned
  rw [pmmNextPhysPage, noWrap]
  exact pmmNextPhysPageFrom_spec regions aligned'

/-- The pages are those behind an address that some region holds, in ascending order and with their types. -/
structure PagesBehind (pmap : List PmmRegion) (addr : Nat) (pages : List PmmPhysAddr) : Prop where
  ascending : pages.Pairwise fun page other => page.pa < other.pa
  exactly : ∀ page : PmmPhysAddr, page ∈ pages ↔
    addr + pageSizeInBytes ≤ page.pa ∧ ∃ region ∈ pmap, region.type = page.type ∧ region.Holds page.pa

/-- Two regions that hold one page are the same. -/
theorem PageRegions.unique (regions : PageRegions pmap) {other : PmmRegion} (member : region ∈ pmap)
    (member' : other ∈ pmap) (holds : region.Holds pa) (holds' : other.Holds pa) : region = other := by
  by_contra different
  have clear := regions.apart.forall member member' different
  rw [PmmRegion.Apart, regions.stop_eq member, regions.stop_eq member'] at clear
  have lower := holds.lower
  have upper := holds.upper
  have lower' := holds'.lower
  have upper' := holds'.upper
  omega

/-- The steps from an aligned address enumerate the pages behind it. -/
theorem pmmPhysPages_behind {steps : Nat} (regions : PageRegions pmap) (aligned : addr % pageSizeInBytes = 0)
    (bounded : addr < 2 ^ 64 - pageSizeInBytes) (enough : 2 ^ 64 - addr ≤ steps * pageSizeInBytes) :
    ∃ pages, pmmPhysPages pmap steps addr = .ok pages ∧ PagesBehind pmap addr pages := by
  induction steps generalizing addr with
  | zero =>
      unfold pageSizeInBytes at *
      omega
  | succ steps ih =>
      rw [pmmPhysPages]
      rcases pmmNextPhysPage_spec regions aligned bounded with ⟨last, none⟩ | found
      · rw [if_pos last]
        refine ⟨[], rfl, List.Pairwise.nil, ?_⟩
        intro page
        constructor
        · intro member
          exact absurd member List.not_mem_nil
        · rintro ⟨lower, region, member, -, holds⟩
          exact absurd holds (none page.pa lower region member)
      · generalize pmmNextPhysPage pmap addr = next at found ⊢
        obtain ⟨region, member, type, holds⟩ := found.held
        have lower := found.lower
        have real : next.pa ≠ 1 := by
          unfold pageSizeInBytes at lower
          omega
        have below := regions.bounded region member
        have upper := holds.upper
        obtain ⟨pages, returned, behind⟩ := @ih next.pa holds.aligned (by omega) (by
          rw [Nat.succ_mul] at enough
          unfold pageSizeInBytes at *
          omega)
        refine ⟨next :: pages, ?_, List.pairwise_cons.mpr ⟨?_, behind.ascending⟩, ?_⟩
        · rw [if_neg real, returned]
          rfl
        · intro page inside
          have later := ((behind.exactly page).mp inside).1
          unfold pageSizeInBytes at later
          omega
        · intro page
          rw [List.mem_cons, behind.exactly]
          constructor
          · rintro (rfl | ⟨later, held⟩)
            · exact ⟨lower, region, member, type, holds⟩
            · exact ⟨by omega, held⟩
          · rintro ⟨from', other, listed, kind, here⟩
            rcases Nat.lt_trichotomy page.pa next.pa with early | same | late
            · exact absurd here (found.least page.pa from' early other listed)
            · left
              have whole := regions.unique listed member here (same ▸ holds)
              cases page
              cases next
              simp only at same kind type
              subst whole
              rw [← kind, ← type, same]
            · right
              refine ⟨?_, other, listed, kind, here⟩
              have first := here.aligned
              have second := holds.aligned
              unfold pageSizeInBytes at *
              omega

end

/-- Stepping from address zero to address 1 yields the pages from the second one on that lie in some region, each
once, in ascending order, and with the type of its region. -/
theorem pmmPhysPages_enumerate (pmap : List PmmRegion) (regions : PageRegions pmap) :
    ∃ pages, pmmPhysPages pmap walkLimit 0 = .ok pages ∧
      (pages.Pairwise fun page other => page.pa < other.pa) ∧
      ∀ page : PmmPhysAddr, page ∈ pages ↔
        4096 ≤ page.pa ∧ ∃ region ∈ pmap, region.type = page.type ∧ region.Holds page.pa := by
  have enough : 2 ^ 64 - 0 ≤ walkLimit * pageSizeInBytes := by decide
  obtain ⟨pages, returned, behind⟩ := pmmPhysPages_behind regions (Nat.zero_mod _) (by decide) enough
  refine ⟨pages, returned, behind.ascending, ?_⟩
  intro page
  rw [behind.exactly page, Nat.zero_add, pageSizeInBytes]

/-- Two adjacent regions of different types at the start of memory. -/
def adjacentRegions : List PmmRegion :=
  [⟨0, 2, .reserved, ⟨0, 0, NULL⟩⟩, ⟨0x2000, 1, .available, ⟨0, 0, NULL⟩⟩]

/-- Page 0 is skipped, and each of the other two pages has its own type. -/
theorem pmmPhysPages_enumerate_adjacent :
    ∃ pages, pmmPhysPages adjacentRegions walkLimit 0 = .ok pages ∧ ⟨.reserved, 0x1000⟩ ∈ pages ∧
      ⟨.available, 0x2000⟩ ∈ pages ∧ ⟨.reserved, 0⟩ ∉ pages := by
  have regions : PageRegions adjacentRegions := by
    refine ⟨by unfold Sorted; decide, ?_, by decide, by decide, by decide⟩
    exact List.pairwise_pair.mpr (Or.inr (by decide))
  obtain ⟨pages, returned, -, exactly⟩ := pmmPhysPages_enumerate adjacentRegions regions
  refine ⟨pages, returned, ?_, ?_, ?_⟩
  · rw [exactly]
    exact ⟨by decide, _, List.mem_cons_self, rfl, by decide, by decide, by decide⟩
  · rw [exactly]
    exact ⟨by decide, _, List.mem_cons_of_mem _ List.mem_cons_self, rfl, by decide, by decide, by decide⟩
  · rw [exactly]
    rintro ⟨low, -⟩
    exact absurd low (by decide)

end B0s
