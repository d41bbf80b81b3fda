import B0s.Proof.Mm.Pmap
import B0s.Construction.Mm.PmapSort

/-
This file proves that `pmap_sort` sorts its table in place, as the list of the regions is sorted.
-/

namespace B0s

/-- A window lists consecutive regions of the table. -/
def pmapWindow (pmap : Nat → PmmRegion) (start count : Nat) : List PmmRegion := (List.range' start count).map pmap

section
variable {pmap : Nat → PmmRegion} {start left j min : Nat}

/-- The inner loop finds in the table what the list search finds in the window. -/
theorem pmapSortMin_refines (low : start ≤ min) (behind : start ≤ j) :
    pmapMin (min - start, pmap min) (j - start) (pmapWindow pmap j left) =
      ((pmapSortMin pmap left j min).1 - start, pmap (pmapSortMin pmap left j min).1) := by
  induction left generalizing j min with
  | zero => rfl
  | succ left ih =>
      have next : j - start + 1 = j + 1 - start := by omega
      rw [pmapWindow, List.range'_succ, List.map_cons, pmapMin, pmapSortMin, next]
      dsimp only
      split_ifs with smaller
      · exact ih behind (Nat.le_succ_of_le behind)
      · exact ih low (Nat.le_succ_of_le behind)

/-- The inner loop stays between its lower bound and the end of its range. -/
theorem pmapSortMin_bounds (low : start ≤ min) (before : min < j) :
    start ≤ (pmapSortMin pmap left j min).1 ∧ (pmapSortMin pmap left j min).1 < j + left ∧
      ∀ index ∈ (pmapSortMin pmap left j min).2, index < j + left := by
  induction left generalizing j min with
  | zero => exact ⟨low, before, by simp [pmapSortMin]⟩
  | succ left ih =>
      have next : start ≤ (if (pmap min).addr > (pmap j).addr then j else min) ∧
          (if (pmap min).addr > (pmap j).addr then j else min) < j + 1 := by
        split_ifs <;> omega
      obtain ⟨above, below, inside⟩ := ih next.1 next.2
      rw [pmapSortMin]
      dsimp only
      refine ⟨above, by omega, ?_⟩
      intro index member
      rcases List.mem_cons.mp member with rfl | member
      · omega
      · rcases List.mem_cons.mp member with rfl | member
        · omega
        · have bound := inside index member
          omega

/-- The exchange of two regions in the table is that of the window. -/
theorem pmapWindow_exchange {count : Nat} (low : start ≤ min) :
    ((pmapWindow pmap start (count + 1)).set (min - start) (pmap start)).tail =
      pmapWindow (Function.update (Function.update pmap start (pmap min)) min (pmap start)) (start + 1) count := by
  apply List.ext_getElem
  · simp [pmapWindow]
  · intro index inside _
    have place : start + (index + 1) = start + 1 + index := by omega
    simp only [pmapWindow, List.getElem_tail, List.getElem_set, List.getElem_map, List.getElem_range', Nat.one_mul, place]
    by_cases here : start + 1 + index = min
    · rw [if_pos (by omega), here, Function.update_self]
    · rw [if_neg (by omega), Function.update_of_ne here, Function.update_of_ne (by omega)]

end

/-- The rounds sort the window behind the first regions. They keep the regions outside of it, and they access only
indices of the table. -/
theorem pmapSortRounds_refines {pmapSize range : Nat} (inside : range ≤ pmapSize) (pmap : Nat → PmmRegion) :
    pmapWindow (pmapSortRounds pmapSize range pmap).1 (pmapSize - range) range =
        pmapSortRange range (pmapWindow pmap (pmapSize - range) range) ∧
      (∀ index, index < pmapSize - range ∨ pmapSize ≤ index →
        (pmapSortRounds pmapSize range pmap).1 index = pmap index) ∧
      ∀ index ∈ (pmapSortRounds pmapSize range pmap).2, index < pmapSize := by
  induction range generalizing pmap with
  | zero => exact ⟨rfl, fun _ _ => rfl, by simp [pmapSortRounds]⟩
  | succ range ih =>
      cases range with
      | zero => exact ⟨rfl, fun _ _ => rfl, by simp [pmapSortRounds]⟩
      | succ range =>
          have first : pmapSize - (range + 1) = pmapSize - (range + 2) + 1 := by omega
          have rest : pmapSize - (pmapSize - (range + 2) + 1) = range + 1 := by omega
          have stop : pmapSize - (range + 2) + 1 + (range + 1) = pmapSize := by omega
          rw [pmapSortRounds, Nat.add_assoc range 1 1]
          dsimp only
          rw [rest]
          generalize pmapSize - (range + 2) = start at *
          have found := @pmapSortMin_refines pmap start (range + 1) (start + 1) start le_rfl (Nat.le_succ start)
          obtain ⟨above, below, accessed⟩ := @pmapSortMin_bounds pmap start (range + 1) (start + 1) start le_rfl
            (Nat.lt_succ_self start)
          rw [Nat.sub_self, Nat.add_sub_cancel_left] at found
          generalize pmapSortMin pmap (range + 1) (start + 1) start = best at *
          obtain ⟨min, reads⟩ := best
          dsimp only at *
          have exchanged := @pmapWindow_exchange pmap start min (range + 1) above
          obtain ⟨sorted, kept, later⟩ := ih (by omega)
            (Function.update (Function.update pmap start (pmap min)) min (pmap start))
          rw [first] at sorted kept
          have smallest : Function.update (Function.update pmap start (pmap min)) min (pmap start) start = pmap min := by
            by_cases same : start = min
            · rw [← same, Function.update_self]
            · rw [Function.update_of_ne same, Function.update_self]
          have window : ∀ table, pmapWindow table start (range + 2) = table start :: pmapWindow table (start + 1) (range + 1) :=
            fun table => rfl
          refine ⟨?_, ?_, ?_⟩
          · rw [window, sorted, kept start (Or.inl (Nat.lt_succ_self start)), smallest, ← exchanged, window pmap,
              pmapSortRange, found]
          · intro index outside
            rw [kept index (by omega), Function.update_of_ne (by omega), Function.update_of_ne (by omega)]
          · intro index member
            rw [List.mem_append, List.mem_cons, List.mem_cons] at member
            rcases member with during | rfl | rfl | after
            · have bound := accessed index during
              omega
            · omega
            · omega
            · exact later index after

/-- The table sort is the list sort of its regions. -/
theorem pmapSortTable_refines (pmapSize : Nat) (pmap : Nat → PmmRegion) :
    pmapWindow (pmapSortTable pmapSize pmap).1 0 pmapSize = pmapSort (pmapWindow pmap 0 pmapSize) ∧
      (∀ index ≥ pmapSize, (pmapSortTable pmapSize pmap).1 index = pmap index) ∧
      ∀ index ∈ (pmapSortTable pmapSize pmap).2, index < pmapSize := by
  have length : (pmapWindow pmap 0 pmapSize).length = pmapSize := by simp [pmapWindow]
  obtain ⟨sorted, kept, accessed⟩ := pmapSortRounds_refines (le_refl pmapSize) pmap
  rw [Nat.sub_self] at sorted kept
  rw [pmapSort, length, pmapSortTable]
  split_ifs with empty
  · rw [empty]
    exact ⟨rfl, fun _ _ => rfl, by simp⟩
  · exact ⟨sorted, fun index outside => kept index (Or.inr outside), accessed⟩

/-- The table is sorted in place. Its regions are permuted, they are in ascending order of their addresses, no other
region is accessed or changed, and distinct addresses are strictly ascending. -/
theorem pmapSortTable_sorts (pmapSize : Nat) (pmap : Nat → PmmRegion) :
    ((List.range pmapSize).map (pmapSortTable pmapSize pmap).1).Perm ((List.range pmapSize).map pmap) ∧
      (∀ i j, i < j → j < pmapSize →
        ((pmapSortTable pmapSize pmap).1 i).addr ≤ ((pmapSortTable pmapSize pmap).1 j).addr) ∧
      (∀ index ∈ (pmapSortTable pmapSize pmap).2, index < pmapSize) ∧
      (∀ index ≥ pmapSize, (pmapSortTable pmapSize pmap).1 index = pmap index) ∧
      (((List.range pmapSize).map fun index => (pmap index).addr).Nodup →
        pmapSorted pmapSize (pmapSortTable pmapSize pmap).1 = true) := by
  obtain ⟨refines, kept, accessed⟩ := pmapSortTable_refines pmapSize pmap
  generalize (pmapSortTable pmapSize pmap).1 = sorted at *
  have length : (pmapWindow pmap 0 pmapSize).length = pmapSize := by simp [pmapWindow]
  obtain ⟨perm, ordered⟩ := @pmapSortRange_spec pmapSize (pmapWindow pmap 0 pmapSize) length
  have whole : pmapSort (pmapWindow pmap 0 pmapSize) = pmapSortRange pmapSize (pmapWindow pmap 0 pmapSize) := by
    rw [pmapSort, length]
  rw [← whole, ← refines] at perm ordered
  rw [pmapWindow, pmapWindow, ← List.range_eq_range'] at perm
  rw [Sorted, pmapWindow, ← List.range_eq_range', List.pairwise_map, List.pairwise_iff_getElem] at ordered
  have ascending : ∀ i j, i < j → j < pmapSize → (sorted i).addr ≤ (sorted j).addr := by
    intro i j before last
    have pair := ordered i j (by simp; omega) (by simpa using last) before
    rwa [List.getElem_range, List.getElem_range] at pair
  refine ⟨perm, ascending, accessed, kept, ?_⟩
  intro distinct
  have distinct' := (perm.map PmmRegion.addr).nodup_iff.mpr (by rwa [List.map_map])
  rw [List.map_map, List.Nodup, List.pairwise_map, List.pairwise_iff_getElem] at distinct'
  rw [pmapSorted, List.all_eq_true]
  intro i member
  obtain ⟨low, high⟩ := List.mem_range'_1.mp member
  have different := distinct' (i - 1) i (by simp; omega) (by simp; omega) (by omega)
  rw [List.getElem_range, List.getElem_range] at different
  exact decide_eq_true (lt_of_le_of_ne (ascending (i - 1) i (by omega) (by omega)) different)

end B0s
