import B0s.Construction.Mm.Pmm

/-
This file models `pmap_sort` on the table `pmap` itself, with the indices that it accesses.
-/

namespace B0s

/-- The inner loop of `pmap_sort` keeps the index of the smallest region. -/
def pmapSortMin (pmap : Nat → PmmRegion) : Nat → Nat → Nat → Nat × List Nat
  | 0, _, min => (min, [])
  | left + 1, j, min =>
      let next := if (pmap min).addr > (pmap j).addr then j else min
      let (least, accessed) := pmapSortMin pmap left (j + 1) next
      (least, min :: j :: accessed)

/-- The outer loop of `pmap_sort` counts its range down to one. -/
def pmapSortRounds (pmapSize : Nat) : Nat → (Nat → PmmRegion) → (Nat → PmmRegion) × List Nat
  | 0, pmap => (pmap, [])
  | 1, pmap => (pmap, [])
  | range + 2, pmap =>
      let start := pmapSize - (range + 2)
      let (min, accessed) := pmapSortMin pmap (pmapSize - (start + 1)) (start + 1) start
      let tmp := pmap start
      let pmap := Function.update pmap start (pmap min)
      let pmap := Function.update pmap min tmp
      let (pmap, later) := pmapSortRounds pmapSize (range + 1) pmap
      (pmap, accessed ++ start :: min :: later)

/-- This is `pmap_sort` on a table of any size. -/
def pmapSortTable (pmapSize : Nat) (pmap : Nat → PmmRegion) : (Nat → PmmRegion) × List Nat :=
  if pmapSize = 0 then (pmap, []) else pmapSortRounds pmapSize pmapSize pmap

/-- The loop of `pmap_sorted` compares each region with the one in front of it. -/
def pmapSorted (pmapSize : Nat) (pmap : Nat → PmmRegion) : Bool :=
  (List.range' 1 (pmapSize - 1)).all fun i => (pmap (i - 1)).addr < (pmap i).addr

end B0s
