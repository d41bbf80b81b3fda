import B0s.Proof.Mm.RegionList

/-
This file proves that the range operations of `vmm.c` compute a partial map.
-/

namespace B0s
open DoublyLinked RangeMap

variable {σ : Type} {objects : ObjectAllocator σ} {kernel : Kernel σ} {space : Nat}

/-- The last listed record before a split holds the last range before it. -/
theorem Kernel.ranges_getLast? (kernel : Kernel σ) (ptrs : List Nat) :
    (kernel.ranges ptrs).getLast? = ptrs.getLast?.map fun ptr => (kernel.region ptr).range := by
  simp [Kernel.ranges]

theorem Kernel.ranges_head? (kernel : Kernel σ) (ptrs : List Nat) :
    (kernel.ranges ptrs).head? = ptrs.head?.map fun ptr => (kernel.region ptr).range := by
  simp [Kernel.ranges]

/-- A split list of ranges fixes the ranges of both parts and of the record between them. -/
theorem Kernel.ranges_middle {first second : List Nat} {ptr : Nat} {kernel' : Kernel σ}
    {range : Range Nat Nat} (equal : kernel'.ranges (first ++ ptr :: second) =
      kernel.ranges first ++ range :: kernel.ranges second) :
    kernel'.ranges first = kernel.ranges first ∧ (kernel'.region ptr).range = range ∧
      kernel'.ranges second = kernel.ranges second := by
  rw [Kernel.ranges_append, Kernel.ranges_cons] at equal
  obtain ⟨front, back⟩ := List.append_inj equal (by simp [Kernel.ranges])
  exact ⟨front, (List.cons.inj back).1, (List.cons.inj back).2⟩

section Insert
variable {first second : List Nat} {vaStart vaStop flags : Nat}

/-- The insertion panics exactly when a neighbour overlaps the range. -/
theorem vmmInsertRange_panics (listed : SpaceList objects kernel space (first ++ second))
    (canonical : Canonical (kernel.ranges (first ++ second)))
    (flags : Nat) (overlap : ¬((∀ range ∈ kernel.ranges first, range.stop ≤ vaStart) ∧
      ∀ range ∈ kernel.ranges second, vaStop ≤ range.start)) :
    Outcome.Panics (vmmInsertRange objects space (first.getLastD NULL) (second.headD NULL)
      vaStart vaStop flags kernel) := by
  rw [Kernel.ranges_append] at canonical
  have parts := (canonical_append _ _).mp canonical
  unfold vmmInsertRange
  split_ifs with next prev
  · exact Outcome.panics_panic _
  · exact Outcome.panics_panic _
  · exfalso
    apply overlap
    constructor
    · apply parts.1.stop_le_of_last
      rw [Kernel.ranges_getLast?]
      rcases first.eq_nil_or_concat' with rfl | ⟨init, last, rfl⟩
      · simp
      · have nonnull : last ≠ NULL := listed.ne_null (by simp)
        simp only [List.getLastD_concat, not_and, not_lt] at prev
        simpa [VmmRegion.range] using prev nonnull
    · apply parts.2.1.le_start_of_head
      rw [Kernel.ranges_head?]
      cases second with
      | nil => simp
      | cons head rest =>
          have nonnull : head ≠ NULL := listed.ne_null (by simp)
          simp only [List.headD_cons, not_and, not_lt, gt_iff_lt] at next
          simpa [VmmRegion.range] using next nonnull

/-- The left neighbour is connected exactly when its range joins the new one. -/
theorem connectedWithPrev_iff (kernel : Kernel σ) (range : Range Nat Nat)
    (nonnull : ∀ ptr ∈ first, ptr ≠ NULL) :
    (first.getLastD NULL ≠ NULL ∧ range.start = (kernel.region (first.getLastD NULL)).vaStop ∧
      range.flags = (kernel.region (first.getLastD NULL)).flags) ↔
    ∃ last, first.getLast? = some last ∧ (kernel.region last).range.Joins range := by
  rcases first.eq_nil_or_concat' with rfl | ⟨init, last, rfl⟩
  · simp
  · have different : last ≠ NULL := nonnull last (by simp)
    simp [different, Range.Joins, VmmRegion.range, eq_comm]

/-- The right neighbour is connected exactly when the new range joins it. -/
theorem connectedWithNext_iff (kernel : Kernel σ) (range : Range Nat Nat)
    (nonnull : ∀ ptr ∈ second, ptr ≠ NULL) :
    (second.headD NULL ≠ NULL ∧ range.stop = (kernel.region (second.headD NULL)).vaStart ∧
      (kernel.region (second.headD NULL)).flags = range.flags) ↔
    ∃ head, second.head? = some head ∧ range.Joins (kernel.region head).range := by
  cases second with
  | nil => simp
  | cons head rest =>
      have different : head ≠ NULL := nonnull head (by simp)
      simp [different, Range.Joins, VmmRegion.range, eq_comm]

/-- Closing a gap gives the left region the stop of the right one, which is then removed. -/
theorem closeGap_relisted {init rest : List Nat} {last head : Nat}
    (listed : SpaceList objects kernel space (init ++ [last] ++ head :: rest)) :
    Relisted objects kernel (removeRegion objects space head
        (kernel.setStop last (kernel.region head).vaStop)) space
      (init ++ [last] ++ head :: rest) (init ++ last :: rest)
      (kernel.ranges init ++ ⟨(kernel.region last).vaStart, (kernel.region head).vaStop,
        (kernel.region last).flags⟩ :: kernel.ranges rest) := by
  have split : init ++ [last] ++ head :: rest = init ++ last :: head :: rest := by simp
  have join : init ++ [last] ++ rest = init ++ last :: rest := by simp
  have stretched := setStop_relisted (split ▸ listed) (kernel.region head).vaStop
  obtain ⟨front, middle, back⟩ := Kernel.ranges_middle stretched.ranges_eq
  rw [Kernel.ranges_cons, Kernel.ranges_cons] at back
  rw [← split] at stretched
  have removed := removeRegion_relisted stretched.listed
  rw [Kernel.ranges_append, Kernel.ranges_cons, Kernel.ranges_nil, front, middle,
    (List.cons.inj back).2, join,
    List.append_assoc (kernel.ranges init), List.singleton_append] at removed
  exact stretched.trans removed

/-- The insertion of a range that fits joins it with its connected neighbours. -/
theorem vmmInsertRange_fits (listed : SpaceList objects kernel space (first ++ second)) (flags : Nat)
    (before : ∀ range ∈ kernel.ranges first, range.stop ≤ vaStart)
    (after : ∀ range ∈ kernel.ranges second, vaStop ≤ range.start) :
    ∃ region kernel' ptrs, vmmInsertRange objects space (first.getLastD NULL) (second.headD NULL)
        vaStart vaStop flags kernel = .ok (region, kernel') ∧
      Relisted objects kernel kernel' space (first ++ second) ptrs
        (insertBetween (kernel.ranges first) (kernel.ranges second) ⟨vaStart, vaStop, flags⟩) ∧
      region ∈ ptrs ∧ (kernel'.region region).range =
        joined (kernel.ranges first) (kernel.ranges second) ⟨vaStart, vaStop, flags⟩ := by
  have nonnull : ∀ ptr ∈ first ++ second, ptr ≠ NULL := fun ptr member => listed.ne_null member
  have nextFits : ¬(second.headD NULL ≠ NULL ∧
      vaStop > (kernel.region (second.headD NULL)).vaStart) := by
    cases second with
    | nil => simp
    | cons head rest =>
        have bound : vaStop ≤ (kernel.region head).vaStart :=
          after (kernel.region head).range (by simp)
        simp [bound]
  have prevFits : ¬(first.getLastD NULL ≠ NULL ∧
      vaStart < (kernel.region (first.getLastD NULL)).vaStop) := by
    rcases first.eq_nil_or_concat' with rfl | ⟨init, last, rfl⟩
    · simp
    · have bound : (kernel.region last).vaStop ≤ vaStart :=
        before (kernel.region last).range (by simp [Kernel.ranges_append])
      simp [bound]
  have prevIff := connectedWithPrev_iff kernel ⟨vaStart, vaStop, flags⟩ fun ptr member =>
    nonnull ptr (List.mem_append_left second member)
  have nextIff := connectedWithNext_iff kernel ⟨vaStart, vaStop, flags⟩ fun ptr member =>
    nonnull ptr (List.mem_append_right first member)
  have lastIff : (∃ last, first.getLast? = some last ∧
        (kernel.region last).range.Joins ⟨vaStart, vaStop, flags⟩) ↔
      ∃ last, (kernel.ranges first).getLast? = some last ∧ last.Joins ⟨vaStart, vaStop, flags⟩ := by
    simp [Kernel.ranges_getLast?]
  have headIff : (∃ head, second.head? = some head ∧
        Range.Joins ⟨vaStart, vaStop, flags⟩ (kernel.region head).range) ↔
      ∃ head, (kernel.ranges second).head? = some head ∧
        Range.Joins ⟨vaStart, vaStop, flags⟩ head := by
    simp [Kernel.ranges_head?]
  unfold vmmInsertRange
  rw [if_neg nextFits, if_neg prevFits]
  dsimp only
  by_cases left : ∃ last, first.getLast? = some last ∧
      (kernel.region last).range.Joins ⟨vaStart, vaStop, flags⟩
  · by_cases right : ∃ head, second.head? = some head ∧
        Range.Joins ⟨vaStart, vaStop, flags⟩ (kernel.region head).range
    · rw [if_pos ⟨prevIff.mpr left, nextIff.mpr right⟩]
      obtain ⟨last, final, joins⟩ := left
      obtain ⟨head, start, joinsNext⟩ := right
      obtain ⟨init, rfl⟩ := List.getLast?_eq_some_iff.mp final
      obtain ⟨rest, rfl⟩ := List.head?_eq_some_iff.mp start
      have closed := closeGap_relisted listed
      have same : (kernel.region last).flags = flags := joins.2
      have joint := insertBetween_both (kernel.ranges init) (kernel.ranges rest) joins joinsNext
      rw [same] at closed
      simp only [List.getLastD_concat, List.headD_cons, Kernel.ranges_append, Kernel.ranges_cons,
        Kernel.ranges_nil]
      rw [joint.1, joint.2]
      exact ⟨_, _, _, rfl, closed, by simp, (Kernel.ranges_middle closed.ranges_eq).2.1⟩
    · rw [if_neg fun both => right (nextIff.mp both.2), if_pos (prevIff.mpr left)]
      obtain ⟨last, final, joins⟩ := left
      obtain ⟨init, rfl⟩ := List.getLast?_eq_some_iff.mp final
      have split : init ++ [last] ++ second = init ++ last :: second := by simp
      have stretched := setStop_relisted (split ▸ listed) vaStop
      have same : (kernel.region last).flags = flags := joins.2
      rw [headIff] at right
      push Not at right
      have joint := insertBetween_left (kernel.ranges init) joins right
      rw [same] at stretched
      simp only [List.getLastD_concat, Kernel.ranges_append, Kernel.ranges_cons, Kernel.ranges_nil]
      rw [joint.1, joint.2, split]
      exact ⟨_, _, _, rfl, stretched, by simp, (Kernel.ranges_middle stretched.ranges_eq).2.1⟩
  · by_cases right : ∃ head, second.head? = some head ∧
        Range.Joins ⟨vaStart, vaStop, flags⟩ (kernel.region head).range
    · rw [if_neg fun both => left (prevIff.mp both.1), if_neg fun one => left (prevIff.mp one),
        if_pos (nextIff.mpr right)]
      obtain ⟨head, start, joinsNext⟩ := right
      obtain ⟨rest, rfl⟩ := List.head?_eq_some_iff.mp start
      have stretched := setStart_relisted listed vaStart
      have same : flags = (kernel.region head).flags := joinsNext.2
      rw [lastIff] at left
      push Not at left
      have joint := insertBetween_right (kernel.ranges rest) left joinsNext
      rw [← same] at stretched
      simp only [List.headD_cons, Kernel.ranges_cons]
      rw [joint.1, joint.2]
      exact ⟨_, _, _, rfl, stretched, by simp, (Kernel.ranges_middle stretched.ranges_eq).2.1⟩
    · rw [if_neg fun both => left (prevIff.mp both.1), if_neg fun one => left (prevIff.mp one),
        if_neg fun one => right (nextIff.mp one)]
      rcases created : createRegion objects space vaStart vaStop flags (first.getLastD NULL)
        (second.headD NULL) kernel with ⟨region, kernel'⟩
      have relisted := createRegion_relisted listed created
      rw [lastIff] at left
      rw [headIff] at right
      push Not at left right
      have joint := insertBetween_apart left right
      rw [joint.1, joint.2, vmmCreateRegion_calls, created]
      exact ⟨region, kernel', _, rfl, relisted, by simp,
        (Kernel.ranges_middle relisted.ranges_eq).2.1⟩

end Insert

section Add
variable {vaStart vaStop flags : Nat}

/-- No listed region meets the window. -/
def Kernel.Vacant (kernel : Kernel σ) (ptrs : List Nat) (vaStart vaStop : Nat) : Prop :=
  ∀ range ∈ kernel.ranges ptrs, ¬range.Meets vaStart vaStop

/-- The search ends at a split of the list, and a vacant window fits there. -/
theorem vmmAddRangeSearch_split {first second : List Nat} {steps : Nat}
    (listed : SpaceList objects kernel space (first ++ second))
    (canonical : Canonical (kernel.ranges (first ++ second)))
    (nonempty : vaStart < vaStop) (enough : second.length < steps)
    (passed : kernel.Vacant (first ++ second) vaStart vaStop →
      ∀ range ∈ kernel.ranges first, range.stop ≤ vaStart) :
    ∃ first' second', first' ++ second' = first ++ second ∧
      vmmAddRangeSearch kernel vaStart vaStop steps (first.getLastD NULL) (second.headD NULL) =
        .ok (first'.getLastD NULL, second'.headD NULL) ∧
      (kernel.Vacant (first ++ second) vaStart vaStop →
        (∀ range ∈ kernel.ranges first', range.stop ≤ vaStart) ∧
          ∀ range ∈ kernel.ranges second', vaStop ≤ range.start) := by
  induction second generalizing first steps with
  | nil =>
      obtain ⟨steps, rfl⟩ := Nat.exists_eq_succ_of_ne_zero (Nat.ne_of_gt enough)
      exact ⟨first, [], rfl, by simp [vmmAddRangeSearch], fun vacant => ⟨passed vacant, by simp⟩⟩
  | cons head rest ih =>
      obtain ⟨steps, rfl⟩ := Nat.exists_eq_succ_of_ne_zero (Nat.ne_of_gt (Nat.zero_lt_of_lt enough))
      have nonnull : head ≠ NULL := listed.ne_null (by simp)
      have links := listed.linked.links_at
      have order := canonical
      rw [Kernel.ranges_append, Kernel.ranges_cons] at order
      have headNonempty : (kernel.region head).vaStart < (kernel.region head).vaStop :=
        order.nonempty (kernel.region head).range (by simp)
      have headClear : kernel.Vacant (first ++ head :: rest) vaStart vaStop →
          ¬((kernel.region head).vaStart < vaStop ∧ vaStart < (kernel.region head).vaStop) :=
        fun vacant => vacant (kernel.region head).range (by simp [Kernel.ranges_append])
      rw [List.headD_cons, vmmAddRangeSearch, if_neg nonnull]
      split_ifs with stops
      · refine ⟨first, head :: rest, rfl, rfl, fun vacant => ⟨passed vacant, ?_⟩⟩
        have clear := headClear vacant
        have bound : vaStop ≤ (kernel.region head).vaStart := by omega
        intro range member
        rcases List.mem_cons.mp member with rfl | inside
        · exact bound
        · exact bound.trans (headNonempty.le.trans (order.le_after inside))
      · have split : first ++ head :: rest = (first ++ [head]) ++ rest := by simp
        have next : (kernel.region head).next = rest.headD NULL := links.1
        rw [next]
        rw [split] at listed canonical passed ⊢
        have continued := ih listed canonical (Nat.lt_of_succ_lt_succ enough) ?_
        · simpa only [List.getLastD_concat] using continued
        · intro vacant range member
          rw [Kernel.ranges_append] at member
          rcases List.mem_append.mp member with inside | single
          · exact passed vacant range inside
          · obtain rfl := List.mem_singleton.mp single
            have clear := headClear (split ▸ vacant)
            have after : first.getLastD NULL = NULL ∨
                vaStart > (kernel.region (first.getLastD NULL)).vaStart := by
              rcases first.eq_nil_or_concat' with rfl | ⟨init, last, rfl⟩
              · simp
              · right
                have bound : (kernel.region last).vaStop ≤ vaStart :=
                  passed vacant (kernel.region last).range (by simp [Kernel.ranges_append])
                have lastNonempty : (kernel.region last).vaStart < (kernel.region last).vaStop :=
                  order.nonempty (kernel.region last).range (by simp [Kernel.ranges_append])
                simp only [List.getLastD_concat]
                omega
            have beyond : ¬vaStop < (kernel.region head).vaStop := fun short => stops ⟨after, short⟩
            change (kernel.region head).vaStop ≤ vaStart
            omega

/-- Adding a vacant range inserts it into the list of the space. -/
theorem vmmAddRange_vacant {ptrs : List Nat} (listed : SpaceList objects kernel space ptrs)
    (canonical : Canonical (kernel.ranges ptrs)) (bounded : kernel.Bounded ptrs)
    (nonempty : vaStart < vaStop) (flags : Nat) (vacant : kernel.Vacant ptrs vaStart vaStop) :
    ∃ region kernel' ptrs' ranges, vmmAddRange objects space vaStart vaStop flags kernel =
        .ok (region, kernel') ∧
      Relisted objects kernel kernel' space ptrs ptrs' ranges ∧ region ∈ ptrs' ∧
      Inserts (kernel.ranges ptrs) ⟨vaStart, vaStop, flags⟩ ranges (kernel'.region region).range := by
  unfold vmmAddRange
  rw [listed.head]
  cases ptrs with
  | nil =>
      rcases created : createRegion objects space vaStart vaStop flags NULL NULL kernel
        with ⟨region, kernel'⟩
      have empty : SpaceList objects kernel space ([] ++ []) := listed
      rw [List.headD_nil, if_pos rfl, vmmCreateRegion_calls, created]
      have relisted := createRegion_relisted empty created
      refine ⟨region, kernel', _, _, rfl, relisted, by simp, [], [], rfl, by simp, by simp, rfl, ?_⟩
      exact (Kernel.ranges_middle relisted.ranges_eq).2.1
  | cons head rest =>
      have nonnull : head ≠ NULL := listed.ne_null (by simp)
      have whole : SpaceList objects kernel space ([] ++ head :: rest) := listed
      obtain ⟨first, second, split, found, fits⟩ :=
        vmmAddRangeSearch_split whole canonical nonempty (bounded.length_lt canonical) (by simp)
      obtain ⟨before, after⟩ := fits vacant
      rw [List.nil_append] at split
      rw [← split] at listed
      obtain ⟨region, kernel', ptrs', inserted, relisted, member, result⟩ :=
        vmmInsertRange_fits listed flags before after
      rw [split] at relisted
      rw [List.headD_cons, if_neg nonnull]
      change vmmAddRangeSearch kernel vaStart vaStop walkLimit NULL head = _ at found
      rw [found]
      refine ⟨region, kernel', ptrs', _, inserted, relisted, member, kernel.ranges first,
        kernel.ranges second, ?_, before, after, rfl, result⟩
      rw [← Kernel.ranges_append, split]

/-- Adding a range that meets a region panics. -/
theorem vmmAddRange_occupied {ptrs : List Nat} (listed : SpaceList objects kernel space ptrs)
    (canonical : Canonical (kernel.ranges ptrs)) (bounded : kernel.Bounded ptrs)
    (nonempty : vaStart < vaStop) (flags : Nat) (occupied : ¬kernel.Vacant ptrs vaStart vaStop) :
    Outcome.Panics (vmmAddRange objects space vaStart vaStop flags kernel) := by
  unfold vmmAddRange
  rw [listed.head]
  cases ptrs with
  | nil => simp [Kernel.Vacant] at occupied
  | cons head rest =>
      have nonnull : head ≠ NULL := listed.ne_null (by simp)
      have whole : SpaceList objects kernel space ([] ++ head :: rest) := listed
      obtain ⟨first, second, split, found, -⟩ :=
        vmmAddRangeSearch_split whole canonical nonempty (bounded.length_lt canonical) (by simp)
      rw [List.nil_append] at split
      rw [← split] at listed canonical occupied
      rw [List.headD_cons, if_neg nonnull]
      change vmmAddRangeSearch kernel vaStart vaStop walkLimit NULL head = _ at found
      rw [found]
      apply vmmInsertRange_panics listed canonical flags
      rintro ⟨before, after⟩
      apply occupied
      intro range member meets
      rw [Kernel.ranges_append] at member
      rcases List.mem_append.mp member with inside | inside
      · exact absurd (before range inside) (not_le.mpr meets.2)
      · exact absurd (after range inside) (not_le.mpr meets.1)

end Add

section RemoveRange
variable {vaStart vaStop : Nat}

/-- The search ends at the region that holds the address, or at the end of the list. -/
theorem vmmRemoveRangeSearch_split {first second : List Nat} {steps : Nat}
    (listed : SpaceList objects kernel space (first ++ second)) (vaStart : Nat)
    (enough : second.length < steps) :
    (∃ first' region second', first' ++ region :: second' = first ++ second ∧
      (kernel.region region).range.Contains vaStart ∧
      vmmRemoveRangeSearch kernel vaStart steps (second.headD NULL) = .ok region) ∨
    (vmmRemoveRangeSearch kernel vaStart steps (second.headD NULL) = .ok NULL ∧
      ∀ range ∈ kernel.ranges second, ¬range.Contains vaStart) := by
  induction second generalizing first steps with
  | nil =>
      obtain ⟨steps, rfl⟩ := Nat.exists_eq_succ_of_ne_zero (Nat.ne_of_gt enough)
      exact Or.inr ⟨by simp [vmmRemoveRangeSearch], by simp⟩
  | cons head rest ih =>
      obtain ⟨steps, rfl⟩ := Nat.exists_eq_succ_of_ne_zero (Nat.ne_of_gt (Nat.zero_lt_of_lt enough))
      have nonnull : head ≠ NULL := listed.ne_null (by simp)
      have next : (kernel.region head).next = rest.headD NULL := listed.linked.links_at.1
      rw [List.headD_cons, vmmRemoveRangeSearch, if_neg nonnull]
      split_ifs with holds
      · exact Or.inl ⟨first, head, rest, rfl, ⟨holds.1, holds.2⟩, rfl⟩
      · have split : first ++ head :: rest = (first ++ [head]) ++ rest := by simp
        rw [next, split]
        rw [split] at listed
        rcases ih listed (Nat.lt_of_succ_lt_succ enough) with found | ⟨missed, absent⟩
        · exact Or.inl found
        · refine Or.inr ⟨missed, ?_⟩
          intro range member
          rcases List.mem_cons.mp member with rfl | inside
          · exact fun inside => holds ⟨inside.1, inside.2⟩
          · exact absent range inside

/-- Splitting a region removes it and adds its two remaining pieces. -/
theorem splitRegion_relisted {first second : List Nat} {region : Nat}
    (listed : SpaceList objects kernel space (first ++ region :: second))
    (canonical : Canonical (kernel.ranges (first ++ region :: second)))
    (bounded : kernel.Bounded (first ++ region :: second)) (nonempty : vaStart < vaStop)
    (lower : (kernel.region region).vaStart < vaStart)
    (upper : vaStop < (kernel.region region).vaStop) :
    ∃ left middle right kernel' ptrs' ranges,
      vmmAddRange objects space (kernel.region region).vaStart vaStart (kernel.region region).flags
        (removeRegion objects space region kernel) = .ok (left, middle) ∧
      vmmAddRange objects space vaStop (kernel.region region).vaStop (kernel.region region).flags
        middle = .ok (right, kernel') ∧
      Relisted objects kernel kernel' space (first ++ region :: second) ptrs' ranges ∧
      Canonical ranges ∧ ∀ va flags, Denotes ranges va flags ↔
        Denotes (kernel.ranges (first ++ region :: second)) va flags ∧
          ¬(vaStart ≤ va ∧ va < vaStop) := by
  unfold Kernel.Bounded at bounded
  rw [Kernel.ranges_append, Kernel.ranges_cons] at canonical bounded ⊢
  set range := (kernel.region region).range with rangeEq
  change range.start < vaStart at lower
  change vaStop < range.stop at upper
  have removed := removeRegion_relisted listed
  have rest : Canonical (kernel.ranges first ++ kernel.ranges second) := by
    have carved := carve_canonical canonical le_rfl (canonical.nonempty range (by simp)) le_rfl
    simpa [carve] using carved
  have empty : ∀ va, range.start ≤ va → va < range.stop → ∀ flags,
      ¬Denotes (kernel.ranges first ++ kernel.ranges second) va flags := by
    rintro va above below flags ⟨other, member, inside, -⟩
    rcases List.mem_append.mp member with before | after
    · exact absurd (canonical.before_le before) (not_le.mpr (above.trans_lt inside.2))
    · exact absurd (canonical.le_after after) (not_le.mpr (inside.1.trans_lt below))
  have vacantLeft : (removeRegion objects space region kernel).Vacant (first ++ second)
      range.start vaStart := by
    rw [Kernel.Vacant, removed.ranges_eq, rest.vacant_iff lower]
    exact fun va above below => empty va above (below.trans (nonempty.trans upper))
  have restBounded : ∀ va flags,
      Denotes (kernel.ranges first ++ kernel.ranges second) va flags → va < 2 ^ 64 - 1 := by
    intro va flags denoted
    apply bounded va flags
    rw [denotes_append] at denoted ⊢
    exact denoted.imp_right fun old => (denotes_cons _ _ _ _).mpr (Or.inr old)
  have stopBounded : range.stop - 1 < 2 ^ 64 - 1 :=
    bounded _ range.flags ⟨range, by simp, ⟨by omega, by omega⟩, rfl⟩
  obtain ⟨left, middle, ptrs₁, ranges₁, added, relisted, -, inserts⟩ :=
    vmmAddRange_vacant removed.listed (by rw [removed.ranges_eq]; exact rest)
      (by rw [Kernel.Bounded, removed.ranges_eq]; exact restBounded) lower range.flags vacantLeft
  rw [removed.ranges_eq] at inserts
  have canonical₁ := inserts.canonical rest lower
  have denotes₁ := inserts.denotes rest lower
  have vacantRight : middle.Vacant ptrs₁ vaStop range.stop := by
    rw [Kernel.Vacant, relisted.ranges_eq, canonical₁.vacant_iff upper]
    intro va above below flags denoted
    rcases (denotes₁ va flags).mp denoted with ⟨inside, -⟩ | old
    · exact absurd inside.2 (not_lt.mpr (nonempty.le.trans above))
    · exact empty va ((lower.trans nonempty).le.trans above) below flags old
  have bounded₁ : ∀ va flags, Denotes ranges₁ va flags → va < 2 ^ 64 - 1 := by
    intro va flags denoted
    rcases (denotes₁ va flags).mp denoted with ⟨inside, -⟩ | old
    · have below : va < vaStart := inside.2
      omega
    · exact restBounded va flags old
  obtain ⟨right, kernel', ptrs₂, ranges₂, added', relisted', -, inserts'⟩ :=
    vmmAddRange_vacant relisted.listed (by rw [relisted.ranges_eq]; exact canonical₁)
      (by rw [Kernel.Bounded, relisted.ranges_eq]; exact bounded₁) upper range.flags vacantRight
  rw [relisted.ranges_eq] at inserts'
  refine ⟨left, middle, right, kernel', ptrs₂, ranges₂, added, added',
    (removed.trans relisted).trans relisted', inserts'.canonical canonical₁ upper, ?_⟩
  intro va flags
  rw [← carve_denotes canonical lower.le nonempty upper.le, inserts'.denotes canonical₁ upper,
    denotes₁, carve, if_pos lower, if_pos upper]
  simp only [denotes_append, denotes_cons, denotes_nil, or_false]
  tauto

/-- Removing a window inside one region takes exactly its addresses out of the space. -/
theorem vmmRemoveRange_contained {ptrs : List Nat} (listed : SpaceList objects kernel space ptrs)
    (canonical : Canonical (kernel.ranges ptrs)) (bounded : kernel.Bounded ptrs)
    (nonempty : vaStart < vaStop)
    (contained : ∃ range ∈ kernel.ranges ptrs, range.start ≤ vaStart ∧ vaStop ≤ range.stop) :
    ∃ kernel' ptrs' ranges, vmmRemoveRange objects space vaStart vaStop kernel = .ok kernel' ∧
      Relisted objects kernel kernel' space ptrs ptrs' ranges ∧ Canonical ranges ∧
      ∀ va flags, Denotes ranges va flags ↔
        Denotes (kernel.ranges ptrs) va flags ∧ ¬(vaStart ≤ va ∧ va < vaStop) := by
  obtain ⟨holder, member, lower, upper⟩ := contained
  have whole : SpaceList objects kernel space ([] ++ ptrs) := listed
  have holds : holder.Contains vaStart := ⟨lower, nonempty.trans_le upper⟩
  unfold vmmRemoveRange
  rw [listed.head]
  rcases vmmRemoveRangeSearch_split whole vaStart (bounded.length_lt canonical) with
    ⟨first, region, second, split, inside, found⟩ | ⟨missed, absent⟩
  · rw [found]
    rw [List.nil_append] at split
    subst split
    have nonnull : region ≠ NULL := listed.ne_null (by simp)
    have order := canonical
    rw [Kernel.ranges_append, Kernel.ranges_cons] at order member
    obtain rfl := order.eq_of_contains member inside holds
    have within : ¬vaStop > (kernel.region region).vaStop := not_lt.mpr upper
    have carvedCanonical := carve_canonical order lower nonempty upper
    have carvedDenotes := carve_denotes order lower nonempty upper
    rw [Kernel.ranges_append, Kernel.ranges_cons]
    simp only [bind, Except.bind, if_neg nonnull, if_neg within]
    change (kernel.region region).vaStart ≤ vaStart at lower
    change vaStop ≤ (kernel.region region).vaStop at upper
    split_ifs with same sameStart sameStop
    · have nothing : carve (kernel.region region).range vaStart vaStop = [] := by
        simp [carve, VmmRegion.range, same.1, same.2]
      rw [nothing, List.append_nil] at carvedCanonical
      simp only [nothing, List.append_nil] at carvedDenotes
      exact ⟨_, _, _, rfl, removeRegion_relisted listed, carvedCanonical, carvedDenotes⟩
    · have short : vaStop < (kernel.region region).vaStop := by omega
      have tail : carve (kernel.region region).range vaStart vaStop =
          [⟨vaStop, (kernel.region region).vaStop, (kernel.region region).flags⟩] := by
        simp [carve, VmmRegion.range, sameStart, short]
      rw [tail, List.append_assoc, List.singleton_append] at carvedCanonical
      simp only [tail, List.append_assoc, List.singleton_append] at carvedDenotes
      exact ⟨_, _, _, rfl, setStart_relisted listed vaStop, carvedCanonical, carvedDenotes⟩
    · have later : (kernel.region region).vaStart < vaStart := by omega
      have front : carve (kernel.region region).range vaStart vaStop =
          [⟨(kernel.region region).vaStart, vaStart, (kernel.region region).flags⟩] := by
        simp [carve, VmmRegion.range, later, sameStop]
      rw [front, List.append_assoc, List.singleton_append] at carvedCanonical
      simp only [front, List.append_assoc, List.singleton_append] at carvedDenotes
      exact ⟨_, _, _, rfl, setStop_relisted listed vaStart, carvedCanonical, carvedDenotes⟩
    · have later : (kernel.region region).vaStart < vaStart := by omega
      have short : vaStop < (kernel.region region).vaStop := by omega
      obtain ⟨left, middle, right, kernel', ptrs', ranges, added, added', relisted, facts⟩ :=
        splitRegion_relisted listed canonical bounded nonempty later short
      rw [Kernel.ranges_append, Kernel.ranges_cons] at facts
      rw [vmmRemoveRegion_calls]
      dsimp only
      rw [added]
      dsimp only
      rw [added']
      exact ⟨kernel', ptrs', ranges, rfl, relisted, facts⟩
  · exact absurd holds (absent holder member)

/-- Removing a window that no region contains panics. -/
theorem vmmRemoveRange_uncontained {ptrs : List Nat} (listed : SpaceList objects kernel space ptrs)
    (canonical : Canonical (kernel.ranges ptrs)) (bounded : kernel.Bounded ptrs)
    (uncontained : ¬∃ range ∈ kernel.ranges ptrs, range.start ≤ vaStart ∧ vaStop ≤ range.stop) :
    Outcome.Panics (vmmRemoveRange objects space vaStart vaStop kernel) := by
  have whole : SpaceList objects kernel space ([] ++ ptrs) := listed
  unfold vmmRemoveRange
  rw [listed.head]
  rcases vmmRemoveRangeSearch_split whole vaStart (bounded.length_lt canonical) with
    ⟨first, region, second, split, inside, found⟩ | ⟨missed, absent⟩
  · rw [found]
    rw [List.nil_append] at split
    subst split
    have nonnull : region ≠ NULL := listed.ne_null (by simp)
    have beyond : vaStop > (kernel.region region).vaStop := by
      by_contra within
      exact uncontained ⟨_, by simp [Kernel.ranges_append], inside.1, not_lt.mp within⟩
    simp only [bind, Except.bind, if_neg nonnull, if_pos beyond]
    exact Outcome.panics_panic _
  · rw [missed]
    exact Outcome.panics_panic _

end RemoveRange

end B0s
