import B0s.Proof.Mm.RegionRange
import B0s.Construction.Mm.Vmm

/-
This file proves where the search of `vmm_alloc_between` ends, and compares the place with the free
intervals of the window.
-/

namespace B0s
open DoublyLinked RangeMap

variable {σ : Type}

/-- The search enters a gap at the end of the region before it. -/
def gapStart (lower : Nat) (passed : List (Range Nat Nat)) : Nat := (passed.getLast?.map Range.stop).getD lower

@[simp] theorem gapStart_concat (lower : Nat) (passed : List (Range Nat Nat)) (range : Range Nat Nat) :
    gapStart lower (passed ++ [range]) = range.stop := by
  simp [gapStart]

/-- The search passes a region that ends below the bound and a region behind too small a gap. -/
def Passes (lower need : Nat) (passed : List (Range Nat Nat)) (range : Range Nat Nat) : Prop :=
  range.stop < lower ∨ subU64 range.start (max (gapStart lower passed) lower) < need

/-- The search passes every region of the list. -/
def AllPassed (lower need : Nat) (ranges : List (Range Nat Nat)) : Prop :=
  ∀ before range after, ranges = before ++ range :: after → Passes lower need before range

/-- The search ends behind the passed regions, at the end of the list or at a gap. -/
structure GapFound (lower need : Nat) (passed rest : List (Range Nat Nat)) (va : Nat) : Prop where
  passes : AllPassed lower need passed
  ends : rest = [] → va = gapStart lower passed
  gap : ∀ head tail, rest = head :: tail →
    ¬Passes lower need passed head ∧ va = max (gapStart lower passed) lower

theorem allPassed_nil (lower need : Nat) : AllPassed lower need [] := by
  intro before range after split
  simp at split

theorem AllPassed.concat {lower need : Nat} {passed : List (Range Nat Nat)} {range : Range Nat Nat}
    (passes : AllPassed lower need passed) (last : Passes lower need passed range) :
    AllPassed lower need (passed ++ [range]) := by
  intro before other after split
  rcases after.eq_nil_or_concat' with rfl | ⟨init, final, rfl⟩
  · obtain ⟨rfl, same⟩ := List.append_inj' split rfl
    obtain rfl := List.singleton_inj.mp same
    exact last
  · have shape : passed ++ [range] = (before ++ other :: init) ++ [final] := by simpa using split
    obtain ⟨rfl, -⟩ := List.append_inj' shape rfl
    exact passes before other init rfl

theorem AllPassed.init {lower need : Nat} {passed : List (Range Nat Nat)} {range : Range Nat Nat}
    (passes : AllPassed lower need (passed ++ [range])) : AllPassed lower need passed ∧ Passes lower need passed range := by
  refine ⟨?_, passes passed range [] rfl⟩
  intro before other after split
  exact passes before other (after ++ [range]) (by simp [split])

/-- The search does not end before a region that another search passes. -/
theorem GapFound.not_before {lower need va va' : Nat} {passed rest rest' : List (Range Nat Nat)}
    {head : Range Nat Nat} {tail : List (Range Nat Nat)} (found : GapFound lower need passed rest va)
    (later : GapFound lower need (passed ++ head :: tail) rest' va') : rest ≠ head :: (tail ++ rest') := by
  intro shape
  exact (found.gap head _ shape).1 (later.passes passed head tail rfl)

/-- The search of a list ends at one place. -/
theorem GapFound.unique {lower need va va' : Nat} {passed passed' rest rest' : List (Range Nat Nat)}
    (found : GapFound lower need passed rest va) (found' : GapFound lower need passed' rest' va')
    (same : passed ++ rest = passed' ++ rest') : va = va' := by
  have split : passed = passed' ∧ rest = rest' := by
    rcases List.append_eq_append_iff.mp same with ⟨middle, rfl, shape⟩ | ⟨middle, rfl, shape⟩
    · cases middle with
      | nil => exact ⟨by simp, shape⟩
      | cons head tail => exact absurd shape (found.not_before found')
    · cases middle with
      | nil => exact ⟨by simp, shape.symm⟩
      | cons head tail => exact absurd shape (found'.not_before found)
  obtain ⟨rfl, rfl⟩ := split
  cases rest with
  | nil => rw [found.ends rfl, found'.ends rfl]
  | cons head tail => rw [(found.gap head tail rfl).2, (found'.gap head tail rfl).2]

section
variable {objects : ObjectAllocator σ} {kernel : Kernel σ} {space : Nat}

/-- The search ends at a split of the list where a gap is found. -/
theorem vmmAllocBetweenSearch_found {first second : List Nat} {lowerVa sizeInBytes padding steps : Nat}
    (listed : SpaceList objects kernel space (first ++ second)) (enough : second.length < steps)
    (passes : AllPassed lowerVa (u64 (sizeInBytes + padding)) (kernel.ranges first)) :
    ∃ passed rest va, passed ++ rest = first ++ second ∧
      vmmAllocBetweenSearch kernel lowerVa sizeInBytes padding steps (gapStart lowerVa (kernel.ranges first))
        (first.getLastD NULL) (second.headD NULL) = .ok (va, passed.getLastD NULL, rest.headD NULL) ∧
      GapFound lowerVa (u64 (sizeInBytes + padding)) (kernel.ranges passed) (kernel.ranges rest) va := by
  induction second generalizing first steps with
  | nil =>
      obtain ⟨steps, rfl⟩ := Nat.exists_eq_succ_of_ne_zero (Nat.ne_of_gt enough)
      refine ⟨first, [], _, rfl, by simp [vmmAllocBetweenSearch], passes, fun _ => rfl, ?_⟩
      intro head tail split
      simp at split
  | cons head rest ih =>
      obtain ⟨steps, rfl⟩ := Nat.exists_eq_succ_of_ne_zero (Nat.ne_of_gt (Nat.zero_lt_of_lt enough))
      have nonnull : head ≠ NULL := listed.ne_null (by simp)
      have next : (kernel.region head).next = rest.headD NULL := listed.linked.links_at.1
      have split : first ++ head :: rest = (first ++ [head]) ++ rest := by simp
      have ranges : kernel.ranges (first ++ [head]) = kernel.ranges first ++ [(kernel.region head).range] := by
        simp [Kernel.ranges_append]
      have continued : Passes lowerVa (u64 (sizeInBytes + padding)) (kernel.ranges first) (kernel.region head).range →
          ∃ passed rest' va, passed ++ rest' = first ++ head :: rest ∧
            vmmAllocBetweenSearch kernel lowerVa sizeInBytes padding steps (kernel.region head).vaStop head
              (rest.headD NULL) = .ok (va, passed.getLastD NULL, rest'.headD NULL) ∧
            GapFound lowerVa (u64 (sizeInBytes + padding)) (kernel.ranges passed) (kernel.ranges rest') va := by
        intro pass
        have later := ih (split ▸ listed) (Nat.lt_of_succ_lt_succ enough) (ranges ▸ passes.concat pass)
        rw [ranges, gapStart_concat, List.getLastD_concat, ← split] at later
        exact later
      rw [List.headD_cons, vmmAllocBetweenSearch, if_neg nonnull, next]
      split_ifs with below gap
      · exact continued (Or.inl below)
      · refine ⟨first, head :: rest, _, rfl, rfl, passes, fun none => by simp at none, ?_⟩
        intro front tail shape
        obtain ⟨rfl, -⟩ := List.cons.inj shape
        exact ⟨fun pass => pass.elim below (not_lt.mpr gap), rfl⟩
      · exact continued (Or.inr (not_le.mp gap))

end

/-- This interval of the window is free and cannot be extended inside it. -/
structure FreeInterval (ranges : List (Range Nat Nat)) (lower upper start stop : Nat) : Prop where
  nonempty : start < stop
  low : lower ≤ start
  high : stop ≤ upper
  free : ∀ point, start ≤ point → point < stop → ∀ flags, ¬Denotes ranges point flags
  left : start = lower ∨ ∃ flags, Denotes ranges (start - 1) flags
  right : stop = upper ∨ ∃ flags, Denotes ranges stop flags

/-- A free interval is accepted when it holds the bytes and ends, if the window does not, above them. -/
def Accepted (ranges : List (Range Nat Nat)) (lower upper need start : Nat) : Prop :=
  ∃ stop, FreeInterval ranges lower upper start stop ∧ start + need ≤ stop ∧ start + need < upper

/-- The region list touches the lower bound of the window from above only, and it reaches the window. -/
structure ClearsLower (ranges : List (Range Nat Nat)) (lower : Nat) : Prop where
  outside : ∀ range ∈ ranges, range.stop < lower ∨ lower ≤ range.start
  reaches : ∀ last, ranges.getLast? = some last → lower ≤ last.start

section
variable {lower upper need va start stop : Nat} {passed rest : List (Range Nat Nat)}

/-- A region that is passed does not end in a free interval that holds the bytes, or behind it. -/
theorem AllPassed.le_of_free (passes : AllPassed lower need passed) (bounded : ∀ range ∈ passed, range.start < 2 ^ 64)
    (low : lower ≤ start) (holds : start + need ≤ stop) (free : ∀ range ∈ passed, ¬range.Meets start stop) :
    gapStart lower passed ≤ start := by
  induction passed using List.reverseRecOn with
  | nil => exact low
  | append_singleton init last ih =>
      obtain ⟨before, pass⟩ := passes.init
      have earlier := ih before (fun range member => bounded range (List.mem_append_left _ member))
        fun range member => free range (List.mem_append_left _ member)
      have lastFree := free last (by simp)
      have lastBound := bounded last (by simp)
      rw [gapStart_concat]
      by_contra behind
      have above : stop ≤ last.start := not_lt.mp fun meets => lastFree ⟨meets, not_le.mp behind⟩
      rcases pass with below | small
      · omega
      · have entered : max (gapStart lower init) lower ≤ start := max_le earlier low
        unfold subU64 at small
        omega

/-- The search does not stop behind the start of an accepted interval. -/
theorem GapFound.le_of_accepted (found : GapFound lower need passed rest va) (canonical : Canonical (passed ++ rest))
    (bounded : ∀ range ∈ passed, range.start < 2 ^ 64) (accepted : Accepted (passed ++ rest) lower upper need start) :
    va ≤ start := by
  obtain ⟨stop, interval, holds, -⟩ := accepted
  have free := (canonical.vacant_iff interval.nonempty).mpr interval.free
  have entered := found.passes.le_of_free bounded interval.low holds
    fun range member => free range (List.mem_append_left _ member)
  cases rest with
  | nil => exact (found.ends rfl).trans_le entered
  | cons head tail => exact (found.gap head tail rfl).2.trans_le (max_le entered interval.low)

/-- The passed regions end where the search enters the gap or before. -/
theorem stop_le_gapStart (canonical : Canonical passed) : ∀ range ∈ passed, range.stop ≤ gapStart lower passed := by
  apply canonical.stop_le_of_last
  intro last final
  simp [gapStart, final]

/-- The search ends behind the passed regions. -/
theorem GapFound.behind (found : GapFound lower need passed rest va) (canonical : Canonical (passed ++ rest)) :
    ∀ range ∈ passed, range.stop ≤ va := by
  intro range member
  have before := @stop_le_gapStart lower passed ((canonical_append _ _).mp canonical).1 range member
  cases rest with
  | nil => exact before.trans (found.ends rfl).ge
  | cons head tail => exact before.trans ((le_max_left _ _).trans (found.gap head tail rfl).2.ge)

/-- A passed region does not reach the lower bound from below, unless the wrapped gap in front of it is too small. -/
theorem AllPassed.clear {before after : List (Range Nat Nat)} {range : Range Nat Nat}
    (passes : AllPassed lower need (before ++ range :: after)) (canonical : Canonical (before ++ range :: after))
    (bounded : lower < 2 ^ 64) (below : range.start < lower) (reaches : lower ≤ range.stop) :
    range.start + 2 ^ 64 - lower < need := by
  have entered : gapStart lower before ≤ lower := by
    rcases before.eq_nil_or_concat' with rfl | ⟨init, last, rfl⟩
    · exact le_rfl
    · have seam := ((canonical_append _ _).mp canonical).2.2.1 last (by simp) range (by simp)
      rw [gapStart_concat]
      omega
  rcases passes before range after rfl with outside | small
  · omega
  · rw [max_eq_right entered] at small
    unfold subU64 at small
    omega

/-- The search ends at the lower bound or at the end of a passed region. -/
theorem GapFound.place (found : GapFound lower need passed rest va) :
    va = lower ∨ ∃ range ∈ passed, va = range.stop := by
  have entered : gapStart lower passed = lower ∨ ∃ range ∈ passed, gapStart lower passed = range.stop := by
    rcases passed.eq_nil_or_concat' with rfl | ⟨init, last, rfl⟩
    · exact Or.inl rfl
    · exact Or.inr ⟨last, by simp, gapStart_concat _ _ _⟩
  cases rest with
  | nil =>
      rw [found.ends rfl]
      exact entered
  | cons head tail =>
      rw [(found.gap head tail rfl).2]
      rcases max_choice (gapStart lower passed) lower with same | same
      · rw [same]
        exact entered
      · exact Or.inl same

/-- A gap that does not end below its start holds the bytes. -/
theorem GapFound.room {head : Range Nat Nat} {tail : List (Range Nat Nat)}
    (found : GapFound lower need passed (head :: tail) va) (order : va ≤ head.start) : va + need ≤ head.start := by
  obtain ⟨stays, rfl⟩ := found.gap head tail rfl
  have room : need ≤ subU64 head.start (max (gapStart lower passed) lower) :=
    not_lt.mp fun small => stays (Or.inr small)
  unfold subU64 at room
  omega

/-- A list that clears the lower bound lets the search end inside the window, before the next region. -/
theorem GapFound.inside (found : GapFound lower need passed rest va) (canonical : Canonical (passed ++ rest))
    (clears : ClearsLower (passed ++ rest) lower) :
    lower ≤ va ∧ ∀ range ∈ rest, va ≤ range.start := by
  cases rest with
  | nil =>
      refine ⟨?_, by simp⟩
      rw [found.ends rfl]
      rcases passed.eq_nil_or_concat' with rfl | ⟨init, last, rfl⟩
      · exact le_rfl
      · have reaches := clears.reaches last (by simp)
        have nonempty := canonical.nonempty last (by simp)
        rw [gapStart_concat]
        omega
  | cons head tail =>
      obtain ⟨stays, rfl⟩ := found.gap head tail rfl
      have parts := (canonical_append _ _).mp canonical
      have headAbove : lower ≤ head.start :=
        (clears.outside head (by simp)).resolve_left fun below => stays (Or.inl below)
      have seam : gapStart lower passed ≤ head.start := by
        rcases passed.eq_nil_or_concat' with rfl | ⟨init, last, rfl⟩
        · exact headAbove
        · rw [gapStart_concat]
          exact parts.2.2.1 last (by simp) head (by simp)
      refine ⟨le_max_right _ _, ?_⟩
      apply parts.2.1.le_start_of_head
      intro front isHead
      obtain rfl := Option.some.inj isHead
      exact max_le seam headAbove

/-- A place inside the window with room below the upper bound starts an accepted interval. -/
theorem GapFound.accepted (found : GapFound lower need passed rest va) (canonical : Canonical (passed ++ rest))
    (clears : ClearsLower (passed ++ rest) lower) (positive : 0 < need) (room : va + need < upper) : Accepted (passed ++ rest) lower upper need va := by
  obtain ⟨low, before⟩ := found.inside canonical clears
  have behind := found.behind canonical
  have left : va = lower ∨ ∃ flags, Denotes (passed ++ rest) (va - 1) flags := by
    by_cases first : va = lower
    · exact Or.inl first
    · right
      -- Above the bound the search stands at the end of the last passed region.
      have entered : va = gapStart lower passed := by
        cases rest with
        | nil => exact found.ends rfl
        | cons head tail =>
            have place := (found.gap head tail rfl).2
            omega
      rcases passed.eq_nil_or_concat' with rfl | ⟨init, last, rfl⟩
      · exact absurd entered first
      · rw [gapStart_concat] at entered
        have nonempty := canonical.nonempty last (by simp)
        refine ⟨last.flags, last, by simp, ⟨?_, ?_⟩, rfl⟩ <;> omega
  have free : ∀ bound, (∀ range ∈ rest, bound ≤ range.start) → ∀ point, va ≤ point → point < bound →
      ∀ flags, ¬Denotes (passed ++ rest) point flags := by
    intro bound above point lower' upper'
    exact not_denotes_between (fun range inside => (behind range inside).trans lower')
      fun range inside => upper'.trans_le (above range inside)
  cases rest with
  | nil => exact ⟨upper, ⟨by omega, low, le_rfl, free upper (by simp), left, Or.inl rfl⟩, room.le, room⟩
  | cons head tail =>
      have gap := found.room (before head (by simp))
      have headNonempty := canonical.nonempty head (by simp)
      have headFirst : ∀ range ∈ head :: tail, head.start ≤ range.start := by
        apply ((canonical_append _ _).mp canonical).2.1.le_start_of_head
        intro front isHead
        exact (Option.some.inj isHead) ▸ le_rfl
      by_cases inside : head.start < upper
      · refine ⟨head.start, ⟨by omega, low, inside.le, free _ headFirst, left, Or.inr ⟨head.flags, ?_⟩⟩, gap, room⟩
        exact ⟨head, by simp, ⟨le_rfl, headNonempty⟩, rfl⟩
      · refine ⟨upper, ⟨by omega, low, le_rfl, free _ ?_, left, Or.inl rfl⟩, room.le, room⟩
        exact fun range member => (not_lt.mp inside).trans (headFirst range member)

end

end B0s
