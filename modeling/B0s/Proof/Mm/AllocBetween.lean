import B0s.Proof.Mm.AllocAt
import B0s.Proof.Mm.FrameDemand
import B0s.Proof.Mm.GapSearch

/-
This file proves what `vmm_alloc_between` returns, and that its regions keep a page of distance.
-/

namespace B0s
open DoublyLinked RangeMap

variable {σ : Type}

section
variable {alloc : KernelAllocator σ} {member : Nat → Prop} {lists : Nat → List Nat} {kernel kernel' : Kernel σ}
  {space lowerVa upperVa sizeInPages flags va : Nat} {passed rest : List Nat}

/-- The sizes and the addresses of a call do not wrap. -/
structure BetweenRoom (kernel : Kernel σ) (ptrs : List Nat) (lowerVa sizeInPages : Nat) : Prop where
  lower : lowerVa + (sizeInPages * pageSizeInBytes + 2 * pageSizeInBytes) < 2 ^ 64
  regions : ∀ range ∈ kernel.ranges ptrs, range.stop + (sizeInPages * pageSizeInBytes + 2 * pageSizeInBytes) < 2 ^ 64

theorem BetweenRoom.bound (room : BetweenRoom kernel (passed ++ rest) lowerVa sizeInPages) {need : Nat}
    (found : GapFound lowerVa need (kernel.ranges passed) (kernel.ranges rest) va) :
    va + (sizeInPages * pageSizeInBytes + 2 * pageSizeInBytes) < 2 ^ 64 := by
  rcases found.place with same | ⟨range, inside, same⟩
  · rw [same]
    exact room.lower
  · rw [same]
    exact room.regions range (by rw [Kernel.ranges_append]; exact List.mem_append_left _ inside)

/-- The sums behind a search that ends low enough do not wrap. -/
theorem vmmAllocBetween_eq {calls : KernelCalls σ} {prev cur : Nat}
    (bound : va + (sizeInPages * pageSizeInBytes + 2 * pageSizeInBytes) < 2 ^ 64)
    (search : vmmAllocBetweenSearch kernel lowerVa (sizeInPages * pageSizeInBytes) (2 * pageSizeInBytes) walkLimit
      lowerVa NULL (kernel.space space).region = .ok (va, prev, cur)) :
    vmmAllocBetween calls space lowerVa upperVa sizeInPages flags kernel =
      if va + sizeInPages * pageSizeInBytes + 2 * pageSizeInBytes ≥ upperVa then .ok (NULL, kernel)
      else vmmInsertRange calls.toObjectCalls space prev cur (va + pageSizeInBytes)
          (va + pageSizeInBytes + sizeInPages * pageSizeInBytes) flags kernel >>= fun inserted =>
        if inserted.1 = NULL then .ok (NULL, inserted.2)
        else (vmmMapPages calls space inserted.1 flags .vmmAllocBetweenOverwrite walkLimit (va + pageSizeInBytes)
          inserted.2).map fun kernel => (va + pageSizeInBytes, kernel) := by
  have size : u64 (sizeInPages * pageSizeInBytes) = sizeInPages * pageSizeInBytes :=
    Nat.mod_eq_of_lt (by omega)
  have stop : u64 (va + sizeInPages * pageSizeInBytes + 2 * pageSizeInBytes) =
      va + sizeInPages * pageSizeInBytes + 2 * pageSizeInBytes := Nat.mod_eq_of_lt (by omega)
  have start : u64 (va + pageSizeInBytes) = va + pageSizeInBytes := Nat.mod_eq_of_lt (by omega)
  have ends : u64 (va + pageSizeInBytes + sizeInPages * pageSizeInBytes) =
      va + pageSizeInBytes + sizeInPages * pageSizeInBytes := Nat.mod_eq_of_lt (by omega)
  rw [← size] at search
  rw [vmmAllocBetween_searched search, size, stop, start, ends]

/-- A gap with a page of distance on both sides gets a region of its own. -/
theorem vmmInsertRange_apart {start stop : Nat} {objects : ObjectAllocator σ}
    (listed : SpaceList objects kernel space (passed ++ rest))
    (before : ∀ range ∈ kernel.ranges passed, range.stop < start)
    (after : ∀ range ∈ kernel.ranges rest, stop < range.start) :
    ∃ region middle ptrs, vmmInsertRange objects space (passed.getLastD NULL) (rest.headD NULL) start stop flags kernel =
        .ok (region, middle) ∧ region ≠ NULL ∧ (middle.region region).vaStop = stop ∧
      Relisted objects kernel middle space (passed ++ rest) ptrs
        (kernel.ranges passed ++ ⟨start, stop, flags⟩ :: kernel.ranges rest) := by
  obtain ⟨region, middle, ptrs, inserted, relisted, inside, range⟩ := vmmInsertRange_fits listed flags
    (fun range member => (before range member).le) (fun range member => (after range member).le)
  have left : ∀ last, (kernel.ranges passed).getLast? = some last → ¬last.Joins ⟨start, stop, flags⟩ := by
    intro last final joins
    exact absurd joins.1 (ne_of_lt (before last (List.mem_of_getLast? final)))
  have right : ∀ head, (kernel.ranges rest).head? = some head → ¬Range.Joins ⟨start, stop, flags⟩ head := by
    intro head first joins
    exact absurd joins.1 (ne_of_lt (after head (List.mem_of_mem_head? first)))
  obtain ⟨same, shape⟩ := insertBetween_apart left right
  rw [shape] at relisted
  rw [same] at range
  exact ⟨region, middle, ptrs, inserted, relisted.listed.ne_null inside, congrArg Range.stop range, relisted⟩

/-- A range that touches no other gets a record. -/
theorem vmmInsertRange_creates {start stop : Nat} (objects : ObjectCalls σ)
    (before : ∀ range ∈ kernel.ranges passed, range.stop < start)
    (after : ∀ range ∈ kernel.ranges rest, stop < range.start) :
    vmmInsertRange objects space (passed.getLastD NULL) (rest.headD NULL) start stop flags kernel =
      vmmCreateRegion objects space start stop flags (passed.getLastD NULL) (rest.headD NULL) kernel := by
  have prevApart : passed.getLastD NULL ≠ NULL → (kernel.region (passed.getLastD NULL)).vaStop < start := by
    rcases passed.eq_nil_or_concat' with rfl | ⟨init, last, rfl⟩
    · simp
    · have below : (kernel.region last).vaStop < start := before (kernel.region last).range (by simp [Kernel.ranges_append])
      simp only [List.getLastD_concat]
      exact fun _ => below
  have nextApart : rest.headD NULL ≠ NULL → stop < (kernel.region (rest.headD NULL)).vaStart := by
    cases rest with
    | nil => simp
    | cons head tail =>
        have above : stop < (kernel.region head).vaStart := after (kernel.region head).range (by simp)
        exact fun _ => above
  unfold vmmInsertRange
  dsimp only
  rw [if_neg fun overlap => not_lt_of_gt (nextApart overlap.1) overlap.2,
    if_neg fun overlap => not_lt_of_gt (prevApart overlap.1) overlap.2,
    if_neg fun both => ne_of_gt (prevApart both.1.1) both.1.2.1, if_neg fun left => ne_of_gt (prevApart left.1) left.2.1,
    if_neg fun right => ne_of_lt (nextApart right.1) right.2.1]

/-- A region that touches no other takes one record. -/
theorem vmmInsertRange_record {start stop region : Nat} {objects : ObjectAllocator σ} {middle : Kernel σ}
    (before : ∀ range ∈ kernel.ranges passed, range.stop < start)
    (after : ∀ range ∈ kernel.ranges rest, stop < range.start)
    (inserted : vmmInsertRange objects space (passed.getLastD NULL) (rest.headD NULL) start stop flags kernel =
      .ok (region, middle)) : middle.env = (objects.blockAlloc .vmmRegion kernel.env).2 := by
  rw [vmmInsertRange_creates objects.calls before after, vmmCreateRegion_calls] at inserted
  have created := congrArg (fun result => result.2.env) (Except.ok.inj inserted)
  rw [← created]
  exact createRegion_env objects kernel space start stop flags _ _

/-- A gap with room for the padding gets a region of its own, and the call maps it. -/
theorem vmmAllocBetween_gap (listed : SpaceList alloc.toObjectAllocator kernel space (passed ++ rest))
    (bound : va + (sizeInPages * pageSizeInBytes + 2 * pageSizeInBytes) < 2 ^ 64)
    (search : vmmAllocBetweenSearch kernel lowerVa (sizeInPages * pageSizeInBytes) (2 * pageSizeInBytes) walkLimit
      lowerVa NULL (kernel.space space).region = .ok (va, passed.getLastD NULL, rest.headD NULL))
    (below : va + sizeInPages * pageSizeInBytes + 2 * pageSizeInBytes < upperVa)
    (behind : ∀ range ∈ kernel.ranges passed, range.stop ≤ va)
    (after : ∀ range ∈ kernel.ranges rest, va + sizeInPages * pageSizeInBytes + 2 * pageSizeInBytes ≤ range.start) :
    ∃ region middle ptrs, vmmAllocBetween alloc space lowerVa upperVa sizeInPages flags kernel =
        (vmmMapPages alloc space region flags .vmmAllocBetweenOverwrite walkLimit (va + pageSizeInBytes) middle).map
          (fun kernel => (va + pageSizeInBytes, kernel)) ∧
      (middle.region region).vaStop = va + pageSizeInBytes + sizeInPages * pageSizeInBytes ∧
      middle.env = (alloc.blockAlloc .vmmRegion kernel.env).2 ∧
      Relisted alloc.toObjectAllocator kernel middle space (passed ++ rest) ptrs (kernel.ranges passed ++
        ⟨va + pageSizeInBytes, va + pageSizeInBytes + sizeInPages * pageSizeInBytes, flags⟩ :: kernel.ranges rest) := by
  have guard : 0 < pageSizeInBytes := by decide
  have strictlyBehind : ∀ range ∈ kernel.ranges passed, range.stop < va + pageSizeInBytes :=
    fun range inside => Nat.lt_of_le_of_lt (behind range inside) (Nat.lt_add_of_pos_right guard)
  have strictlyAfter : ∀ range ∈ kernel.ranges rest,
      va + pageSizeInBytes + sizeInPages * pageSizeInBytes < range.start := by
    intro range inside
    have above := after range inside
    omega
  obtain ⟨region, middle, ptrs, inserted, nonnull, ends, relisted⟩ := @vmmInsertRange_apart _ kernel space flags
    passed rest _ _ _ listed strictlyBehind strictlyAfter
  refine ⟨region, middle, ptrs, ?_, ends, vmmInsertRange_record strictlyBehind strictlyAfter inserted, relisted⟩
  rw [vmmAllocBetween_eq bound search, if_neg (not_le.mpr below), inserted]
  simp only [bind, Except.bind, if_neg nonnull]

/-- The page boundaries of a new region. -/
theorem Coherent.gap_aligned (coherent : Coherent alloc member lists kernel) (belongs : member space)
    (aligned : lowerVa % pageSizeInBytes = 0) (split : passed ++ rest = lists space) {need : Nat}
    (found : GapFound lowerVa need (kernel.ranges passed) (kernel.ranges rest) va) (sizeInPages : Nat) :
    (va + pageSizeInBytes) % pageSizeInBytes = 0 ∧
      (va + pageSizeInBytes + sizeInPages * pageSizeInBytes) % pageSizeInBytes = 0 := by
  have alignedVa : va % pageSizeInBytes = 0 := by
    rcases found.place with same | ⟨range, inside, same⟩
    · rw [same]
      exact aligned
    · rw [same]
      apply (coherent.pages belongs).stop_aligned
      rw [← split, Kernel.ranges_append]
      exact List.mem_append_left _ inside
  rw [Nat.add_mul_mod_self_right, Nat.add_mod_right]
  exact ⟨alignedVa, alignedVa⟩

/-- The call maps a gap whose pages are free, or the frame allocator faults. -/
theorem Coherent.allocBetween_gap (coherent : Coherent alloc member lists kernel) (belongs : member space)
    (valid : PageFlags flags) (aligned : lowerVa % pageSizeInBytes = 0) (split : passed ++ rest = lists space)
    (bound : va + (sizeInPages * pageSizeInBytes + 2 * pageSizeInBytes) < 2 ^ 64)
    (search : vmmAllocBetweenSearch kernel lowerVa (sizeInPages * pageSizeInBytes) (2 * pageSizeInBytes) walkLimit
      lowerVa NULL (kernel.space space).region = .ok (va, passed.getLastD NULL, rest.headD NULL)) {need : Nat}
    (found : GapFound lowerVa need (kernel.ranges passed) (kernel.ranges rest) va)
    (below : va + sizeInPages * pageSizeInBytes + 2 * pageSizeInBytes < upperVa)
    (behind : ∀ range ∈ kernel.ranges passed, range.stop ≤ va)
    (after : ∀ range ∈ kernel.ranges rest, va + sizeInPages * pageSizeInBytes + 2 * pageSizeInBytes ≤ range.start)
    (free : WindowFree kernel space (va + pageSizeInBytes)
      (va + pageSizeInBytes + sizeInPages * pageSizeInBytes)) :
    ((∃ fault env, vmmAllocBetween alloc space lowerVa upperVa sizeInPages flags kernel = .error fault ∧
      alloc.pmmXalloc env = .error fault) ∨
    ∃ kernel', vmmAllocBetween alloc space lowerVa upperVa sizeInPages flags kernel =
      .ok (va + pageSizeInBytes, kernel')) ∧
    ((vmmAllocBetween alloc space lowerVa upperVa sizeInPages flags kernel).Gives (fun _ => True) ↔
      alloc.Supplies (kernel.framesNeeded space (windowPages (va + pageSizeInBytes) sizeInPages))
        (alloc.blockAlloc .vmmRegion kernel.env).2) := by
  have listed := coherent.listed belongs
  rw [← split] at listed
  obtain ⟨region, middle, ptrs, call, ends, record, relisted⟩ :=
    @vmmAllocBetween_gap _ alloc kernel space lowerVa upperVa sizeInPages flags va _ _ listed bound search below behind
      after
  obtain ⟨alignedStart, alignedStop⟩ := coherent.gap_aligned belongs aligned split found sizeInPages
  have backing := coherent.backing.relisted (split ▸ relisted.frame)
  have free' := relisted.frame.windowFree free
  have enough : sizeInPages < walkLimit := by
    unfold walkLimit pageSizeInBytes at *
    omega
  have last : va + pageSizeInBytes + sizeInPages * pageSizeInBytes < 2 ^ 64 := by omega
  rw [call]
  constructor
  · cases looped : vmmMapPages alloc space region flags .vmmAllocBetweenOverwrite walkLimit (va + pageSizeInBytes)
        middle with
    | ok final => exact Or.inr ⟨final, rfl⟩
    | error fault =>
        have enough' : va + pageSizeInBytes + sizeInPages * pageSizeInBytes - (va + pageSizeInBytes) <
            walkLimit * pageSizeInBytes := by
          rw [Nat.add_sub_cancel_left]
          exact Nat.mul_lt_mul_of_pos_right enough (by decide)
        obtain ⟨env, exhausted⟩ := vmmMapPages_fault backing belongs alignedStart alignedStop last ends valid free'
          enough' looped
        exact Or.inl ⟨fault, env, rfl, exhausted⟩
  · have root : middle.root space = kernel.root space := relisted.frame.directory
    rw [Outcome.map_gives, vmmMapPages_returns backing belongs alignedStart last ends valid free' enough, record,
      Kernel.framesNeeded, Kernel.missingTables_congr relisted.frame.word root, Kernel.framesNeeded]

/-- A gap that starts before the next region holds the pages and their padding before every later region. -/
theorem GapFound.after {need : Nat} {ranges others : List (Range Nat Nat)} (found : GapFound lowerVa need ranges others va)
    (canonical : Canonical (ranges ++ others)) (order : ∀ head tail, others = head :: tail → va ≤ head.start) :
    ∀ range ∈ others, va + need ≤ range.start := by
  cases others with
  | nil => simp
  | cons head tail =>
      apply ((canonical_append _ _).mp canonical).2.1.le_start_of_head
      intro front isHead
      obtain rfl := Option.some.inj isHead
      exact found.room (order head tail rfl)

/-- The search of a call ends at a gap with room for the pages and their padding. -/
structure BetweenGap (kernel : Kernel σ) (space lowerVa upperVa sizeInPages va : Nat) (passed rest : List Nat) :
    Prop where
  bound : va + (sizeInPages * pageSizeInBytes + 2 * pageSizeInBytes) < 2 ^ 64
  search : vmmAllocBetweenSearch kernel lowerVa (sizeInPages * pageSizeInBytes) (2 * pageSizeInBytes) walkLimit
    lowerVa NULL (kernel.space space).region = .ok (va, passed.getLastD NULL, rest.headD NULL)
  below : va + sizeInPages * pageSizeInBytes + 2 * pageSizeInBytes < upperVa
  behind : ∀ range ∈ kernel.ranges passed, range.stop ≤ va
  after : ∀ range ∈ kernel.ranges rest, va + sizeInPages * pageSizeInBytes + 2 * pageSizeInBytes ≤ range.start

/-- A range that reaches into the next region is not inserted. -/
theorem vmmInsertRange_before_next {objects : ObjectCalls σ} {start stop prev next : Nat} {inserted : Nat × Kernel σ}
    (done : vmmInsertRange objects space prev next start stop flags kernel = .ok inserted) (nonnull : next ≠ NULL) :
    stop ≤ (kernel.region next).vaStart := by
  by_contra beyond
  rw [vmmInsertRange, if_pos ⟨nonnull, not_le.mp beyond⟩] at done
  cases done

/-- A call that returns a pointer has found such a gap. -/
theorem GapFound.betweenGap {calls : KernelCalls σ} {ret need : Nat}
    (found : GapFound lowerVa need (kernel.ranges passed) (kernel.ranges rest) va)
    (enough : need = sizeInPages * pageSizeInBytes + 2 * pageSizeInBytes)
    (search : vmmAllocBetweenSearch kernel lowerVa (sizeInPages * pageSizeInBytes) (2 * pageSizeInBytes) walkLimit
      lowerVa NULL (kernel.space space).region = .ok (va, passed.getLastD NULL, rest.headD NULL))
    (canonical : Canonical (kernel.ranges passed ++ kernel.ranges rest)) (linked : NULL ∉ rest)
    (room : BetweenRoom kernel (passed ++ rest) lowerVa sizeInPages)
    (done : vmmAllocBetween calls space lowerVa upperVa sizeInPages flags kernel = .ok (ret, kernel'))
    (nonnull : ret ≠ NULL) : BetweenGap kernel space lowerVa upperVa sizeInPages va passed rest := by
  have bound := room.bound found
  have below : va + sizeInPages * pageSizeInBytes + 2 * pageSizeInBytes < upperVa := by
    by_contra full
    rw [vmmAllocBetween_eq bound search, if_pos (not_lt.mp full)] at done
    obtain ⟨rfl, -⟩ := Prod.mk.inj (Except.ok.inj done)
    exact nonnull rfl
  rw [vmmAllocBetween_eq bound search, if_neg (not_le.mpr below)] at done
  obtain ⟨inserted, insertion, -⟩ := Outcome.bind_eq_ok.mp done
  refine ⟨bound, search, below, found.behind canonical, ?_⟩
  have after := found.after canonical
  intro range inside
  cases rest with
  | nil => cases inside
  | cons head tail =>
      have present : head ≠ NULL := fun null => linked (List.mem_cons.mpr (Or.inl null.symm))
      have fits : va + pageSizeInBytes + sizeInPages * pageSizeInBytes ≤ (kernel.region head).vaStart :=
        vmmInsertRange_before_next insertion present
      have above := after (fun front others shape => by
        obtain ⟨rfl, -⟩ := List.cons.inj shape
        change va ≤ (kernel.region head).vaStart
        omega) range inside
      omega

/-- The call makes a region of its own for the gap and maps it. -/
theorem BetweenGap.creates (gap : BetweenGap kernel space lowerVa upperVa sizeInPages va passed rest)
    (calls : KernelCalls σ) (flags : Nat) :
    vmmAllocBetween calls space lowerVa upperVa sizeInPages flags kernel =
      vmmCreateRegion calls.toObjectCalls space (va + pageSizeInBytes)
          (va + pageSizeInBytes + sizeInPages * pageSizeInBytes) flags (passed.getLastD NULL) (rest.headD NULL) kernel >>=
        fun inserted =>
        if inserted.1 = NULL then .ok (NULL, inserted.2)
        else (vmmMapPages calls space inserted.1 flags .vmmAllocBetweenOverwrite walkLimit (va + pageSizeInBytes)
          inserted.2).map fun kernel => (va + pageSizeInBytes, kernel) := by
  have guard : 0 < pageSizeInBytes := by decide
  rw [vmmAllocBetween_eq gap.bound gap.search, if_neg (not_le.mpr gap.below), vmmInsertRange_creates]
  · exact fun range inside => Nat.lt_of_le_of_lt (gap.behind range inside) (Nat.lt_add_of_pos_right guard)
  · intro range inside
    have above := gap.after range inside
    omega

/-- The mapping of pages keeps the region lists. -/
theorem TakesFrames.listed {middle : Kernel σ} {ptrs : List Nat} (taken : TakesFrames alloc member middle kernel')
    (listed : SpaceList alloc.toObjectAllocator middle space ptrs) :
    SpaceList alloc.toObjectAllocator kernel' space ptrs ∧ kernel'.ranges ptrs = middle.ranges ptrs := by
  refine ⟨⟨?_, ?_, listed.distinct, fun ptr inside => (taken.env.alive _ _).mpr (listed.live ptr inside)⟩, ?_⟩
  · rw [taken.spaces]
    exact listed.head
  · rw [taken.regions]
    exact listed.linked
  · apply Kernel.ranges_congr
    intro ptr _
    rw [taken.regions]

/-- The space gains one region that keeps a page of distance from the others and from the upper bound,
and exactly its pages are mapped. -/
structure GainsRegion (alloc : KernelAllocator σ) (member : Nat → Prop) (ptrs : List Nat) (kernel kernel' : Kernel σ)
    (space upperVa start stop flags : Nat) : Prop where
  list : ∃ before after ptrs', kernel.ranges ptrs = before ++ after ∧
    SpaceList alloc.toObjectAllocator kernel' space ptrs' ∧
    kernel'.ranges ptrs' = before ++ ⟨start, stop, flags⟩ :: after ∧
    (∀ other ∈ before, other.stop + pageSizeInBytes ≤ start) ∧
    ∀ other ∈ after, stop + pageSizeInBytes ≤ other.start
  below : stop + pageSizeInBytes ≤ upperVa
  pages : PagesMapped alloc member kernel kernel' space start stop flags
  guards : ∀ page, page + pageSizeInBytes = start ∨ page = stop → CanonicalPage page → HalfWindow start stop →
    mmuLeaf space page kernel' = 0

/-- Canonical pages outside the regions and outside a mapped canonical window are unmapped. -/
theorem PagesMapped.unmapped {start stop page : Nat} (mapped : PagesMapped alloc member kernel kernel' space start stop flags)
    (coherent : Coherent alloc member lists kernel) (belongs : member space) (window : HalfWindow start stop)
    (canonical : CanonicalPage page) (vacant : ∀ flags, ¬Denotes (kernel.ranges (lists space)) page flags)
    (outside : ¬(start ≤ page ∧ page < stop)) : mmuLeaf space page kernel' = 0 := by
  rw [mapped.outside belongs]
  · by_contra present
    exact vacant _ ((coherent.mapped belongs canonical).mpr ⟨present, rfl⟩)
  · intro _ other inside same
    rw [canonical.walkPage, (window.span.pages other inside.lower inside.upper inside.aligned).walkPage] at same
    subst same
    exact outside ⟨inside.lower, inside.upper⟩

/-- A call that returns a pointer gains a guarded region at that pointer. -/
theorem vmmAllocBetween_guarded (coherent : Coherent alloc member lists kernel) (belongs : member space)
    (valid : PageFlags flags) (aligned : lowerVa % pageSizeInBytes = 0)
    (room : BetweenRoom kernel (lists space) lowerVa sizeInPages) {ret : Nat}
    (done : vmmAllocBetween alloc space lowerVa upperVa sizeInPages flags kernel = .ok (ret, kernel'))
    (nonnull : ret ≠ NULL) :
    GainsRegion alloc member (lists space) kernel kernel' space upperVa ret
      (ret + sizeInPages * pageSizeInBytes) flags := by
  have guard : 0 < pageSizeInBytes := by decide
  have canonical := (coherent.pages belongs).canonical
  obtain ⟨passed, rest, va, split, search, found⟩ := coherent.gapFound belongs lowerVa
    (sizeInPages * pageSizeInBytes) (2 * pageSizeInBytes)
  have listed := coherent.listed belongs
  rw [← split] at room listed canonical
  have size := room.bound found
  have need : u64 (sizeInPages * pageSizeInBytes + 2 * pageSizeInBytes) =
      sizeInPages * pageSizeInBytes + 2 * pageSizeInBytes := Nat.mod_eq_of_lt (by omega)
  rw [Kernel.ranges_append] at canonical
  have linked : NULL ∉ rest := fun inside => listed.ne_null (List.mem_append_right _ inside) rfl
  obtain ⟨bound, search, below, behind, after⟩ := found.betweenGap need search canonical linked room done nonnull
  obtain ⟨region, middle, ptrs, call, ends, -, relisted⟩ :=
    @vmmAllocBetween_gap _ alloc kernel space lowerVa upperVa sizeInPages flags va _ _ listed bound search below
      behind after
  rw [call] at done
  obtain ⟨final, looped, same⟩ := Outcome.map_eq_ok.mp done
  obtain ⟨rfl, rfl⟩ := Prod.mk.inj same
  obtain ⟨alignedStart, alignedStop⟩ := coherent.gap_aligned belongs aligned split found sizeInPages
  obtain ⟨mapped, taken⟩ := vmmMapPages_maps (coherent.backing.relisted (split ▸ relisted.frame)) belongs alignedStart
    alignedStop (by omega) ends valid looped
  have gained := relisted.frame.pagesMapped mapped
  obtain ⟨listed', ranges'⟩ := taken.listed relisted.listed
  refine ⟨?_, by omega, gained, ?_⟩
  · refine ⟨kernel.ranges passed, kernel.ranges rest, ptrs, ?_, listed', ranges'.trans relisted.ranges_eq, ?_, ?_⟩
    · rw [← split, Kernel.ranges_append]
    · intro other inside
      exact Nat.add_le_add_right (behind other inside) _
    · intro other inside
      have above := after other inside
      omega
  · intro page side canonicalPage window
    have outside : ¬(va + pageSizeInBytes ≤ page ∧
        page < va + pageSizeInBytes + sizeInPages * pageSizeInBytes) := by omega
    apply gained.unmapped coherent belongs window canonicalPage _ outside
    rw [← split, Kernel.ranges_append]
    apply not_denotes_between
    · intro range inside
      have before := behind range inside
      omega
    · intro range inside
      have above := after range inside
      omega

/-- In a list that touches the lower bound from above only, a call finds the lowest accepted interval and
returns the page behind its first one, or it finds none and changes nothing. -/
theorem vmmAllocBetween_lowest (coherent : Coherent alloc member lists kernel) (belongs : member space)
    (valid : PageFlags flags) (aligned : lowerVa % pageSizeInBytes = 0)
    (room : BetweenRoom kernel (lists space) lowerVa sizeInPages)
    (clears : ClearsLower (kernel.ranges (lists space)) lowerVa) :
    (∀ start, Accepted (kernel.ranges (lists space)) lowerVa upperVa
        (sizeInPages * pageSizeInBytes + 2 * pageSizeInBytes) start →
      (∀ other, Accepted (kernel.ranges (lists space)) lowerVa upperVa
        (sizeInPages * pageSizeInBytes + 2 * pageSizeInBytes) other → start ≤ other) →
      WindowFree kernel space (start + pageSizeInBytes) (start + pageSizeInBytes + sizeInPages * pageSizeInBytes) →
      (∀ fault, vmmAllocBetween alloc space lowerVa upperVa sizeInPages flags kernel = .error fault →
        ∃ env, alloc.pmmXalloc env = .error fault) ∧
      ∀ ret kernel', vmmAllocBetween alloc space lowerVa upperVa sizeInPages flags kernel = .ok (ret, kernel') →
        ret = start + pageSizeInBytes ∧ lowerVa ≤ ret ∧ ret + sizeInPages * pageSizeInBytes ≤ upperVa) ∧
    ((∀ start, ¬Accepted (kernel.ranges (lists space)) lowerVa upperVa
        (sizeInPages * pageSizeInBytes + 2 * pageSizeInBytes) start) →
      vmmAllocBetween alloc space lowerVa upperVa sizeInPages flags kernel = .ok (NULL, kernel)) := by
  have canonical := (coherent.pages belongs).canonical
  have bounded : ∀ range ∈ kernel.ranges (lists space), range.start < 2 ^ 64 := by
    intro range inside
    have nonempty := canonical.nonempty range inside
    have limit := room.regions range inside
    omega
  obtain ⟨passed, rest, va, split, search, found⟩ := coherent.gapFound belongs lowerVa
    (sizeInPages * pageSizeInBytes) (2 * pageSizeInBytes)
  rw [← split] at room canonical clears bounded ⊢
  have bound := room.bound found
  have need : u64 (sizeInPages * pageSizeInBytes + 2 * pageSizeInBytes) =
      sizeInPages * pageSizeInBytes + 2 * pageSizeInBytes := Nat.mod_eq_of_lt (by omega)
  rw [Kernel.ranges_append] at canonical clears bounded ⊢
  have place := found
  rw [need] at place
  have lowest : ∀ {start}, Accepted (kernel.ranges passed ++ kernel.ranges rest) lowerVa upperVa
      (sizeInPages * pageSizeInBytes + 2 * pageSizeInBytes) start → va ≤ start :=
    fun accepted => place.le_of_accepted canonical (fun range inside => bounded range (List.mem_append_left _ inside))
      accepted
  by_cases below : va + sizeInPages * pageSizeInBytes + 2 * pageSizeInBytes < upperVa
  · have positive : 0 < sizeInPages * pageSizeInBytes + 2 * pageSizeInBytes := by
      unfold pageSizeInBytes
      omega
    have accepted := place.accepted canonical clears positive (by omega : _ < upperVa)
    obtain ⟨low, before⟩ := place.inside canonical clears
    have above := place.after canonical fun head tail shape => before head (by simp [shape])
    refine ⟨?_, fun none => absurd accepted (none va)⟩
    intro start acceptedStart least free
    obtain rfl : start = va := le_antisymm (least va accepted) (lowest acceptedStart)
    obtain ⟨outcome, -⟩ := coherent.allocBetween_gap belongs valid aligned split bound search found below
      (place.behind canonical) (fun range inside => by have after := above range inside; omega) free
    constructor
    · intro fault faults
      rcases outcome with ⟨reason, env, failed, exhausted⟩ | ⟨kernel', returned⟩
      · obtain rfl := Except.error.inj (failed.symm.trans faults)
        exact ⟨env, exhausted⟩
      · rw [returned] at faults
        cases faults
    · intro ret kernel' done
      rcases outcome with ⟨reason, env, failed, -⟩ | ⟨final, returned⟩
      · rw [failed] at done
        cases done
      · obtain ⟨rfl, -⟩ := Prod.mk.inj (Except.ok.inj (returned.symm.trans done))
        exact ⟨rfl, by omega, by omega⟩
  · constructor
    · rintro start acceptedStart -
      have order := lowest acceptedStart
      obtain ⟨stop, -, -, fits⟩ := acceptedStart
      omega
    · intro _
      rw [vmmAllocBetween_eq bound search, if_pos (not_lt.mp below)]

end

/-- A call over one region skips the two pages below it. -/
theorem oneRegion_between : ∃ kernel lists kernel', Coherent sixtyFourFrames (· ∈ [1]) lists kernel ∧
    kernel.ranges (lists 1) = [⟨0x12000, 0x13000, 7⟩] ∧
    vmmAllocBetween sixtyFourFrames 1 0x10000 0x100000 1 7 kernel = .ok (0x14000, kernel') := by
  obtain ⟨kernel, lists, reached, coherent, ranges⟩ := oneRegion_coherent
  have returns : (runSpaceCalls sixtyFourFrames.calls oneRegionCalls (.zeroed ⟨[], []⟩) >>= fun final =>
      vmmAllocBetween sixtyFourFrames 1 0x10000 0x100000 1 7 final.2).toOption.map Prod.fst = some 0x14000 := by
    decide +kernel
  rw [reached] at returns
  change (vmmAllocBetween sixtyFourFrames 1 0x10000 0x100000 1 7 kernel).toOption.map Prod.fst = _ at returns
  cases result : vmmAllocBetween sixtyFourFrames 1 0x10000 0x100000 1 7 kernel with
  | error fault =>
      rw [result] at returns
      cases returns
  | ok final =>
      obtain ⟨ret, kernel'⟩ := final
      rw [result] at returns
      obtain rfl : ret = 0x14000 := Option.some.inj returns
      exact ⟨kernel, lists, kernel', coherent, ranges, result⟩

/-- The two pages below the region are too few, so the lowest accepted interval starts behind it. -/
theorem vmmAllocBetween_lowest_behind : ∃ kernel lists kernel', Coherent sixtyFourFrames (· ∈ [1]) lists kernel ∧
    vmmAllocBetween sixtyFourFrames 1 0x10000 0x100000 1 7 kernel = .ok (0x14000, kernel') ∧
    0x14000 = 0x13000 + pageSizeInBytes ∧ 0x10000 ≤ 0x14000 ∧ 0x14000 + 1 * pageSizeInBytes ≤ 0x100000 := by
  obtain ⟨kernel, lists, kernel', coherent, ranges, done⟩ := oneRegion_between
  have room : BetweenRoom kernel (lists 1) 0x10000 1 := by
    refine ⟨by decide, ?_⟩
    rw [ranges]
    decide
  have clears : ClearsLower (kernel.ranges (lists 1)) 0x10000 := by
    rw [ranges]
    refine ⟨by decide, ?_⟩
    intro last final
    obtain rfl := Option.some.inj final
    decide
  have accepted : Accepted (kernel.ranges (lists 1)) 0x10000 0x100000 (1 * pageSizeInBytes + 2 * pageSizeInBytes)
      0x13000 := by
    rw [ranges]
    refine ⟨0x100000, ⟨by decide, by decide, le_rfl, ?_, Or.inr ⟨7, ⟨0x12000, 0x13000, 7⟩, by decide⟩, Or.inl rfl⟩,
      by decide, by decide⟩
    rintro point low - flags ⟨range, listed, inside, -⟩
    obtain rfl := List.mem_singleton.mp listed
    exact absurd inside.2 (not_lt.mpr low)
  have least : ∀ other, Accepted (kernel.ranges (lists 1)) 0x10000 0x100000
      (1 * pageSizeInBytes + 2 * pageSizeInBytes) other → 0x13000 ≤ other := by
    rw [ranges]
    rintro other ⟨stop, interval, holds, -⟩
    by_contra below
    unfold pageSizeInBytes at holds
    have low := interval.low
    exact interval.free (max other 0x12000) (by omega) (by omega) 7
      ⟨⟨0x12000, 0x13000, 7⟩, by simp, ⟨by dsimp only; omega, by dsimp only; omega⟩, rfl⟩
  have free : WindowFree kernel 1 (0x13000 + pageSizeInBytes) (0x13000 + pageSizeInBytes + 1 * pageSizeInBytes) := by
    apply coherent.windowFree (by decide) (by decide)
    rw [Kernel.Vacant, ranges]
    decide
  have valid : PageFlags 7 := ⟨by decide, by decide⟩
  have call := (vmmAllocBetween_lowest coherent (by decide) valid (by decide) room clears).1 0x13000 accepted least free
  exact ⟨kernel, lists, kernel', coherent, done, call.2 _ _ done⟩

/-- A space with two regions three pages apart. -/
def twoRegionCalls : List SpaceCall := [.create 0 0, .allocAt 1 0x10000 1 7, .allocAt 1 0x14000 1 7]

theorem twoRegions_coherent : ∃ kernel lists,
    runSpaceCalls sixtyFourFrames.calls twoRegionCalls (.zeroed ⟨[], []⟩) = .ok ([1, 0x10000, 0x14000], kernel) ∧
      Coherent sixtyFourFrames (· ∈ [1]) lists kernel ∧
      kernel.ranges (lists 1) = [⟨0x10000, 0x11000, 7⟩, ⟨0x14000, 0x15000, 7⟩] := by
  have valid : ValidSpaceRun sixtyFourFrames.managed [] twoRegionCalls [1, 0x10000, 0x14000] :=
    ⟨trivial, ⟨by decide, by decide, ⟨by decide, by decide⟩⟩, ⟨by decide, by decide, ⟨by decide, by decide⟩⟩, trivial⟩
  obtain ⟨kernel, lists, reached, coherent⟩ := coherent_of_calls valid (by decide +kernel)
  have facts : (runSpaceCalls sixtyFourFrames.calls twoRegionCalls (.zeroed ⟨[], []⟩)).toOption.map
      (fun final => ((final.2.space 1).region, final.2.region 2, final.2.region 3)) =
        some (2, ⟨0x10000, 0x11000, 3, NULL, 7⟩, ⟨0x14000, 0x15000, NULL, 2, 7⟩) := by decide +kernel
  rw [reached] at facts
  obtain ⟨head, records⟩ := Prod.mk.inj (Option.some.inj facts)
  obtain ⟨low, high⟩ := Prod.mk.inj records
  dsimp only at head low high
  have listed : lists 1 = [2, 3] := by
    apply (coherent.listed (by decide)).eq_of_links head _ (by decide)
    simp [low, high]
  refine ⟨kernel, lists, reached, coherent, ?_⟩
  rw [listed, Kernel.ranges_cons, Kernel.ranges_cons, Kernel.ranges_nil, VmmRegion.range, VmmRegion.range, low, high]

/-- The gap of exactly three pages is taken, and the lowest longer interval starts behind it. -/
theorem vmmAllocBetween_takes_exact : ∃ kernel lists kernel', Coherent sixtyFourFrames (· ∈ [1]) lists kernel ∧
    FreeInterval (kernel.ranges (lists 1)) 0x10000 0x100000 0x15000 0x100000 ∧
    0x15000 + (1 * pageSizeInBytes + 2 * pageSizeInBytes) < 0x100000 ∧
    (∀ start stop, FreeInterval (kernel.ranges (lists 1)) 0x10000 0x100000 start stop →
      start + (1 * pageSizeInBytes + 2 * pageSizeInBytes) < stop → 0x15000 ≤ start) ∧
    vmmAllocBetween sixtyFourFrames 1 0x10000 0x100000 1 7 kernel = .ok (0x12000, kernel') ∧
    0x12000 ≠ 0x15000 + pageSizeInBytes := by
  obtain ⟨kernel, lists, reached, coherent, ranges⟩ := twoRegions_coherent
  have returns : (runSpaceCalls sixtyFourFrames.calls twoRegionCalls (.zeroed ⟨[], []⟩) >>= fun final =>
      vmmAllocBetween sixtyFourFrames 1 0x10000 0x100000 1 7 final.2).toOption.map Prod.fst = some 0x12000 := by
    decide +kernel
  rw [reached] at returns
  change (vmmAllocBetween sixtyFourFrames 1 0x10000 0x100000 1 7 kernel).toOption.map Prod.fst = _ at returns
  cases result : vmmAllocBetween sixtyFourFrames 1 0x10000 0x100000 1 7 kernel with
  | error fault =>
      rw [result] at returns
      cases returns
  | ok final =>
      obtain ⟨ret, kernel'⟩ := final
      rw [result] at returns
      obtain rfl : ret = 0x12000 := Option.some.inj returns
      refine ⟨kernel, lists, kernel', coherent, ?_, by decide, ?_, result, by decide⟩
      · rw [ranges]
        refine ⟨by decide, by decide, le_rfl, ?_, Or.inr ⟨7, ⟨0x14000, 0x15000, 7⟩, by decide⟩, Or.inl rfl⟩
        rintro point low - flags ⟨range, listed, inside, -⟩
        have ends : ∀ range ∈ [(⟨0x10000, 0x11000, 7⟩ : Range Nat Nat), ⟨0x14000, 0x15000, 7⟩], range.stop ≤ 0x15000 := by
          decide
        exact absurd (inside.2.trans_le (ends range listed)) (not_lt.mpr low)
      · rw [ranges]
        intro start stop interval longer
        have low := interval.low
        unfold pageSizeInBytes at longer
        by_contra below
        by_cases first : start < 0x11000
        · exact interval.free start le_rfl (by omega) 7 ⟨⟨0x10000, 0x11000, 7⟩, by simp, ⟨low, first⟩, rfl⟩
        · exact interval.free (max start 0x14000) (by omega) (by omega) 7
            ⟨⟨0x14000, 0x15000, 7⟩, by simp, ⟨by dsimp only; omega, by dsimp only; omega⟩, rfl⟩

end B0s
