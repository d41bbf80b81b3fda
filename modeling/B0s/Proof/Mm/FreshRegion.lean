import B0s.Proof.Mm.AllocBetween
import B0s.Proof.Mm.FreshRun

/-
This file proves when `vmm_alloc_between` gains a guarded region over any allocators.
-/

namespace B0s
open DoublyLinked RangeMap Stopping

variable {σ : Type}

theorem Kernel.setWord_keeps (kernel : Kernel σ) (addr value : Nat) :
    (kernel.setWord addr value).region = kernel.region ∧ (kernel.setWord addr value).space = kernel.space := ⟨rfl, rfl⟩

theorem Kernel.clearPage_keeps (kernel : Kernel σ) (addr : Nat) :
    (kernel.clearPage addr).region = kernel.region ∧ (kernel.clearPage addr).space = kernel.space := ⟨rfl, rfl⟩

section
variable {frames : FrameCalls σ} {calls : KernelCalls σ} {kernel kernel' : Kernel σ} {space va : Nat}

theorem mmuEnsureTable_keeps {entry permWoG table : Nat}
    (entered : mmuEnsureTable frames entry permWoG kernel = .ok (table, kernel')) :
    kernel'.region = kernel.region ∧ kernel'.space = kernel.space := by
  unfold mmuEnsureTable at entered
  split_ifs at entered
  · obtain ⟨⟨frame, env⟩, -, done⟩ := Outcome.bind_eq_ok.mp entered
    obtain ⟨-, rfl⟩ := Prod.mk.inj (Except.ok.inj done)
    simp only [Kernel.setWord_keeps, Kernel.clearPage_keeps, and_self]
  · obtain ⟨-, rfl⟩ := Prod.mk.inj (Except.ok.inj entered)
    exact ⟨rfl, rfl⟩

theorem mmuMapPage_keeps {pa perm old : Nat} (mapped : mmuMapPage frames space va pa perm kernel = .ok (old, kernel')) :
    kernel'.region = kernel.region ∧ kernel'.space = kernel.space := by
  obtain ⟨⟨pdpt, first⟩, one, rest⟩ := Outcome.bind_eq_ok.mp mapped
  obtain ⟨⟨pdt, second⟩, two, rest⟩ := Outcome.bind_eq_ok.mp rest
  obtain ⟨⟨pt, third⟩, three, done⟩ := Outcome.bind_eq_ok.mp rest
  obtain ⟨-, rfl⟩ := Prod.mk.inj (Except.ok.inj done)
  have kept := mmuEnsureTable_keeps three
  have kept' := mmuEnsureTable_keeps two
  have kept'' := mmuEnsureTable_keeps one
  exact ⟨(kept.1.trans kept'.1).trans kept''.1, (kept.2.trans kept'.2).trans kept''.2⟩

/-- The loop that backs pages writes no records. -/
theorem vmmMapPages_keeps {region flags steps : Nat} {overwrite : Nat → Panic}
    (done : vmmMapPages calls space region flags overwrite steps va kernel = .ok kernel') :
    kernel'.region = kernel.region ∧ kernel'.space = kernel.space := by
  induction steps generalizing va kernel with
  | zero => cases done
  | succ steps ih =>
      rw [vmmMapPages] at done
      split_ifs at done
      · obtain ⟨⟨pa, env⟩, -, done⟩ := Outcome.bind_eq_ok.mp done
        obtain ⟨⟨old, middle⟩, mapped, done⟩ := Outcome.bind_eq_ok.mp done
        dsimp only at done
        split_ifs at done
        obtain ⟨regions, spaces⟩ := mmuMapPage_keeps mapped
        obtain ⟨regions', spaces'⟩ := ih done
        exact ⟨regions'.trans regions, spaces'.trans spaces⟩
      · obtain rfl := Except.ok.inj done
        exact ⟨rfl, rfl⟩

/-- The loop uses the frame allocator only. -/
theorem vmmMapPages_congr {calls' : KernelCalls σ} (same : calls.toFrameCalls = calls'.toFrameCalls)
    (region flags : Nat) (overwrite : Nat → Panic) (steps : Nat) :
    vmmMapPages calls space region flags overwrite steps va kernel =
      vmmMapPages calls' space region flags overwrite steps va kernel := by
  have xalloc : calls.pmmXalloc = calls'.pmmXalloc := congrArg FrameCalls.pmmXalloc same
  induction steps generalizing va kernel with
  | zero => rfl
  | succ steps ih =>
      rw [vmmMapPages, vmmMapPages, xalloc, same]
      simp only [ih]

end

section
variable {kernel : Kernel σ} {space vaStart vaStop flags prev next region : Nat}

/-- A linked record follows the old links, or leads to the new record or to its successor. -/
theorem linkRegion_next (ptr : Nat) :
    ((linkRegion space vaStart vaStop flags prev next region kernel).region ptr).next = region ∨
      ((linkRegion space vaStart vaStop flags prev next region kernel).region ptr).next = next ∨
      ((linkRegion space vaStart vaStop flags prev next region kernel).region ptr).next = (kernel.region ptr).next := by
  unfold linkRegion
  dsimp only
  split_ifs
  all_goals
    simp only [Kernel.setPrev_region, Kernel.setNext_region, Kernel.setRegion, Kernel.setHead, Function.update_apply]
    split_ifs <;> simp_all

theorem linkRegion_head :
    ((linkRegion space vaStart vaStop flags prev next region kernel).space space).region = region ∨
      ((linkRegion space vaStart vaStop flags prev next region kernel).space space).region =
        (kernel.space space).region := by
  unfold linkRegion
  dsimp only
  split_ifs
  all_goals simp [Kernel.setPrev, Kernel.setNext, Kernel.setRegion, Kernel.setHead]

end

/-- The records of a space with a list of regions. -/
def spaceRecords (space : Nat) (ptrs : List Nat) : List (StructType × Nat) :=
  (.vmmSpace, space) :: ptrs.map fun ptr => (.vmmRegion, ptr)

/-- Every page of the window gets a frame of its own that was not in use, and the leaf entries at the ends of all
other walks of the space stay as they are. -/
structure MapsPages (frames : List Nat) (kernel kernel' : Kernel σ) (space start stop flags : Nat) : Prop where
  empty : ∀ {va}, WindowPage start stop va → mmuLeaf space va kernel = 0
  leaf : ∀ {va}, WindowPage start stop va → mmuLeaf space va kernel' = kernel'.frame space va ||| flags
  fresh : ∀ {va}, WindowPage start stop va → kernel'.frame space va ∉ frames
  apart : ∀ {va va'}, WindowPage start stop va → WindowPage start stop va' →
    kernel'.frame space va = kernel'.frame space va' → va = va'
  outside : ∀ {va}, (∀ page, WindowPage start stop page → walkPage va ≠ walkPage page) →
    mmuLeaf space va kernel' = mmuLeaf space va kernel

/-- The space gains one region that keeps a page of distance from the others and from the upper bound, its other
regions are unchanged, and exactly the pages of the region are mapped. -/
structure GainsGuarded (ptrs frames : List Nat) (kernel kernel' : Kernel σ) (space upperVa start stop flags : Nat) :
    Prop where
  list : ∃ before after ptrs', kernel.ranges ptrs = before ++ after ∧ SpaceLinks kernel' space ptrs' ∧
    kernel'.ranges ptrs' = before ++ ⟨start, stop, flags⟩ :: after ∧
    (∀ other ∈ before, other.stop + pageSizeInBytes ≤ start) ∧
    ∀ other ∈ after, stop + pageSizeInBytes ≤ other.start
  below : stop + pageSizeInBytes ≤ upperVa
  pages : MapsPages frames kernel kernel' space start stop flags
  guards : ∀ page, page + pageSizeInBytes = start ∨ page = stop → CanonicalPage page → HalfWindow start stop →
    mmuLeaf space page kernel' = 0

section
variable {calls : KernelCalls σ} {managed : Nat → Prop} [DecidablePred managed] {stop : Fault} {kernel kernel' : Kernel σ}
  {space lowerVa upperVa sizeInPages flags ret : Nat} {ptrs frames : List Nat}

/-- When the record of a new region is one of the list already, no list gets longer. -/
theorem SpaceLinks.length_le {vaStart vaStop prev next region : Nat} {ptrs' : List Nat} (linked : SpaceLinks kernel space ptrs)
    (listed : region ∈ ptrs) (succeeds : next = NULL ∨ next ∈ ptrs)
    (regions : kernel'.region = (linkRegion space vaStart vaStop flags prev next region kernel).region)
    (spaces : kernel'.space = (linkRegion space vaStart vaStop flags prev next region kernel).space)
    (linked' : SpaceLinks kernel' space ptrs') : ptrs'.length ≤ ptrs.length := by
  have inside : ∀ ptr ∈ ptrs', ptr ∈ ptrs := by
    refine @Segment.closed _ _ _ _ _ _ (· ∈ ptrs) linked'.linked ?_ ?_ fun null => linked'.nonnull NULL null rfl
    · rw [← linked'.head, spaces]
      intro present
      rcases @linkRegion_head _ kernel space vaStart vaStop flags prev next region with same | same
      · rw [same]
        exact listed
      · rw [same, linked.head] at present ⊢
        cases ptrs with
        | nil => exact absurd rfl present
        | cons head rest => exact List.mem_cons_self
    · intro ptr member
      rw [regions]
      intro present
      rcases @linkRegion_next _ kernel space vaStart vaStop flags prev next region ptr with same | same | same
      · rw [same]
        exact listed
      · rw [same] at present ⊢
        exact succeeds.resolve_left present
      · rw [same] at present ⊢
        exact (linked.linked.next_cases member).resolve_left present
  exact (List.subperm_of_subset linked'.distinct inside).length_le

theorem BetweenGap.noting {va : Nat} {passed rest : List Nat}
    (gap : BetweenGap kernel space lowerVa upperVa sizeInPages va passed rest) (records : List (StructType × Nat))
    (frames : List Nat) : BetweenGap (kernel.noting records frames) space lowerVa upperVa sizeInPages va passed rest := by
  refine ⟨gap.bound, ?_, gap.below, gap.behind, gap.after⟩
  rw [Kernel.noting, vmmAllocBetweenSearch_withEnv]
  exact gap.search

/-- The call takes one record and links it, and then it writes no records. -/
theorem BetweenGap.taken {va : Nat} {passed rest : List Nat}
    (gap : BetweenGap kernel space lowerVa upperVa sizeInPages va passed rest)
    (done : vmmAllocBetween calls space lowerVa upperVa sizeInPages flags kernel = .ok (ret, kernel')) (nonnull : ret ≠ NULL) :
    ∃ region env, calls.blockAlloc .vmmRegion kernel.env = .ok (region, env) ∧ region ≠ NULL ∧
      kernel'.region = (linkRegion space (va + pageSizeInBytes) (va + pageSizeInBytes + sizeInPages * pageSizeInBytes)
        flags (passed.getLastD NULL) (rest.headD NULL) region { kernel with env := env }).region ∧
      kernel'.space = (linkRegion space (va + pageSizeInBytes) (va + pageSizeInBytes + sizeInPages * pageSizeInBytes)
        flags (passed.getLastD NULL) (rest.headD NULL) region { kernel with env := env }).space := by
  rw [gap.creates calls flags] at done
  obtain ⟨⟨region, middle⟩, created, done⟩ := Outcome.bind_eq_ok.mp done
  obtain ⟨⟨record, env⟩, returned, same⟩ := Outcome.bind_eq_ok.mp created
  obtain ⟨rfl, rfl⟩ := Prod.mk.inj (Except.ok.inj same)
  dsimp only at done
  split_ifs at done with null
  · obtain ⟨rfl, -⟩ := Prod.mk.inj (Except.ok.inj done)
    exact absurd rfl nonnull
  · obtain ⟨final, looped, same⟩ := Outcome.map_eq_ok.mp done
    obtain ⟨-, rfl⟩ := Prod.mk.inj same
    obtain ⟨regions, spaces⟩ := vmmMapPages_keeps looped
    exact ⟨record, env, returned, null, regions, spaces⟩

/-- A call whose record is in the list gains no region. -/
theorem BetweenGap.not_gains {va start last : Nat} {passed rest : List Nat}
    (gap : BetweenGap kernel space lowerVa upperVa sizeInPages va passed rest) (split : passed ++ rest = ptrs)
    (linked : SpaceLinks kernel space ptrs)
    (done : vmmAllocBetween calls space lowerVa upperVa sizeInPages flags kernel = .ok (ret, kernel')) (nonnull : ret ≠ NULL)
    {region : Nat} {env : σ} (returned : calls.blockAlloc .vmmRegion kernel.env = .ok (region, env)) (listed : region ∈ ptrs) :
    ¬GainsGuarded ptrs frames kernel kernel' space upperVa start last flags := by
  rintro ⟨⟨before, after, ptrs', old, linked', new, -, -⟩, -, -, -⟩
  obtain ⟨record, env', returned', -, regions, spaces⟩ := gap.taken done nonnull
  obtain ⟨rfl, rfl⟩ := Prod.mk.inj (Except.ok.inj (returned.symm.trans returned'))
  have succeeds : rest.headD NULL = NULL ∨ rest.headD NULL ∈ ptrs := by
    cases rest with
    | nil => exact Or.inl rfl
    | cons head tail => exact Or.inr (by simp [← split])
  have again : SpaceLinks { kernel with env := env } space ptrs :=
    ⟨linked.head, linked.linked, linked.distinct, linked.nonnull⟩
  have short := again.length_le listed succeeds regions spaces linked'
  have before' := congrArg List.length old
  have after' := congrArg List.length new
  simp only [Kernel.ranges, List.length_map, List.length_append, List.length_cons] at before' after'
  omega

/-- The frames of the call are fresh, and so is its record. -/
theorem BetweenGap.checked {va : Nat} {passed rest : List Nat}
    (gap : BetweenGap kernel space lowerVa upperVa sizeInPages va passed rest)
    (fresh : vmmAllocBetween (calls.checkedFrames managed stop) space lowerVa upperVa sizeInPages flags
      (kernel.noting [] frames) ≠ .error stop)
    {region : Nat} {env : σ} (returned : calls.blockAlloc .vmmRegion kernel.env = .ok (region, env)) (nonnull : region ≠ NULL)
    (unlisted : region ∉ ptrs) :
    vmmAllocBetween (calls.checked managed stop) space lowerVa upperVa sizeInPages flags
      (kernel.noting (spaceRecords space ptrs) frames) ≠ .error stop := by
  have gap' := gap.noting (spaceRecords space ptrs) frames
  have unused : region ≠ NULL ∧ (StructType.vmmRegion, region) ∉ spaceRecords space ptrs := by
    refine ⟨nonnull, ?_⟩
    simpa [spaceRecords] using unlisted
  have created : vmmCreateRegion (calls.checked managed stop).toObjectCalls space (va + pageSizeInBytes)
        (va + pageSizeInBytes + sizeInPages * pageSizeInBytes) flags (passed.getLastD NULL) (rest.headD NULL)
        (kernel.noting (spaceRecords space ptrs) frames) =
      vmmCreateRegion (calls.checkedFrames managed stop).toObjectCalls space (va + pageSizeInBytes)
        (va + pageSizeInBytes + sizeInPages * pageSizeInBytes) flags (passed.getLastD NULL) (rest.headD NULL)
        (kernel.noting (spaceRecords space ptrs) frames) := by
    rw [vmmCreateRegion, vmmCreateRegion]
    rw [KernelCalls.checked_blockAlloc returned unused]
  have noted : (kernel.noting [] frames).Like (fun noted noted' => noted.env = noted'.env ∧ noted.frames = noted'.frames)
      (kernel.noting (spaceRecords space ptrs) frames) := .mk _ ⟨rfl, rfl⟩
  have fresh' := (vmmAllocBetween_follows KernelCalls.checkedFrames_records noted space lowerVa upperVa sizeInPages
    flags).ne_stop fresh
  rw [gap'.creates] at fresh' ⊢
  rw [created]
  have mapped : ∀ (middle : Kernel (Noted σ)) region,
      vmmMapPages (calls.checked managed stop) space region flags .vmmAllocBetweenOverwrite walkLimit
        (va + pageSizeInBytes) middle =
      vmmMapPages (calls.checkedFrames managed stop) space region flags .vmmAllocBetweenOverwrite walkLimit
        (va + pageSizeInBytes) middle := by
    intro middle region
    apply vmmMapPages_congr
    rfl
  simp only [mapped]
  exact fresh'

/-- The contract gives a guarded region, which the kernel without notes has too. -/
theorem GainsRegion.guarded {start last : Nat} {final : Kernel (Noted σ)} {env : σ}
    (gains : GainsRegion (calls.noted managed stop) (· = space) ptrs (kernel.noting (spaceRecords space ptrs) frames) final
      space upperVa start last flags) :
    GainsGuarded ptrs frames kernel (final.withEnv env) space upperVa start last flags := by
  obtain ⟨⟨before, after, ptrs', old, listed, new, behind, ahead⟩, below, pages, guards⟩ := gains
  have linked : SpaceLinks (final.withEnv env) space ptrs' :=
    ⟨listed.head, listed.linked, listed.distinct, fun ptr inside => (listed.live ptr inside).1⟩
  refine ⟨⟨before, after, ptrs', old, linked, new, behind, ahead⟩, below,
    ⟨pages.empty, pages.leaf, ?_, pages.apart, ?_⟩, guards⟩
  · intro va page listed
    exact pages.fresh page ⟨listed, (pages.held page).2⟩
  · intro va apart
    exact pages.outside rfl fun _ => apart

theorem Coherent.spaceLinks {records : List (StructType × Nat)}
    (coherent : Coherent (calls.noted managed stop) (· = space) (fun _ => ptrs) (kernel.noting records frames)) :
    SpaceLinks kernel space ptrs := by
  have listed := coherent.listed rfl
  exact ⟨listed.head, listed.linked, listed.distinct, fun ptr inside => (listed.live ptr inside).1⟩

/-- A call on a coherent space that returns a pointer has found a gap. -/
theorem Coherent.betweenGap {records : List (StructType × Nat)}
    (coherent : Coherent (calls.noted managed stop) (· = space) (fun _ => ptrs) (kernel.noting records frames))
    (room : BetweenRoom kernel ptrs lowerVa sizeInPages)
    (done : vmmAllocBetween calls space lowerVa upperVa sizeInPages flags kernel = .ok (ret, kernel'))
    (nonnull : ret ≠ NULL) :
    ∃ passed rest va, passed ++ rest = ptrs ∧ BetweenGap kernel space lowerVa upperVa sizeInPages va passed rest := by
  obtain ⟨passed, rest, va, split, search, found⟩ := coherent.gapFound rfl lowerVa
    (sizeInPages * pageSizeInBytes) (2 * pageSizeInBytes)
  have canonical := (coherent.pages rfl).canonical
  rw [Kernel.noting, vmmAllocBetweenSearch_withEnv, Kernel.withEnv_space] at search
  change GapFound lowerVa _ (kernel.ranges passed) (kernel.ranges rest) va at found
  rw [← split] at room
  have size := room.bound found
  have need : u64 (sizeInPages * pageSizeInBytes + 2 * pageSizeInBytes) =
      sizeInPages * pageSizeInBytes + 2 * pageSizeInBytes := Nat.mod_eq_of_lt (by omega)
  have order : Canonical (kernel.ranges passed ++ kernel.ranges rest) := by
    rw [← Kernel.ranges_append, split]
    exact canonical
  have linked : NULL ∉ rest :=
    fun null => coherent.spaceLinks.nonnull NULL (split ▸ List.mem_append_right _ null) rfl
  exact ⟨passed, rest, va, split, found.betweenGap need search order linked room done nonnull⟩

end

/-- A coherent space needs only its own records. -/
theorem Coherent.narrow {calls : KernelCalls σ} {managed : Nat → Prop} [DecidablePred managed] {stop : Fault} {space : Nat}
    {lists : Nat → List Nat} {final : Kernel (Noted σ)}
    (coherent : Coherent (calls.noted managed stop) (· ∈ [space]) lists final) :
    Coherent (calls.noted managed stop) (· = space) (fun _ => lists space)
      ((final.withEnv final.env.env).noting (spaceRecords space (lists space)) final.env.frames) := by
  have same : (· ∈ [space]) = (· = space) := by
    funext other
    simp
  have belongs : space ∈ [space] := by simp
  have listed := coherent.listed belongs
  have nonnull := (coherent.created belongs).1
  rw [same] at coherent
  refine ⟨coherent.backing.transport rfl rfl fun _ => Iff.rfl, ?_, ?_, ?_, ?_, ?_⟩
  · rintro _ rfl
    exact ⟨nonnull, List.mem_cons_self⟩
  · rintro _ rfl
    refine ⟨listed.head, listed.linked, listed.distinct, fun ptr inside => ⟨(listed.live ptr inside).1, ?_⟩⟩
    exact List.mem_cons_of_mem _ (List.mem_map.mpr ⟨ptr, inside, rfl⟩)
  · rintro _ _ rfl rfl different
    exact absurd rfl different
  · rintro _ rfl
    exact coherent.pages rfl
  · rintro _ va flags rfl
    exact coherent.mapped rfl

/-- A run with fresh answers ends in a coherent space. -/
theorem coherent_of_checked {run : List SpaceCall} {results : List Nat} {final : Kernel (Noted (Vmm.Blocks (List Nat)))}
    (valid : ValidSpaceRun LowFrame [] run results) (created : createdSpaces [] run results = [firstSpace])
    (checked : runSpaceCalls (clearCalls.checked LowFrame .diverges) run (clearKernel.noting [] []) = .ok (results, final)) :
    runSpaceCalls clearCalls run clearKernel = .ok (results, final.withEnv final.env.env) ∧
      ∃ lists, Coherent (clearCalls.noted LowFrame .diverges) (· ∈ [firstSpace]) lists final := by
  have real := runSpaceCalls_follows (@KernelCalls.checked_follows _ clearCalls LowFrame _ .diverges)
    (clearKernel.noting_like [] []) run
  obtain ⟨_, reached, ⟨_, _, _, env, related⟩⟩ := real.of_ok checked
  obtain rfl : final.env.env = env := related
  have lawful := runSpaceCalls_follows (@KernelCalls.checked_noted _ clearCalls LowFrame _ .diverges)
    (Kernel.Like.refl (clearKernel.noting [] [])) run
  obtain ⟨_, noted, ⟨_, _, _, like⟩⟩ := lawful.of_ok checked
  obtain rfl := like.eq
  obtain ⟨lists, coherent⟩ := (Coherent.none (clearCalls.noted LowFrame .diverges) (fun _ => []) _).run valid noted
  rw [created] at coherent
  exact ⟨reached, lists, coherent⟩

/-- The records of the regions lead to each other, end low, and are present. -/
def lowRegions (count : Nat) (kernel : Kernel σ) : Bool :=
  (List.range count).all fun i => decide ((kernel.region (regionRecord i)).vaStop ≤ 0x100000 ∧
    (kernel.region (regionRecord i)).flags = 7 ∧ ((kernel.region (regionRecord i)).next = NULL ∨
      i + 1 < count ∧ (kernel.region (regionRecord i)).next = regionRecord (i + 1)))

/-- The list consists of these records. -/
theorem SpaceLinks.lowRegions {kernel : Kernel σ} {space count : Nat} {ptrs : List Nat} (linked : SpaceLinks kernel space ptrs)
    (head : (kernel.space space).region = regionRecord 0) (positive : 0 < count) (low : lowRegions count kernel = true) :
    (∀ ptr ∈ ptrs, ∃ i < count, ptr = regionRecord i) ∧
      ∀ range ∈ kernel.ranges ptrs, range.stop ≤ 0x100000 ∧ range.flags = 7 := by
  have all : ∀ i < count, _ := fun i inside =>
    of_decide_eq_true (List.all_eq_true.mp low i (List.mem_range.mpr inside))
  have named : ∀ ptr ∈ ptrs, ∃ i < count, ptr = regionRecord i := by
    refine @Segment.closed _ _ _ _ _ _ (fun ptr => ∃ i < count, ptr = regionRecord i) linked.linked ?_ ?_
      fun null => linked.nonnull NULL null rfl
    · intro _
      rw [← linked.head]
      exact ⟨0, positive, head⟩
    · rintro _ ⟨i, inside, rfl⟩ present
      obtain ⟨later, next⟩ := (all i inside).2.2.resolve_left present
      exact ⟨i + 1, later, next⟩
  refine ⟨named, ?_⟩
  intro range member
  obtain ⟨ptr, inside, rfl⟩ := List.mem_map.mp member
  obtain ⟨i, bound, rfl⟩ := named ptr inside
  exact ⟨(all i bound).1, (all i bound).2.1⟩

theorem Outcome.of_toOption {A : Type} {outcome : Outcome A} {value : A} (some : outcome.toOption = some value) :
    outcome = .ok value := by
  cases outcome with
  | error fault => cases some
  | ok other => rw [Option.some.inj some]

/-- What a call on the state behind a run returns, and the record that it takes. -/
def betweenFacts (run : List SpaceCall) (count : Nat) :
    Option (Option Nat × Nat × Bool × Option Nat × Option Nat) :=
  (runSpaceCalls (clearCalls.checked LowFrame .diverges) run (clearKernel.noting [] [])).toOption.map fun final =>
    let kernel := final.2.withEnv final.2.env.env
    (final.1.head?, (kernel.space firstSpace).region, lowRegions count kernel,
      (clearCalls.blockAlloc .vmmRegion kernel.env).toOption.map Prod.fst,
      (vmmAllocBetween (clearCalls.checkedFrames LowFrame .diverges) firstSpace 0x10000 0x200000 1 7
        (kernel.noting [] final.2.env.frames)).toOption.map Prod.fst)

/-- The call starts in a coherent space, and its frames are fresh. -/
theorem between_of_facts {run : List SpaceCall} {count record ret : Nat}
    (valid : ∀ results, ValidSpaceRun LowFrame [] run (firstSpace :: results) ∧
      createdSpaces [] run (firstSpace :: results) = [firstSpace]) (positive : 0 < count)
    (facts : betweenFacts run count = some (some firstSpace, regionRecord 0, true, some record, some ret)) :
    ∃ results kernel kernel' ptrs frames env, runSpaceCalls clearCalls run clearKernel = .ok (results, kernel) ∧
      Coherent (clearCalls.noted LowFrame .diverges) (· = firstSpace) (fun _ => ptrs)
        (kernel.noting (spaceRecords firstSpace ptrs) frames) ∧ BetweenRoom kernel ptrs 0x10000 1 ∧
      vmmAllocBetween (clearCalls.checkedFrames LowFrame .diverges) firstSpace 0x10000 0x200000 1 7
        (kernel.noting [] frames) ≠ .error .diverges ∧
      clearCalls.blockAlloc .vmmRegion kernel.env = .ok (record, env) ∧
      vmmAllocBetween clearCalls firstSpace 0x10000 0x200000 1 7 kernel = .ok (ret, kernel') ∧
      (kernel.space firstSpace).region = regionRecord 0 ∧ ∀ ptr ∈ ptrs, ∃ i < count, ptr = regionRecord i := by
  rw [betweenFacts] at facts
  cases checked : runSpaceCalls (clearCalls.checked LowFrame .diverges) run (clearKernel.noting [] []) with
  | error fault =>
      rw [checked] at facts
      cases facts
  | ok final =>
      obtain ⟨results, final⟩ := final
      rw [checked] at facts
      obtain ⟨first, facts⟩ := Prod.mk.inj (Option.some.inj facts)
      obtain ⟨head, facts⟩ := Prod.mk.inj facts
      obtain ⟨low, facts⟩ := Prod.mk.inj facts
      obtain ⟨answer, between⟩ := Prod.mk.inj facts
      dsimp only at first head low answer between
      obtain ⟨rest, rfl⟩ := List.head?_eq_some_iff.mp first
      obtain ⟨reached, lists, whole⟩ := coherent_of_checked (valid rest).1 (valid rest).2 checked
      have coherent := whole.narrow
      generalize lists firstSpace = ptrs at coherent
      generalize final.withEnv final.env.env = kernel at *
      generalize final.env.frames = frames at *
      obtain ⟨⟨taken, env⟩, returned, rfl⟩ := Option.map_eq_some_iff.mp answer
      obtain ⟨⟨value, noted⟩, called, rfl⟩ := Option.map_eq_some_iff.mp between
      have returned' := Outcome.of_toOption returned
      have called' := Outcome.of_toOption called
      obtain ⟨named, ends⟩ := coherent.spaceLinks.lowRegions head positive low
      have real := vmmAllocBetween_follows (@KernelCalls.checkedFrames_follows _ clearCalls LowFrame _ .diverges)
        (kernel.noting_like [] frames) firstSpace 0x10000 0x200000 1 7
      obtain ⟨_, done, ⟨_, _, kernel', like⟩⟩ := real.of_ok called'
      refine ⟨_, kernel, kernel', ptrs, frames, env, reached, coherent, ⟨by decide, ?_⟩, ?_, returned', done, head, named⟩
      · intro range inside
        have bound := (ends range inside).1
        unfold pageSizeInBytes
        omega
      · rw [called']
        simp

/-- Two regions of a new space lie three pages apart. -/
def apartRun : List SpaceCall :=
  [.create 0 0, .allocAt firstSpace 0x10000 1 7, .allocAt firstSpace 0x14000 1 7]

theorem apartRun_valid (results : List Nat) : ValidSpaceRun LowFrame [] apartRun (firstSpace :: results) ∧
    createdSpaces [] apartRun (firstSpace :: results) = [firstSpace] := by
  have flags : PageFlags 7 := ⟨by decide, by decide⟩
  have later := @validSpaceRun_of_forall LowFrame [firstSpace] [.allocAt firstSpace 0x10000 1 7,
    .allocAt firstSpace 0x14000 1 7] (by
      intro call member result
      rcases List.mem_pair.mp member with rfl | rfl
      · exact ⟨⟨by simp, by decide, flags⟩, rfl⟩
      · exact ⟨⟨by simp, by decide, flags⟩, rfl⟩) results
  exact ⟨⟨trivial, later.1⟩, later.2⟩

end B0s
