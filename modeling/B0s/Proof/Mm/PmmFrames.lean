import B0s.Construction.Mm.Allocator
import B0s.Proof.Mm.PmmRestore

/-
This file connects `pmm.c` to the contract that the memory manager puts on its frames.
-/

namespace B0s
open ByteMemory

section
variable {mem : Memory} {bm : Bitmap}

/-- A search that finds a set bit reads no unassigned local. -/
theorem bitmapFindAndSet_assigned (fits : bm.Fits) (first second : Nat)
    (set : ∃ j < 64 * bm.sizeInBlock, bm.bit mem j = true) :
    bitmapFindAndSet bm first mem = bitmapFindAndSet bm second mem := by
  obtain ⟨j, bound, set⟩ := set
  refine Prod.ext ?_ (bitmapFindAndSet_memory bm first second)
  rcases bitmapFindAndSet_spec mem fits first with ⟨zero, -⟩ | ⟨k, mem', result, inside, found, least, -⟩
  · rw [zero j bound] at set
    cases set
  rcases bitmapFindAndSet_spec mem fits second with ⟨zero, -⟩ | ⟨k', mem'', result', inside', found', least', -⟩
  · rw [zero j bound] at set
    cases set
  have same : k = k' := by
    rcases lt_trichotomy k k' with before | same | after
    · rw [least' k before] at found
      cases found
    · exact same
    · rw [least k' after] at found'
      cases found'
  rw [result, result', same]

/-- A search that returns the length has found every index in use. -/
theorem bitmapFindAndSet_full (fits : bm.Fits) (unassigned : Nat)
    (passed : (bitmapFindAndSet bm unassigned mem).1 = bm.len) : bm.Full mem := by
  have covers := fits.covers
  rcases bitmapFindAndSet_spec mem fits unassigned with ⟨zero, -⟩ | ⟨k, mem', result, -, -, least, -⟩
  · exact fun j inside => zero j (inside.trans covers)
  · rw [result] at passed
    exact fun j inside => least j (by omega)

/-- An allocation that reads no unassigned local does not depend on its value. -/
theorem pmmAllocFrom_assigned {regions : List PmmRegion} (mapped : Mapped regions) (first second : Nat → Nat) (i : Nat)
    (assigned : Assigned regions mem) :
    pmmAllocFrom first i regions mem = pmmAllocFrom second i regions mem := by
  induction regions generalizing i mem with
  | nil => rfl
  | cons region rest ih =>
      have mappedRest : Mapped rest := fun other member => mapped other (List.mem_cons_of_mem _ member)
      rw [Assigned] at assigned
      by_cases available : region.type = .available
      · have here := mapped region List.mem_cons_self available
        rw [if_pos available] at assigned
        have search : bitmapFindAndSet region.bitmap (first i) mem = bitmapFindAndSet region.bitmap (second i) mem := by
          by_cases set : ∃ j < 64 * region.bitmap.sizeInBlock, region.bit mem j = true
          · exact bitmapFindAndSet_assigned here.fits _ _ set
          · have empty : region.sizeInPages = 0 := by
              rw [← here.len]
              exact Nat.eq_zero_of_not_pos fun nonempty => set (assigned.1 nonempty)
            have none : ∀ k < 64 * region.bitmap.sizeInBlock, region.bit mem k = false := by
              simpa using set
            rw [here.find_none none, here.find_none none, empty, Nat.min_zero, Nat.min_zero]
        rw [pmmAllocFrom, pmmAllocFrom, if_neg (not_not.mpr available), if_neg (not_not.mpr available), search]
        by_cases passed : (bitmapFindAndSet region.bitmap (second i) mem).1 = region.bitmap.len
        · have later := assigned.2 (bitmapFindAndSet_full here.fits (second i) passed)
          rw [bitmapFindAndSet_memory _ NULL (second i)] at later
          dsimp only
          rw [if_pos passed, if_pos passed]
          exact ih mappedRest (i + 1) later
        · dsimp only
          rw [if_neg passed, if_neg passed]
      · rw [if_neg available] at assigned
        rw [pmmAllocFrom, pmmAllocFrom, if_pos available, if_pos available]
        exact ih mappedRest (i + 1) assigned

end

/-- The state of the page allocator over a memory map, in which every held page is taken. -/
structure FrameState (pmap : List PmmRegion) where
  holding : Holding
  owned : Owned holding
  table : holding.pmm.pmap = pmap

section
variable {unassigned : Nat → Nat} {state : Holding}

/-- The caller of `pmm_xalloc` holds the page. -/
theorem Owned.xalloc (owned : Owned state) (nonnull : (pmmAlloc unassigned state.pmm).1 ≠ NULL) :
    Owned ⟨(pmmAlloc unassigned state.pmm).1 :: state.held, (pmmAlloc unassigned state.pmm).2⟩ := by
  have runs : (PmmCall.alloc unassigned).run (fun _ => 0) state =
      .ok ⟨(pmmAlloc unassigned state.pmm).1 :: state.held, (pmmAlloc unassigned state.pmm).2⟩ := by
    rw [PmmCall.run]
    dsimp only
    rw [if_neg nonnull]
  exact owned.alloc runs

end

section
variable {pmap : List PmmRegion} {undefined unassigned : Nat → Nat} {state state' : FrameState pmap} {page : Nat}

open Classical in
/-- `pmm_xalloc` on a state, up to a call that would read an unassigned local. -/
noncomputable def FrameState.xalloc (unassigned : Nat → Nat) (state : FrameState pmap) :
    Outcome (Nat × FrameState pmap) :=
  if Assigned state.holding.pmm.pmap state.holding.pmm.mem then
    if null : (pmmAlloc unassigned state.holding.pmm).1 = NULL then .error (.panic .pmmXallocNoMemory)
    else .ok ((pmmAlloc unassigned state.holding.pmm).1, ⟨_, state.owned.xalloc null, state.table⟩)
  else .error .diverges

open Classical in
/-- `pmm_free` on a state, up to a call on a page that nobody holds or that would set another bit. -/
noncomputable def FrameState.free (undefined : Nat → Nat) (page : Nat) (state : FrameState pmap) :
    Outcome (FrameState pmap) :=
  if safe : ReleasesHeld state.holding (.free page) ∧ AvoidsDefects state.holding (.free page) then
    match freed : (PmmCall.free page).run undefined state.holding with
    | .ok holding => .ok ⟨holding, state.owned.free safe.1 safe.2 freed, (PmmCall.run_pmap freed).trans state.table⟩
    | .error fault => .error fault
  else .error .diverges

/-- An allocation that returns is one of the code, and its caller holds the page. -/
theorem FrameState.xalloc_eq_ok (done : state.xalloc unassigned = .ok (page, state')) :
    Assigned state.holding.pmm.pmap state.holding.pmm.mem ∧ page ≠ NULL ∧
      pmmAlloc unassigned state.holding.pmm = (page, state'.holding.pmm) ∧
      state'.holding.held = page :: state.holding.held := by
  rw [FrameState.xalloc] at done
  split_ifs at done with assigned null
  obtain ⟨rfl, rfl⟩ := Prod.mk.inj (Except.ok.inj done)
  exact ⟨assigned, null, rfl, rfl⟩

/-- A release that returns is one of the code, and nobody holds its page. -/
theorem FrameState.free_eq_ok (done : state.free undefined page = .ok state') :
    (PmmCall.free page).run undefined state.holding = .ok state'.holding ∧
      state'.holding.held = state.holding.held.filter (· ≠ page) := by
  rw [FrameState.free] at done
  split_ifs at done with safe
  split at done
  · rename_i holding freed
    obtain rfl := Except.ok.inj done
    obtain ⟨pmm, -, rest⟩ := Outcome.bind_eq_ok.mp freed
    obtain rfl := Except.ok.inj rest
    exact ⟨freed, rfl⟩
  · cases done

/-- A held page is a page of an available region. -/
theorem FrameState.page_of_held (state : FrameState pmap) (held : page ∈ state.holding.held) :
    ∃ region ∈ pmap, region.type = .available ∧ ∃ j < region.sizeInPages, page = region.page j := by
  obtain ⟨region, member, available, j, inside, same, -⟩ := state.owned.taken page held
  exact ⟨region, state.table ▸ member, available, j, inside, same⟩

/-- A held page is aligned and lies in the address space. -/
theorem FrameState.aligned_of_held (state : FrameState pmap) (held : page ∈ state.holding.held) :
    page % pageSizeInBytes = 0 ∧ page < 2 ^ 64 := by
  obtain ⟨region, member, available, j, inside, rfl, -⟩ := state.owned.taken page held
  have aligned := (state.owned.mapped region member available).aligned.addr
  have unwrapped := state.owned.unwrapped region member available
  rw [unwrapped.page inside]
  unfold PmmRegion.Unwrapped at unwrapped
  unfold pageSizeInBytes
  omega

/-- `pmm.c` is a frame allocator, up to its two defects. -/
noncomputable def pmmFrames (undefined unassigned : Nat → Nat) (pmap : List PmmRegion) :
    FrameAllocator (FrameState pmap) where
  managed page := ∃ region ∈ pmap, region.type = .available ∧ ∃ j < region.sizeInPages, page = region.page j
  held state page := page ∈ state.holding.held
  pmmXalloc := FrameState.xalloc unassigned
  pmmFree := FrameState.free undefined
  xalloc_aligned := by
    intro state page state' done
    obtain ⟨-, -, -, held⟩ := FrameState.xalloc_eq_ok done
    exact state'.aligned_of_held (held ▸ List.mem_cons_self)
  held_managed state page held := state.page_of_held held
  xalloc_fresh := by
    intro state page state' done
    obtain ⟨assigned, nonnull, same, -⟩ := FrameState.xalloc_eq_ok done
    have fresh := @Owned.alloc_fresh _ state.owned unassigned assigned
    rw [same] at fresh
    exact fresh nonnull
  xalloc_held := by
    intro state page state' done other
    obtain ⟨-, -, -, held⟩ := FrameState.xalloc_eq_ok done
    rw [held, List.mem_cons, or_comm]
  free_held := by
    intro state page state' done other
    obtain ⟨-, held⟩ := FrameState.free_eq_ok done
    rw [held, List.mem_filter, decide_eq_true_eq]

end

/-- A call on a frame allocator returns its page. -/
def PmmCall.onFrames {σ : Type} (frames : FrameAllocator σ) : PmmCall → σ → Outcome (Nat × σ)
  | .alloc _, env => frames.pmmXalloc env
  | .free page, env => (frames.pmmFree page env).map fun env' => (page, env')

/-- A call of `pmm_xalloc` or of `pmm_free` returns its page. -/
def PmmCall.onPmm (undefined : Nat → Nat) : PmmCall → Pmm → Outcome (Nat × Pmm)
  | .alloc unassigned, pmm => pmmXalloc unassigned pmm
  | .free page, pmm => (pmmFree undefined page pmm).map fun pmm' => (page, pmm')

/-- The pages of a run, in order. -/
def pagesOf {σ : Type} (step : PmmCall → σ → Outcome (Nat × σ)) : List PmmCall → σ → Outcome (List Nat × σ)
  | [], env => .ok ([], env)
  | call :: calls, env => step call env >>= fun result =>
      (pagesOf step calls result.2).map fun rest => (result.1 :: rest.1, rest.2)

section
variable {pmap : List PmmRegion} {undefined unassigned : Nat → Nat} {state state' : FrameState pmap} {call : PmmCall}
  {calls : List PmmCall} {page : Nat}

/-- An allocation that reads no unassigned local is the one of the code. -/
theorem FrameState.alloc_eq (state : FrameState pmap) (assigned : Assigned state.holding.pmm.pmap state.holding.pmm.mem)
    (first second : Nat → Nat) : pmmAlloc first state.holding.pmm = pmmAlloc second state.holding.pmm := by
  rw [pmmAlloc, pmmAlloc, pmmAllocFrom_assigned state.owned.mapped first second 0 assigned]

/-- A call that avoids the defects is the one of the code. -/
theorem FrameState.call_eq (state : FrameState pmap)
    (safe : ReleasesHeld state.holding call ∧ AvoidsDefects state.holding call) :
    (call.onFrames (pmmFrames undefined unassigned pmap) state).map (fun result => (result.1, result.2.holding.pmm)) =
      call.onPmm undefined state.holding.pmm := by
  cases call with
  | alloc garbage =>
      have assigned : Assigned state.holding.pmm.pmap state.holding.pmm.mem := safe.2
      change (state.xalloc unassigned).map _ = pmmXalloc garbage state.holding.pmm
      rw [FrameState.xalloc, if_pos assigned, pmmXalloc, state.alloc_eq assigned garbage unassigned]
      dsimp only
      by_cases null : (pmmAlloc unassigned state.holding.pmm).1 = NULL
      · rw [dif_pos null, if_pos null]
        rfl
      · rw [dif_neg null, if_neg null]
        rfl
  | free page =>
      obtain ⟨pmm, freed, -⟩ := @Owned.free_exact undefined _ state.owned page safe.1 safe.2
      have runs : (PmmCall.free page).run undefined state.holding =
          .ok ⟨state.holding.held.filter (· ≠ page), pmm⟩ := by
        rw [PmmCall.run, freed]
        rfl
      change ((state.free undefined page).map _).map _ = (pmmFree undefined page state.holding.pmm).map _
      rw [FrameState.free, dif_pos safe, freed]
      split
      · rename_i holding done
        obtain rfl := Except.ok.inj (done.symm.trans runs)
        rfl
      · rename_i fault failed
        rw [runs] at failed
        cases failed

/-- A call that returns is a step of the holders. -/
theorem FrameState.call_run (done : call.onFrames (pmmFrames undefined unassigned pmap) state = .ok (page, state')) :
    call.run undefined state.holding = .ok state'.holding := by
  cases call with
  | alloc garbage =>
      obtain ⟨assigned, nonnull, same, held⟩ := FrameState.xalloc_eq_ok done
      rw [PmmCall.run, state.alloc_eq assigned garbage unassigned, same]
      dsimp only
      rw [if_neg nonnull, ← held]
  | free page =>
      obtain ⟨final, freed, same⟩ := Outcome.map_eq_ok.mp done
      obtain ⟨rfl, rfl⟩ := Prod.mk.inj same
      exact (FrameState.free_eq_ok freed).1

/-- A run that avoids the defects is the one of the code. -/
theorem FrameState.run_eq (state : FrameState pmap)
    (safe : Along undefined (fun holding call => ReleasesHeld holding call ∧ AvoidsDefects holding call) calls
      state.holding) :
    (pagesOf (PmmCall.onFrames (pmmFrames undefined unassigned pmap)) calls state).map
        (fun result => (result.1, result.2.holding.pmm)) =
      pagesOf (PmmCall.onPmm undefined) calls state.holding.pmm := by
  induction calls generalizing state with
  | nil => rfl
  | cons call calls ih =>
      have same := @FrameState.call_eq _ undefined unassigned _ state safe.1
      rw [pagesOf, pagesOf, ← same]
      cases done : call.onFrames (pmmFrames undefined unassigned pmap) state with
      | error fault => rfl
      | ok result =>
          have rest := ih result.2 (safe.2 _ (FrameState.call_run done))
          change ((pagesOf _ calls result.2).map _).map _ = (pagesOf _ calls result.2.holding.pmm).map _
          rw [← rest]
          cases pagesOf (PmmCall.onFrames (pmmFrames undefined unassigned pmap)) calls result.2 <;> rfl

end

/-- After every accepted boot on an unwrapped map, in every run whose calls release only held pages and avoid the
defects, `pmm.c` returns the pages that its contract returns, and no value of an unassigned local matters. -/
theorem pmm_refines_frames (image : KernelImage) (undefined garbage : Nat → Nat) (unassigned : Nat → Nat → Nat)
    (mmap : List MultibootMmapEntry) (mem : Memory) (calls : List PmmCall) (pages : List Nat) (count : Nat) (pmm : Pmm)
    (unwrapped : UnwrappedMap image mmap) (booted : pmmInit image unassigned mmap mem = .ok (pages, count, pmm))
    (safe : Along undefined (fun state call => ReleasesHeld state call ∧ AvoidsDefects state call) calls
      ⟨pages.filter (· ≠ NULL), pmm⟩) :
    ∃ start : FrameState pmm.pmap, start.holding = ⟨pages.filter (· ≠ NULL), pmm⟩ ∧
      (pagesOf (PmmCall.onFrames (pmmFrames undefined garbage pmm.pmap)) calls start).map
          (fun result => (result.1, result.2.holding.pmm)) = pagesOf (PmmCall.onPmm undefined) calls pmm := by
  obtain ⟨pmap, boot⟩ := pmmInit_booted booted
  let start : FrameState pmm.pmap := ⟨⟨pages.filter (· ≠ NULL), pmm⟩, boot.owned unwrapped, rfl⟩
  exact ⟨start, rfl, start.run_eq safe⟩

/-- With 33 gibibytes the contract returns a released page again, whatever its unassigned locals hold. -/
theorem pmm_refines_frames_large :
    ∃ pages count pmm, pmmInit bootImage (fun _ _ => 0) (oneEntry 0x840000000 (by decide)) (fun _ => 0) =
        .ok (pages, count, pmm) ∧
      ∃ start : FrameState pmm.pmap, start.holding = ⟨pages.filter (· ≠ NULL), pmm⟩ ∧
        (pagesOf (PmmCall.onFrames (pmmFrames (fun _ => 0) (fun _ => 7) pmm.pmap))
          [allocZero, allocZero, .free 0x223000, allocZero] start).map Prod.fst =
            .ok [0x222000, 0x223000, 0x223000, 0x223000] := by
  have evaluated : (pmmInit bootImage (fun _ _ => 0) (oneEntry 0x840000000 (by decide)) (fun _ => 0) >>= fun boot =>
      (pagesOf (PmmCall.onPmm fun _ => 0) [allocZero, allocZero, .free 0x223000, allocZero] boot.2.2).map Prod.fst) =
        .ok [0x222000, 0x223000, 0x223000, 0x223000] := by
    decide +kernel
  obtain ⟨pages, count, pmm, booted, safe⟩ := largeRegion_run
  obtain ⟨start, holds, same⟩ := pmm_refines_frames bootImage (fun _ => 0) (fun _ => 7) _ _ _ _ pages count pmm
    oneEntry_unwrapped booted safe
  rw [booted, Outcome.ok_bind, ← same] at evaluated
  refine ⟨pages, count, pmm, booted, start, holds, ?_⟩
  rw [← evaluated]
  cases pagesOf (PmmCall.onFrames (pmmFrames (fun _ => 0) (fun _ => 7) pmm.pmap))
    [allocZero, allocZero, .free 0x223000, allocZero] start <;> rfl

end B0s
