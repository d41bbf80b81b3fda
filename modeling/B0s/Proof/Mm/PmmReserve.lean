import B0s.Proof.Mm.PmmRun

/-
This file settles for which memory maps and runs the pages of the bitmaps stay reserved.
-/

namespace B0s
open ByteMemory

/-- The words that the bitmaps of the available regions have. -/
def blocks (pmap : List PmmRegion) : List Nat :=
  (pmap.filter fun region => region.type = .available).map fun region =>
    bitmapSizeInBlock region.sizeInPages

/-- Each bitmap, with eight bytes for each word, ends in the pages that the source reserves, which
count one byte for each word. -/
def BitmapsFit (pmap : List PmmRegion) : Prop :=
  ∀ before region after, pmap = before ++ region :: after → region.type = .available →
    (blocks before).sum + 8 * bitmapSizeInBlock region.sizeInPages ≤
      ((blocks pmap).sum + 4095) / 4096 * 4096

theorem blocks_cons_available {region : PmmRegion} (available : region.type = .available)
    (rest : List PmmRegion) :
    blocks (region :: rest) = bitmapSizeInBlock region.sizeInPages :: blocks rest := by
  simp [blocks, available]

theorem blocks_cons_reserved {region : PmmRegion} (reserved : region.type ≠ .available)
    (rest : List PmmRegion) : blocks (region :: rest) = blocks rest := by
  simp [blocks, reserved]

theorem blocks_append (before after : List PmmRegion) :
    blocks (before ++ after) = blocks before ++ blocks after := by
  simp [blocks]

theorem blocks_range (pmap : List PmmRegion) : blocks (pmap.map PmmRegion.range) = blocks pmap := by
  induction pmap with
  | nil => rfl
  | cons region rest ih =>
      rw [List.map_cons]
      by_cases available : region.type = .available
      · rw [blocks_cons_available available, ← ih, blocks_cons_available]
        · rfl
        · exact available
      · rw [blocks_cons_reserved available, ← ih, blocks_cons_reserved]
        exact available

/-- A bound on the words of so many bitmaps that fit. -/
def blocksLimit : Nat → Nat
  | 0 => 0
  | count + 1 => blocksLimit count + (blocksLimit count + 4095) / 7

/-- Bitmaps that fit are few and small. -/
theorem blocks_sum_le {pmap : List PmmRegion}
    (fit : ∀ before region after, pmap = before ++ region :: after → region.type = .available →
      8 * bitmapSizeInBlock region.sizeInPages ≤ (blocks (region :: after)).sum + 4095) :
    (blocks pmap).sum ≤ blocksLimit pmap.length := by
  induction pmap with
  | nil => simp [blocks, blocksLimit]
  | cons region rest ih =>
      have tail := ih fun before other after split => by
        refine fit (region :: before) other after ?_
        rw [split, List.cons_append]
      rw [List.length_cons, blocksLimit]
      by_cases available : region.type = .available
      · have head := fit [] region rest rfl available
        rw [blocks_cons_available available, List.sum_cons] at head ⊢
        omega
      · rw [blocks_cons_reserved available]
        omega

theorem BitmapsFit.sum_le {pmap : List PmmRegion} (fit : BitmapsFit pmap)
    (short : pmap.length ≤ pmapSizeLimit) : (blocks pmap).sum ≤ 11466 := by
  have bound : (blocks pmap).sum ≤ blocksLimit pmap.length := by
    apply blocks_sum_le
    intro before region after split available
    have fits := fit before region after split available
    rw [split, blocks_append, List.sum_append] at fits
    omega
  have limit : ∀ count ≤ pmapSizeLimit, blocksLimit count ≤ 11466 := by decide
  exact le_trans bound (limit _ short)

/-- The bitmaps start behind the words of the earlier ones. -/
theorem Placed.bitmap_eq {pmap : List PmmRegion} {ptr : Nat} (mapped : Mapped pmap)
    (placed : Placed pmap ptr) (small : ptr + (blocks pmap).sum < 2 ^ 64)
    {before after : List PmmRegion} {region : PmmRegion} (split : pmap = before ++ region :: after)
    (available : region.type = .available) :
    region.bitmap.bitmap = ptr + (blocks before).sum := by
  induction before generalizing pmap ptr with
  | nil =>
      subst split
      rw [List.nil_append, Placed, if_pos available] at placed
      rw [placed.1]
      rfl
  | cons first before ih =>
      subst split
      have mappedRest : Mapped (before ++ region :: after) := fun other member =>
        mapped other (List.mem_cons_of_mem _ member)
      rw [List.cons_append] at placed small
      rw [Placed] at placed
      by_cases kind : first.type = .available
      · have blocksEq := (mapped first List.mem_cons_self kind).blocks
        rw [if_pos kind, blocksEq] at placed
        rw [blocks_cons_available kind, List.sum_cons] at small ⊢
        have next : u64 (ptr + bitmapSizeInBlock first.sizeInPages) =
            ptr + bitmapSizeInBlock first.sizeInPages := by
          unfold u64
          omega
        rw [next] at placed
        rw [ih mappedRest placed.2 (by omega) rfl]
        omega
      · rw [if_neg kind] at placed
        rw [blocks_cons_reserved kind] at small ⊢
        exact ih mappedRest placed small rfl

theorem bitmapsEnd_eq {pmap : List PmmRegion} {ptr : Nat} (small : ptr + (blocks pmap).sum < 2 ^ 64) :
    bitmapsEnd pmap ptr = ptr + (blocks pmap).sum := by
  induction pmap generalizing ptr with
  | nil => rfl
  | cons region rest ih =>
      rw [bitmapsEnd]
      by_cases available : region.type = .available
      · rw [blocks_cons_available available, List.sum_cons] at small ⊢
        have next : u64 (ptr + bitmapSizeInBlock region.sizeInPages) =
            ptr + bitmapSizeInBlock region.sizeInPages := by
          unfold u64
          omega
        rw [if_pos available, next, ih (by omega)]
        omega
      · rw [blocks_cons_reserved available] at small ⊢
        rw [if_neg available, ih small]

/-- Two memories agree outside a list of places. -/
def AgreeOutside (places : List (Nat × Nat)) (mem mem' : Memory) : Prop :=
  ∀ spot, Valid spot → spot ∉ places → ByteMemory.bit mem' spot = ByteMemory.bit mem spot

theorem AgreeOutside.trans {first second : List (Nat × Nat)} {mem mem' mem'' : Memory}
    (agree : AgreeOutside first mem mem') (agree' : AgreeOutside second mem' mem'') :
    AgreeOutside (first ++ second) mem mem'' := by
  intro spot valid outside
  rw [List.mem_append, not_or] at outside
  rw [agree' spot valid outside.2, agree spot valid outside.1]

theorem Bitmap.Writes.agree {bm : Bitmap} {j : Nat} {value : Bool} {mem mem' : Memory}
    (writes : bm.Writes j value mem mem') : AgreeOutside [bm.place j] mem mem' := by
  intro spot valid outside
  rw [writes spot valid, if_neg (by simpa using outside)]

/-- The search of a bitmap changes at most one place. -/
theorem bitmapFindAndSet_agree {bm : Bitmap} (fits : bm.Fits) (unassigned : Nat) (mem : Memory) :
    ∃ places, places.length ≤ 1 ∧ AgreeOutside places mem (bitmapFindAndSet bm unassigned mem).2 := by
  rcases bitmapFindAndSet_spec mem fits unassigned with ⟨-, result⟩ | ⟨j, mem', result, -, -, -, writes⟩
  · refine ⟨[], by simp, ?_⟩
    rw [result]
    exact fun _ _ _ => rfl
  · refine ⟨[bm.place j], by simp, ?_⟩
    rw [result]
    exact writes.agree

/-- An allocation changes at most one place for each region. -/
theorem pmmAllocFrom_agree {regions : List PmmRegion} (mapped : Mapped regions)
    (unassigned : Nat → Nat) (i : Nat) (mem : Memory) :
    ∃ places, places.length ≤ regions.length ∧
      AgreeOutside places mem (pmmAllocFrom unassigned i regions mem).2 := by
  induction regions generalizing i mem with
  | nil => exact ⟨[], le_refl _, fun _ _ _ => rfl⟩
  | cons region rest ih =>
      have mappedRest : Mapped rest := fun other member => mapped other (List.mem_cons_of_mem _ member)
      rw [pmmAllocFrom]
      by_cases available : region.type = .available
      · rw [if_neg (not_not.mpr available)]
        obtain ⟨places, one, agree⟩ := bitmapFindAndSet_agree
          (mapped region List.mem_cons_self available).fits (unassigned i) mem
        obtain ⟨later, few, agree'⟩ := ih mappedRest (i + 1)
          (bitmapFindAndSet region.bitmap (unassigned i) mem).2
        dsimp only
        split_ifs
        · refine ⟨places ++ later, ?_, agree.trans agree'⟩
          rw [List.length_append, List.length_cons]
          omega
        · refine ⟨places, ?_, agree⟩
          rw [List.length_cons]
          omega
      · rw [if_pos available]
        obtain ⟨places, few, agree⟩ := ih mappedRest (i + 1) mem
        refine ⟨places, ?_, agree⟩
        rw [List.length_cons]
        omega

/-- Fewer than 64 changed places leave a bit of a word set. -/
theorem exists_unchanged (bm : Bitmap) {places : List (Nat × Nat)} (few : places.length < 64) :
    ∃ j < 64, bm.place j ∉ places := by
  by_contra none
  push Not at none
  have inside : (Finset.range 64).image bm.place ⊆ places.toFinset := by
    intro spot member
    obtain ⟨j, bound, rfl⟩ := Finset.mem_image.mp member
    exact List.mem_toFinset.mpr (none j (Finset.mem_range.mp bound))
  have injective : Set.InjOn bm.place (Finset.range 64) := by
    intro j bound k bound' same
    have small : j < 64 := by simpa using bound
    have small' : k < 64 := by simpa using bound'
    exact Bitmap.place_injective (by omega) (by omega) same
  have count := Finset.card_le_card inside
  rw [Finset.card_image_of_injOn injective, Finset.card_range] at count
  have length := List.toFinset_card_le places
  omega

/-- While few bits are changed, an allocation reads no unassigned local. -/
theorem assigned_of_few {regions : List PmmRegion} {mem mem' : Memory} {places : List (Nat × Nat)}
    (mapped : Mapped regions) (allSet : AllSet regions mem) (agree : AgreeOutside places mem mem')
    (few : places.length + regions.length ≤ 64) : Assigned regions mem' := by
  induction regions generalizing mem' places with
  | nil => trivial
  | cons region rest ih =>
      have mappedRest : Mapped rest := fun other member => mapped other (List.mem_cons_of_mem _ member)
      have allSetRest : AllSet rest mem := fun other member =>
        allSet other (List.mem_cons_of_mem _ member)
      rw [List.length_cons] at few
      rw [Assigned]
      split_ifs with available
      · have here := mapped region List.mem_cons_self available
        constructor
        · intro _
          obtain ⟨j, bound, unchanged⟩ := @exists_unchanged region.bitmap places (by omega)
          have words : j < 64 * region.bitmap.sizeInBlock := by
            rw [here.blocks, bitmapSizeInBlock]
            omega
          refine ⟨j, words, ?_⟩
          have kept := agree _ (region.bitmap.valid_place j) unchanged
          exact kept.trans (allSet region List.mem_cons_self available j words)
        · intro _
          obtain ⟨later, one, agree'⟩ := bitmapFindAndSet_agree here.fits NULL mem'
          apply ih mappedRest allSetRest (agree.trans agree')
          rw [List.length_append]
          omega
      · exact ih mappedRest allSetRest agree (by omega)

/-- A table in the order of its addresses, whose pages are distinct. -/
structure Ordered (pmap : List PmmRegion) : Prop where
  mapped : Mapped pmap
  unwrapped : ∀ region ∈ pmap, region.type = .available → region.Unwrapped
  apart : pmap.Pairwise PmmRegion.Apart
  sorted : Sorted pmap

/-- Pages of later regions have larger addresses. -/
theorem Ordered.page_lt {pmap before after : List PmmRegion} {region other : PmmRegion}
    (ordered : Ordered pmap) (split : pmap = before ++ region :: after)
    (available : region.type = .available) (member : other ∈ after)
    (available' : other.type = .available) {j k : Nat} (inside : j < region.sizeInPages)
    (inside' : k < other.sizeInPages) : region.page j < other.page k := by
  have first := ordered.unwrapped region (by simp [split]) available
  have second := ordered.unwrapped other (by simp [split, member]) available'
  have apart := ordered.apart
  have sorted := ordered.sorted
  rw [split, List.pairwise_append, List.pairwise_cons] at apart
  rw [Sorted, split, List.pairwise_append, List.pairwise_cons] at sorted
  have clear := apart.2.1.1 other member
  have order := sorted.2.1.1 other member
  rw [PmmRegion.Apart, first.stop, second.stop] at clear
  rw [first.page inside, second.page inside']
  omega

/-- No page below the limit is available. -/
def LowTaken (pmm : Pmm) (limit : Nat) : Prop :=
  ∀ region ∈ pmm.pmap, region.type = .available → ∀ j < region.sizeInPages,
    region.page j < limit → region.bit pmm.mem j = false

/-- An allocation takes the lowest available page, so it raises the limit by one page. -/
theorem LowTaken.alloc {pmm : Pmm} {limit : Nat} (low : LowTaken pmm limit)
    (ordered : Ordered pmm.pmap) (assigned : Assigned pmm.pmap pmm.mem) (aligned : limit % 4096 = 0)
    (unassigned : Nat → Nat) : LowTaken (pmmAlloc unassigned pmm).2 (limit + 4096) := by
  have clears := pmmAlloc_clears ordered.mapped unassigned
  intro region member available j inside below
  have start := (ordered.mapped region member available).aligned.addr
  have address := (ordered.unwrapped region member available).page inside
  by_cases lower : region.page j < limit
  · exact clears _ _ (low region member available j inside lower)
  · have here : region.page j = limit := by omega
    rcases @pmmAllocFrom_first unassigned _ _ ordered.mapped 0 assigned with
      ⟨-, all⟩ | ⟨before, taken, after, k, first⟩
    · exact all region member available j inside
    · have notBelow : ¬taken.page k < limit := by
        intro under
        have clear := low taken (by simp [first.split]) first.available k first.inside under
        rw [first.set] at clear
        cases clear
      have listed : region ∈ before ++ taken :: after := by
        rw [← first.split]
        exact member
      rcases List.mem_append.mp listed with earlier | rest
      · exact first.earlier region earlier available j inside
      · rcases List.mem_cons.mp rest with rfl | later
        · rcases Nat.lt_trichotomy j k with less | rfl | greater
          · exact first.lower j less
          · exact first.taken
          · have address' := (ordered.unwrapped region member available).page first.inside
            omega
        · have less := ordered.page_lt first.split first.available later available first.inside inside
          omega

/-- The second loop of the initialisation takes every page below its end. -/
theorem pmmInitReserve_low {unassigned : Nat → Nat → Nat} {stop steps pa count count' : Nat}
    {pmm pmm' : Pmm} {pages : List Nat} {mem : Memory} {places : List (Nat × Nat)}
    (done : pmmInitReserve unassigned stop steps pa count pmm = .ok (pages, count', pmm'))
    (ordered : Ordered pmm.pmap) (short : pmm.pmap.length ≤ 10) (allSet : AllSet pmm.pmap mem)
    (agree : AgreeOutside places mem pmm.mem)
    (few : places.length + 10 * ((stop - pa) / 4096) ≤ 64) (low : LowTaken pmm pa)
    (aligned : pa % 4096 = 0) (alignedStop : stop % 4096 = 0) (order : pa ≤ stop)
    (bounded : stop < 2 ^ 63) : LowTaken pmm' stop := by
  induction steps generalizing pa count pmm pages places with
  | zero => cases done
  | succ steps ih =>
      rw [pmmInitReserve] at done
      split_ifs at done with below
      · obtain ⟨⟨rest, count'', last⟩, inner, finish⟩ := Outcome.bind_eq_ok.mp done
        obtain ⟨rfl, rfl, rfl⟩ : (pmmAlloc (unassigned pa) pmm).1 :: rest = pages ∧ count'' = count' ∧
            last = pmm' := by
          have equal := Except.ok.inj finish
          simp only [Prod.mk.injEq] at equal
          exact equal
        have assigned := assigned_of_few ordered.mapped allSet agree (by omega)
        obtain ⟨changed, count, agree'⟩ :=
          pmmAllocFrom_agree ordered.mapped (unassigned pa) 0 pmm.mem
        have next : u64 (pa + pageSizeInBytes) = pa + 4096 := by
          unfold u64 pageSizeInBytes
          omega
        rw [next] at inner
        refine @ih (pa + 4096) _ (pmmAlloc (unassigned pa) pmm).2 _ (places ++ changed) inner ordered
          short allSet (agree.trans agree') ?_ (low.alloc ordered assigned aligned _) ?_ ?_
        · rw [List.length_append]
          omega
        · omega
        · omega
      · obtain ⟨-, -, rfl⟩ : pages = [] ∧ count' = count ∧ pmm' = pmm := by
          have equal := Except.ok.inj done
          simpa [eq_comm] using equal
        obtain rfl : pa = stop := by omega
        exact low

section
variable {image : KernelImage} {mmap : List MultibootMmapEntry} {pages : List Nat} {pmm : Pmm}
  {pmap : List PmmRegion}

theorem Booted.sorted (booted : Booted image mmap pages pmm pmap) : Sorted pmm.pmap := by
  have ranges : (pmm.pmap.map PmmRegion.range).Pairwise fun region other => region.addr ≤ other.addr := by
    rw [booted.ranges, List.pairwise_map]
    exact (pmapInit_spec booted.table).2.2.1
  rw [List.pairwise_map] at ranges
  exact ranges

theorem Booted.ordered (booted : Booted image mmap pages pmm pmap)
    (unwrapped : UnwrappedMap image mmap) : Ordered pmm.pmap :=
  ⟨booted.mapped, booted.unwrapped unwrapped, booted.apart, booted.sorted⟩

theorem Booted.blocks_eq (booted : Booted image mmap pages pmm pmap) :
    blocks pmm.pmap = blocks pmap := by
  rw [← blocks_range, booted.ranges, blocks_range]

theorem Booted.length_le (booted : Booted image mmap pages pmm pmap) : pmm.pmap.length ≤ 10 := by
  have same := congrArg List.length booted.ranges
  rw [List.length_map, List.length_map] at same
  rw [same]
  exact (pmapInit_spec booted.table).2.1

/-- The end of the bitmaps is the end of the image plus the pages of their words, one byte each. -/
theorem BitmapsFit.stop_eq (fit : BitmapsFit pmap) (short : pmap.length ≤ pmapSizeLimit) :
    roundUp (subU64 (bitmapsEnd pmap image.vmaStop) 1) pageSizeInBytes =
        image.vmaStop + ((blocks pmap).sum + 4095) / 4096 * 4096 ∧
      v2p (image.vmaStop + ((blocks pmap).sum + 4095) / 4096 * 4096) =
        v2p image.vmaStop + ((blocks pmap).sum + 4095) / 4096 * 4096 := by
  have small := fit.sum_le short
  have aligned := Nat.mod_eq_zero_of_dvd image.aligned
  have above := image.above
  have below := image.below
  unfold kernelVma at above below
  have far : bitmapsEnd pmap image.vmaStop = image.vmaStop + (blocks pmap).sum :=
    bitmapsEnd_eq (by omega)
  rw [far, roundUp_pred, v2p, v2p]
  unfold subU64 pageSizeInBytes kernelVma
  generalize (blocks pmap).sum = words at *
  generalize image.vmaStop = stop at *
  constructor
  · omega
  · omega

/-- A table with the same ranges fits as well. -/
theorem BitmapsFit.of_ranges {pmap' : List PmmRegion} (fit : BitmapsFit pmap)
    (same : pmap'.map PmmRegion.range = pmap.map PmmRegion.range) : BitmapsFit pmap' := by
  intro before region after split available
  have total : blocks pmap' = blocks pmap := by
    rw [← blocks_range, same, blocks_range]
  rw [split, List.map_append, List.map_cons] at same
  obtain ⟨before', rest, split', first, second⟩ := List.map_eq_append_iff.mp same.symm
  obtain ⟨region', after', rfl, equal, -⟩ := List.map_eq_cons_iff.mp second
  have type : region'.range.type = region.range.type := congrArg PmmRegion.type equal
  have size : region'.range.sizeInPages = region.range.sizeInPages :=
    congrArg PmmRegion.sizeInPages equal
  have fits := fit before' region' after' split' (Eq.trans type available)
  have sizes : region'.sizeInPages = region.sizeInPages := size
  rw [← blocks_range before', first, blocks_range, sizes] at fits
  rw [total]
  exact fits

/-- Every bitmap lies between the end of the image and the end that the source computes. -/
theorem Booted.bitmaps_inside (booted : Booted image mmap pages pmm pmap) (fit : BitmapsFit pmap) :
    ∀ region ∈ pmm.pmap, region.type = .available → image.vmaStop ≤ region.bitmap.bitmap ∧
      region.bitmap.bitmap + 8 * region.bitmap.sizeInBlock ≤ pmm.pmmVmaStop := by
  intro region member available
  have short := (pmapInit_spec booted.table).2.1
  have small := fit.sum_le short
  have below := image.below
  unfold kernelVma at below
  obtain ⟨before, after, split⟩ := List.append_of_mem member
  have start := booted.placed.bitmap_eq booted.mapped (by rw [booted.blocks_eq]; omega) split available
  have fits := fit.of_ranges booted.ranges before region after split available
  rw [booted.blocks_eq] at fits
  rw [booted.stop, (fit.stop_eq short).1, start, (booted.mapped region member available).blocks]
  generalize (blocks before).sum = prior at *
  generalize bitmapSizeInBlock region.sizeInPages = words at *
  omega

/-- After the initialisation no page before the computed end is available. -/
theorem pmmInit_low {unassigned : Nat → Nat → Nat} {mem : Memory} {count : Nat}
    (unwrapped : UnwrappedMap image mmap) (table : pmapInit image mmap = .ok pmap)
    (fit : BitmapsFit pmap) (booted : pmmInit image unassigned mmap mem = .ok (pages, count, pmm)) :
    LowTaken pmm (v2p pmm.pmmVmaStop) := by
  obtain ⟨pmap', boot⟩ := pmmInit_booted booted
  obtain rfl := Except.ok.inj (table.symm.trans boot.table)
  have ordered := boot.ordered unwrapped
  have short := boot.length_le
  obtain ⟨pmap', accepted, rest⟩ := Outcome.bind_eq_ok.mp booted
  obtain rfl := Except.ok.inj (table.symm.trans accepted)
  have made := pmmInitBitmaps_made (pmapInit_aligned accepted) image.vmaStop 0 mem
  obtain ⟨⟨mem', rfl, -⟩, -⟩ := pmmInitReserve_spec made.mapped rest
  obtain ⟨stopEq, physical⟩ := @BitmapsFit.stop_eq image _ fit (pmapInit_spec table).2.1
  have small := fit.sum_le (pmapInit_spec table).2.1
  have bounds := image.v2p_bounds
  have agree : AgreeOutside [] (pmmInitBitmaps pmap image.vmaStop 0 mem).2.2.2
      (pmmInitBitmaps pmap image.vmaStop 0 mem).2.2.2 := fun _ _ _ => rfl
  have stop : v2p (roundUp (subU64 (pmmInitBitmaps pmap image.vmaStop 0 mem).2.1 1) pageSizeInBytes) =
      v2p image.vmaStop + ((blocks pmap).sum + 4095) / 4096 * 4096 := by
    rw [made.stop, stopEq, physical]
  apply pmmInitReserve_low rest ordered short made.allSet agree
  · rw [stop, List.length_nil]
    generalize (blocks pmap).sum = words at *
    generalize v2p image.vmaStop = kernelStop at *
    omega
  · intro region member available j inside below
    obtain ⟨entry, listed, kind, above, addr, -⟩ := boot.available member available
    have page := (ordered.unwrapped region member available).page inside
    have lower := ((unwrapped entry listed kind above).region kind).2.1
    rw [← addr] at lower
    rw [page] at below
    exact absurd below (Nat.not_lt.mpr (le_trans lower (Nat.le_add_right _ _)))
  · exact bounds.1
  · rw [stop]
    have first := bounds.1
    generalize v2p image.vmaStop = kernelStop at *
    omega
  · rw [stop]
    exact Nat.le_add_right _ _
  · rw [stop]
    have last := bounds.2.2
    generalize v2p image.vmaStop = kernelStop at *
    generalize (blocks pmap).sum = words at *
    omega

end

/-- The page and the bytes have an address in common. -/
def Overlaps (page start size : Nat) : Prop := page < start + size ∧ start < page + 4096

/-- An allocation returns null, or a page outside the reserved pages and all bitmaps. -/
def SparesBitmaps (image : KernelImage) (state : Holding) : PmmCall → Prop
  | .alloc unassigned => (pmmAlloc unassigned state.pmm).1 ≠ NULL →
      ¬(v2p image.vmaStop ≤ (pmmAlloc unassigned state.pmm).1 ∧
        (pmmAlloc unassigned state.pmm).1 < v2p state.pmm.pmmVmaStop) ∧
      ∀ region ∈ state.pmm.pmap, region.type = .available →
        ¬Overlaps (pmmAlloc unassigned state.pmm).1 (v2p region.bitmap.bitmap)
          (8 * region.bitmap.sizeInBlock)
  | .free _ => True

/-- An allocation reads no unassigned local, and a release unsets one bit only. -/
def AvoidsMarking (state : Holding) : PmmCall → Prop
  | .alloc _ => Assigned state.pmm.pmap state.pmm.mem
  | .free page => UnsetsOnly state.pmm page

/-- The bitmaps end before the reserved pages do, and these pages stay taken. -/
structure Reserving (state : Holding) : Prop where
  ordered : Ordered state.pmm.pmap
  bitmaps : ∀ region ∈ state.pmm.pmap, region.type = .available →
    v2p region.bitmap.bitmap + 8 * region.bitmap.sizeInBlock ≤ v2p state.pmm.pmmVmaStop
  aligned : v2p state.pmm.pmmVmaStop % 4096 = 0
  low : LowTaken state.pmm (v2p state.pmm.pmmVmaStop)

section
variable {undefined : Nat → Nat} {state state' : Holding}

/-- Every page returned lies behind the reserved ones. -/
theorem Reserving.alloc_behind (reserving : Reserving state) {unassigned : Nat → Nat}
    (assigned : Assigned state.pmm.pmap state.pmm.mem)
    (nonnull : (pmmAlloc unassigned state.pmm).1 ≠ NULL) :
    v2p state.pmm.pmmVmaStop ≤ (pmmAlloc unassigned state.pmm).1 := by
  rcases @pmmAllocFrom_first unassigned _ _ reserving.ordered.mapped 0 assigned with
    ⟨null, -⟩ | ⟨before, region, after, j, first⟩
  · exact absurd null nonnull
  · by_contra below
    have member : region ∈ state.pmm.pmap := by simp [first.split]
    have page : (pmmAlloc unassigned state.pmm).1 = region.page j := first.page
    rw [page, Nat.not_le] at below
    have clear := reserving.low region member first.available j first.inside below
    rw [first.set] at clear
    cases clear

theorem Reserving.alloc_spares (reserving : Reserving state) (image : KernelImage)
    (assigned : Assigned state.pmm.pmap state.pmm.mem) (unassigned : Nat → Nat) :
    SparesBitmaps image state (.alloc unassigned) := by
  intro nonnull
  have behind := reserving.alloc_behind assigned nonnull
  refine ⟨fun inside => absurd inside.2 (Nat.not_lt.mpr behind), ?_⟩
  rintro region member available ⟨before, -⟩
  exact absurd (lt_of_lt_of_le before (reserving.bitmaps region member available))
    (Nat.not_lt.mpr behind)

theorem Reserving.alloc (reserving : Reserving state) {unassigned : Nat → Nat}
    (runs : (PmmCall.alloc unassigned).run undefined state = .ok state') : Reserving state' := by
  obtain rfl := Except.ok.inj runs
  have clears := pmmAlloc_clears reserving.ordered.mapped unassigned
  refine ⟨reserving.ordered, reserving.bitmaps, reserving.aligned, ?_⟩
  intro region member available j inside below
  exact clears _ _ (reserving.low region member available j inside below)

/-- A release that unsets one bit only touches no reserved page. -/
theorem Reserving.free (reserving : Reserving state) {page : Nat} (unsets : UnsetsOnly state.pmm page)
    (runs : (PmmCall.free page).run undefined state = .ok state') : Reserving state' := by
  have ordered := reserving.ordered
  have aligned := reserving.aligned
  have owned : Owned ⟨[], state.pmm⟩ :=
    ⟨ordered.mapped, ordered.unwrapped, distinct_of_apart ordered.unwrapped ordered.apart, by simp⟩
  obtain ⟨pmm, freed, finish⟩ := Outcome.bind_eq_ok.mp runs
  obtain rfl := Except.ok.inj finish
  have behind : v2p state.pmm.pmmVmaStop < page := by
    by_contra reserved
    rw [pmmFree, if_pos (Nat.not_lt.mp reserved)] at freed
    cases freed
  have covered : ∃ region ∈ state.pmm.pmap, region.Covers page := by
    by_contra missing
    have search : state.pmm.pmap.find? (fun region => region.Covers page) = none := by
      rw [List.find?_eq_none]
      intro region member covers
      exact missing ⟨region, member, by simpa using covers⟩
    rw [pmmFree, if_neg (Nat.not_le.mpr behind), search] at freed
    cases freed
  obtain ⟨region, member, covers⟩ := covered
  have freedEq := @Owned.free_eq undefined ⟨[], state.pmm⟩ owned page region behind member covers
  obtain rfl := Except.ok.inj (freed.symm.trans freedEq)
  obtain ⟨exactShift, unshared⟩ := unsets region member covers
  have mapped := ordered.mapped region member covers.1
  have start := mapped.aligned.addr
  obtain ⟨inside, address⟩ := (ordered.unwrapped region member covers.1).page_of_covers covers
  have writes := @bitmapUnset_writes region.bitmap state.pmm.mem undefined _
    (by rw [mapped.len]; exact inside) exactShift
  refine ⟨ordered, reserving.bitmaps, aligned, ?_⟩
  intro other listed kind k bound below
  have lower := covers.2.1
  have different : other.page k ≠ region.page ((page - region.addr) / 4096) := by
    rw [address]
    dsimp only at below
    generalize v2p state.pmm.pmmVmaStop = stop at *
    omega
  have kept := writes.other (unshared other listed kind k bound different)
  exact kept.trans (reserving.low other listed kind k bound below)

end

/-- For every unwrapped map whose bitmaps fit, all bitmaps lie between the end of the image and the
computed end, and no run that avoids the marking defects returns one of the pages there. -/
theorem pmmRun_spares_bitmaps (image : KernelImage) (undefined : Nat → Nat)
    (unassigned : Nat → Nat → Nat) (mmap : List MultibootMmapEntry) (mem : Memory)
    (calls : List PmmCall) (pages : List Nat) (count : Nat) (pmm : Pmm) (pmap : List PmmRegion)
    (unwrapped : UnwrappedMap image mmap) (table : pmapInit image mmap = .ok pmap)
    (fit : BitmapsFit pmap) (booted : pmmInit image unassigned mmap mem = .ok (pages, count, pmm))
    (avoids : Along undefined AvoidsMarking calls ⟨pages.filter (· ≠ NULL), pmm⟩) :
    (∀ region ∈ pmm.pmap, region.type = .available → image.vmaStop ≤ region.bitmap.bitmap ∧
      region.bitmap.bitmap + 8 * region.bitmap.sizeInBlock ≤ pmm.pmmVmaStop) ∧
    Along undefined (SparesBitmaps image) calls ⟨pages.filter (· ≠ NULL), pmm⟩ := by
  have low := pmmInit_low unwrapped table fit booted
  obtain ⟨pmap', boot⟩ := pmmInit_booted booted
  obtain rfl := Except.ok.inj (table.symm.trans boot.table)
  have inside := boot.bitmaps_inside fit
  obtain ⟨stopEq, physical⟩ := @BitmapsFit.stop_eq image _ fit (pmapInit_spec table).2.1
  have stop := boot.stop.trans stopEq
  have start : Reserving ⟨pages.filter (· ≠ NULL), pmm⟩ := by
    refine ⟨boot.ordered unwrapped, ?_, ?_, low⟩
    · intro region member available
      obtain ⟨lower, upper⟩ := inside region member available
      have small := fit.sum_le (pmapInit_spec table).2.1
      have above := image.above
      have below := image.below
      dsimp only
      rw [stop] at upper ⊢
      rw [physical, image.v2p_eq, v2p, subU64]
      unfold kernelVma uefiEnd at *
      generalize region.bitmap.bitmap = bitmap at *
      generalize region.bitmap.sizeInBlock = words at *
      generalize (blocks pmap).sum = total at *
      generalize image.vmaStop = imageStop at *
      omega
    · have first := image.v2p_bounds.1
      dsimp only
      rw [stop, physical]
      generalize v2p image.vmaStop = kernelStop at *
      omega
  refine ⟨inside, ?_⟩
  apply Along.of_invariant _ _ start avoids
  · rintro state (unassigned | page) reserving condition
    · exact reserving.alloc_spares image condition unassigned
    · trivial
  · rintro state (unassigned | page) state' reserving condition runs
    · exact reserving.alloc runs
    · exact reserving.free condition runs

/-- With 64 pages the only bitmap fits, and releasing page 33 between two allocations is harmless. -/
theorem pmmRun_spares_bitmaps_small :
    ∃ pages count pmm, pmmInit bootImage (fun _ _ => 0) (oneEntry 0x40000 (by decide)) (fun _ => 0) =
        .ok (pages, count, pmm) ∧
      Along (fun _ => 0) (SparesBitmaps bootImage) [allocZero, .free 0x221000, allocZero]
        ⟨pages.filter (· ≠ NULL), pmm⟩ := by
  let region : PmmRegion := ⟨0x200000, 64, .available, ⟨64, 2, kernelVma + uefiEnd⟩⟩
  have evaluated : (do
      let pmap ← pmapInit bootImage (oneEntry 0x40000 (by decide))
      let (pages, _, pmm) ← pmmInit bootImage (fun _ _ => 0) (oneEntry 0x40000 (by decide)) (fun _ => 0)
      let first ← allocZero.run (fun _ => 0) ⟨pages.filter (· ≠ NULL), pmm⟩
      let second ← (PmmCall.free 0x221000).run (fun _ => 0) first
      .ok (pmap, [pmm.pmap, first.pmm.pmap, second.pmm.pmap],
        [region.bit pmm.mem 63, region.bit second.pmm.mem 63]) :
        Outcome (List PmmRegion × List (List PmmRegion) × List Bool)) =
      .ok ([region.range], List.replicate 3 [region], List.replicate 2 true) := by
    decide +kernel
  obtain ⟨pmap, table, rest⟩ := Outcome.bind_eq_ok.mp evaluated
  obtain ⟨⟨pages, count, pmm⟩, booted, rest⟩ := Outcome.bind_eq_ok.mp rest
  obtain ⟨first, firstRun, rest⟩ := Outcome.bind_eq_ok.mp rest
  obtain ⟨second, secondRun, rest⟩ := Outcome.bind_eq_ok.mp rest
  have facts := Except.ok.inj rest
  simp only [Prod.mk.injEq, List.replicate, List.cons.injEq, and_true] at facts
  obtain ⟨rfl, ⟨table0, table1, table2⟩, set, set2⟩ := facts
  have assigned : ∀ {mem : Memory}, region.bit mem 63 = true → Assigned [region] mem := by
    intro mem set
    have available : region.type = .available := rfl
    rw [Assigned, if_pos available]
    exact ⟨fun _ => ⟨63, by decide, set⟩, fun _ => trivial⟩
  have unwrapped : UnwrappedMap bootImage (oneEntry 0x40000 (by decide)) := by
    intro entry member available above
    obtain rfl := List.mem_singleton.mp member
    exact ⟨by decide, by decide⟩
  have fit : BitmapsFit [region.range] := by
    intro before other after split available
    cases before with
    | nil =>
        obtain ⟨rfl, rfl⟩ := List.cons.inj split
        decide
    | cons head before =>
        have long := congrArg List.length split
        simp at long
  refine ⟨pages, count, pmm, booted, (pmmRun_spares_bitmaps bootImage _ _ _ _ _ pages count pmm _
    unwrapped table fit booted ?_).2⟩
  refine ⟨?_, fun state runs => ?_⟩
  · show Assigned pmm.pmap pmm.mem
    rw [table0]
    exact assigned set
  · obtain rfl := Except.ok.inj (runs.symm.trans firstRun)
    refine ⟨?_, fun state runs => ?_⟩
    · show UnsetsOnly state.pmm 0x221000
      rw [UnsetsOnly, table1]
      intro covering member covers
      obtain rfl := List.mem_singleton.mp member
      refine ⟨by decide, ?_⟩
      intro other member' available' k inside' different shared
      obtain rfl := List.mem_singleton.mp member'
      have bound : region.sizeInPages = 64 := rfl
      have index : (0x221000 - region.addr) / 4096 = 33 := by decide
      have equal := Bitmap.place_injective (by omega) (by omega) shared
      rw [equal] at different
      exact different rfl
    · obtain rfl := Except.ok.inj (runs.symm.trans secondRun)
      refine ⟨?_, fun _ _ => trivial⟩
      show Assigned state.pmm.pmap state.pmm.mem
      rw [table2]
      exact assigned set2

/-- With 128 mebibytes the bitmap ends eight bytes behind the one page that is reserved, and the
first allocation returns the page of these bytes. -/
theorem pmmRun_returns_bitmap :
    ∃ pages count pmm, pmmInit bootImage (fun _ _ => 0) (oneEntry 0x8000000 (by decide)) (fun _ => 0) =
        .ok (pages, count, pmm) ∧
      (∃ region ∈ pmm.pmap, region.type = .available ∧ region.addr = v2p bootImage.vmaStop ∧
        ¬region.bitmap.bitmap + 8 * region.bitmap.sizeInBlock ≤ pmm.pmmVmaStop) ∧
      ¬Along (fun _ => 0) (SparesBitmaps bootImage) [allocZero] ⟨pages.filter (· ≠ NULL), pmm⟩ := by
  let region : PmmRegion := ⟨0x200000, 0x8000, .available, ⟨0x8000, 513, kernelVma + uefiEnd⟩⟩
  have evaluated : (do
      let (_, _, pmm) ← pmmInit bootImage (fun _ _ => 0) (oneEntry 0x8000000 (by decide)) (fun _ => 0)
      .ok (pmm.pmap, pmm.pmmVmaStop, (pmmAlloc (fun _ => 0) pmm).1) :
        Outcome (List PmmRegion × Nat × Nat)) =
      .ok ([region], kernelVma + 0x201000, 0x201000) := by
    decide +kernel
  obtain ⟨⟨pages, count, pmm⟩, booted, rest⟩ := Outcome.bind_eq_ok.mp evaluated
  have facts := Except.ok.inj rest
  simp only [Prod.mk.injEq] at facts
  obtain ⟨table, stop, page⟩ := facts
  have member : region ∈ pmm.pmap := by
    rw [table]
    exact List.mem_singleton_self _
  refine ⟨pages, count, pmm, booted, ⟨region, member, rfl, by decide, ?_⟩, ?_⟩
  · rw [stop]
    decide
  · intro along
    have spares : (pmmAlloc (fun _ => 0) pmm).1 ≠ NULL → _ ∧ ∀ region ∈ pmm.pmap, _ := along.1
    rw [page] at spares
    exact (spares (by decide)).2 region member rfl ⟨by decide, by decide⟩

end B0s
