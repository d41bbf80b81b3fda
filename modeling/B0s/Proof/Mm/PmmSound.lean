import B0s.Proof.Mm.PmmRun

/-
This file settles for which memory maps every page that can be allocated is available memory.
-/

namespace B0s
open ByteMemory

/-- The set bits of a memory. -/
def setBits (mem : Memory) : Set (Nat × Nat) := { spot | Valid spot ∧ ByteMemory.bit mem spot = true }

theorem setBits_finite (mem : Memory) : (setBits mem).Finite := by
  have finite : (Set.Iio (2 ^ 64) ×ˢ Set.Iio 8 : Set (Nat × Nat)).Finite :=
    (Set.finite_Iio _).prod (Set.finite_Iio _)
  exact finite.subset fun spot member => member.1

/-- Every valid place is the place of an index in some bitmap. -/
theorem exists_place {spot : Nat × Nat} (valid : Valid spot) : ∃ (bm : Bitmap) (k : Nat), bm.place k = spot := by
  refine ⟨⟨0, 0, spot.1⟩, 63 - spot.2, ?_⟩
  have bits := valid.2
  have index : 64 * ((63 - spot.2) / 64) + (63 - (63 - spot.2) % 64) = spot.2 := by omega
  have byte : spot.2 / 8 = 0 := by omega
  rw [Bitmap.place, index, ByteMemory.place, byte, Nat.add_zero, Nat.mod_eq_of_lt valid.1,
    Nat.mod_eq_of_lt bits]

theorem ClearsBits.subset {mem mem' : Memory} (clears : ClearsBits mem mem') :
    setBits mem' ⊆ setBits mem := by
  rintro spot ⟨valid, set⟩
  obtain ⟨bm, k, rfl⟩ := exists_place valid
  exact ⟨valid, clears.of_set set⟩

/-- A memory with a bit cleared has fewer set bits. -/
theorem ClearsBits.ncard_lt {mem mem' : Memory} (clears : ClearsBits mem mem') {bm : Bitmap} {k : Nat}
    (set : bm.bit mem k = true) (clear : bm.bit mem' k = false) :
    (setBits mem').ncard < (setBits mem).ncard := by
  apply Set.ncard_lt_ncard _ (setBits_finite mem)
  rw [Set.ssubset_iff_of_subset clears.subset]
  refine ⟨bm.place k, ⟨bm.valid_place k, set⟩, ?_⟩
  rintro ⟨-, set'⟩
  have same : bm.bit mem' k = true := set'
  rw [same] at clear
  cases clear

/-- The unassigned local holds the wanted index in the wanted region and a large value elsewhere. -/
def aiming (target j : Nat) : Nat → Nat := fun i => if i = target then j else 2 ^ 64

/-- An allocation that aims at a page returns it or clears a set bit. -/
theorem pmmAllocFrom_progress {before after : List PmmRegion} {region : PmmRegion} {mem : Memory}
    (mapped : Mapped (before ++ region :: after)) (available : region.type = .available) {j : Nat}
    (inside : j < region.sizeInPages) (i : Nat) :
    (pmmAllocFrom (aiming (i + before.length) j) i (before ++ region :: after) mem).1 = region.page j ∨
      ∃ (bm : Bitmap) (k : Nat), bm.bit mem k = true ∧
        bm.bit (pmmAllocFrom (aiming (i + before.length) j) i (before ++ region :: after) mem).2 k =
          false := by
  induction before generalizing i mem with
  | nil =>
      have here := mapped region (by simp) available
      have mappedRest : Mapped after := fun other member => mapped other (by simp [member])
      have aimed : aiming (i + List.length ([] : List PmmRegion)) j i = j := by simp [aiming]
      rw [List.nil_append, pmmAllocFrom, if_neg (not_not.mpr available), aimed]
      rcases bitmapFindAndSet_spec mem here.fits j with
        ⟨zero, result⟩ | ⟨k, mem', result, bound, set, first, writes⟩
      · left
        have len := here.len
        have capped : min j region.bitmap.len = j := by omega
        have partly : j ≠ region.bitmap.len := by omega
        simp only [result, capped, if_neg partly]
        rfl
      · right
        refine ⟨region.bitmap, k, set, ?_⟩
        simp only [result]
        split_ifs
        · exact (pmmAllocFrom_returns mappedRest (i + 1)).1 _ _ writes.self
        · exact writes.self
  | cons first before ih =>
      have mappedRest : Mapped (before ++ region :: after) := fun other member =>
        mapped other (List.mem_cons_of_mem _ member)
      have shift : i + (first :: before).length = i + 1 + before.length := by
        rw [List.length_cons]
        omega
      have later : ∀ mem, _ := fun mem => @ih mem mappedRest (i + 1)
      rw [List.cons_append, pmmAllocFrom, shift]
      by_cases kind : first.type = .available
      · have here := mapped first (by simp) kind
        have away : aiming (i + 1 + before.length) j i = 2 ^ 64 := by
          rw [aiming, if_neg (by omega)]
        rw [if_neg (not_not.mpr kind), away]
        rcases bitmapFindAndSet_spec mem here.fits (2 ^ 64) with
          ⟨zero, result⟩ | ⟨k, mem', result, bound, set, lower, writes⟩
        · have size := here.aligned.size
          have len := here.len
          have capped : min (2 ^ 64) first.bitmap.len = first.bitmap.len := by omega
          simp only [result, capped, if_true]
          exact later mem
        · right
          refine ⟨first.bitmap, k, set, ?_⟩
          simp only [result]
          split_ifs
          · exact (pmmAllocFrom_returns mappedRest (i + 1)).1 _ _ writes.self
          · exact writes.self
      · rw [if_pos kind]
        exact later mem

/-- The allocator can return every page of every available region. -/
theorem along_alloc_reaches {undefined : Nat → Nat} {property : Nat → Prop} {state : Holding}
    (mapped : Mapped state.pmm.pmap)
    (always : ∀ calls, Along undefined (fun state call => ∀ unassigned, call = .alloc unassigned →
      property (pmmAlloc unassigned state.pmm).1) calls state)
    {region : PmmRegion} (member : region ∈ state.pmm.pmap) (available : region.type = .available)
    {j : Nat} (inside : j < region.sizeInPages) : property (region.page j) := by
  obtain ⟨before, after, split⟩ := List.append_of_mem member
  generalize size : (setBits state.pmm.mem).ncard = bits
  induction bits using Nat.strong_induction_on generalizing state with
  | _ bits ih =>
      let unassigned := aiming (0 + before.length) j
      have progress : (pmmAlloc unassigned state.pmm).1 = region.page j ∨ ∃ (bm : Bitmap) (k : Nat),
          bm.bit state.pmm.mem k = true ∧ bm.bit (pmmAlloc unassigned state.pmm).2.mem k = false := by
        unfold pmmAlloc
        rw [split]
        exact pmmAllocFrom_progress (split ▸ mapped) available inside 0
      rcases progress with found | ⟨bm, k, set, clear⟩
      · have here := (always [.alloc unassigned]).1 unassigned rfl
        rw [found] at here
        exact here
      · have clears := pmmAlloc_clears mapped unassigned
        have fewer := clears.ncard_lt set clear
        rw [size] at fewer
        let state' : Holding :=
          { held := if (pmmAlloc unassigned state.pmm).1 = NULL then state.held
              else (pmmAlloc unassigned state.pmm).1 :: state.held
            pmm := (pmmAlloc unassigned state.pmm).2 }
        have next : (PmmCall.alloc unassigned).run undefined state = .ok state' := rfl
        exact @ih _ fewer state' mapped (fun calls => (always (.alloc unassigned :: calls)).2 _ next)
          member split rfl

/-- The whole page lies in one available entry. -/
def InAvailableEntry (mmap : List MultibootMmapEntry) (page : Nat) : Prop :=
  ∃ entry ∈ mmap, entry.type = multibootMemoryAvailable ∧ entry.addr ≤ page ∧
    page + 4096 ≤ entry.addr + entry.len

/-- A page address that can be used is aligned, behind the image, and in one available entry. -/
structure UsablePage (image : KernelImage) (mmap : List MultibootMmapEntry) (page : Nat) : Prop where
  aligned : page % 4096 = 0
  behind : v2p image.vmaStop ≤ page
  inEntry : InAvailableEntry mmap page

/-- Every allocation of every run returns null or a usable page. -/
def AllocatesUsable (image : KernelImage) (undefined : Nat → Nat) (mmap : List MultibootMmapEntry)
    (state : Holding) : Prop :=
  ∀ calls, Along undefined (fun state call => ∀ unassigned, call = .alloc unassigned →
    (pmmAlloc unassigned state.pmm).1 ≠ NULL →
      UsablePage image mmap (pmmAlloc unassigned state.pmm).1) calls state

/-- The entry ends, rounded up, behind the image, and the pages that it fills only in part lie in an
available entry. -/
structure RoundsInside (image : KernelImage) (mmap : List MultibootMmapEntry)
    (entry : MultibootMmapEntry) : Prop where
  behind : v2p image.vmaStop ≤ entry.pageStop
  first : v2p image.vmaStop < entry.addr → entry.addr % 4096 ≠ 0 →
    InAvailableEntry mmap (entry.addr / 4096 * 4096)
  last : v2p image.vmaStop < entry.addr + entry.len → (entry.addr + entry.len) % 4096 ≠ 0 →
    InAvailableEntry mmap ((entry.addr + entry.len) / 4096 * 4096)

/-- An aligned address just below a value is the value rounded down. -/
theorem eq_floor {page value : Nat} (aligned : page % 4096 = 0) (lower : page ≤ value)
    (upper : value < page + 4096) : page = value / 4096 * 4096 := by
  omega

section
variable {image : KernelImage} {mmap : List MultibootMmapEntry} {entry : MultibootMmapEntry}

/-- An entry whose rounded end lies behind the image does not wrap. -/
theorem unwrapped_of_behind (short : entry.addr + entry.len < 2 ^ 64)
    (behind : v2p image.vmaStop ≤ entry.pageStop) : entry.Unwrapped image := by
  refine ⟨?_, behind⟩
  have bounds := image.v2p_bounds
  unfold MultibootMmapEntry.pageStop at behind
  unfold uefiEnd at bounds
  omega

/-- Each page of an entry that rounds inside is usable. -/
theorem RoundsInside.usable (rounds : RoundsInside image mmap entry) (listed : entry ∈ mmap)
    (available : entry.type = multibootMemoryAvailable) (short : entry.addr + entry.len < 2 ^ 64)
    {j : Nat} (inside : j < (pmapRegion image entry).1.sizeInPages) :
    UsablePage image mmap ((pmapRegion image entry).1.page j) := by
  have unwrapped := unwrapped_of_behind short rounds.behind
  obtain ⟨region, lower, stop⟩ := unwrapped.region available
  have aligned := (pmapRegion_aligned image entry).addr
  have addr := pmapRegion_addr image entry available
  have below := unwrapped.below
  have kernel := image.v2p_bounds.1
  rw [region.page inside]
  unfold MultibootMmapEntry.pageStop at stop
  rw [Nat.mod_eq_of_lt below] at stop
  generalize (pmapRegion image entry).1.addr = start at *
  generalize (pmapRegion image entry).1.sizeInPages = size at *
  have onPage : (start + j * 4096) % 4096 = 0 := by omega
  have ends : start + j * 4096 + 4096 ≤ (entry.addr + entry.len + 4095) / 4096 * 4096 := by omega
  refine ⟨onPage, by omega, ?_⟩
  by_cases before : start + j * 4096 < entry.addr
  · have past : v2p image.vmaStop < entry.addr := by omega
    rw [max_eq_right (le_of_lt past)] at addr
    have floor := eq_floor onPage (le_of_lt before) (by omega)
    rw [floor]
    exact rounds.first past (by omega)
  · by_cases behind : entry.addr + entry.len < start + j * 4096 + 4096
    · have floor := eq_floor onPage (by omega) behind
      rw [floor]
      exact rounds.last (by omega) (by omega)
    · exact ⟨entry, listed, available, by omega, by omega⟩

/-- A wrapped region contains the last page of the address space. -/
theorem wrapped_last_page (image : KernelImage) (entry : MultibootMmapEntry)
    (available : entry.type = multibootMemoryAvailable)
    (wrapped : entry.pageStop < v2p image.vmaStop) :
    ∃ j < (pmapRegion image entry).1.sizeInPages,
      (pmapRegion image entry).1.page j = 0xfffffffffffff000 := by
  have size := pmapRegion_size image entry
  have aligned := (pmapRegion_aligned image entry).addr
  have bounded := (pmapRegion_aligned image entry).bounded
  have addr := pmapRegion_addr image entry available
  have kernel := image.v2p_bounds.1
  unfold PmmRegion.page
  generalize v2p image.vmaStop = kernelStop at *
  generalize (pmapRegion image entry).1.addr = start at *
  generalize (pmapRegion image entry).1.sizeInPages = count at *
  generalize entry.pageStop = stop at *
  have order : stop < start := by omega
  clear addr
  refine ⟨(0xfffffffffffff000 - start) / 4096, ?_, ?_⟩
  · rw [size]
    unfold subU64
    omega
  · unfold u64 pageSizeInBytes
    omega

/-- If every page of an entry is usable then the entry rounds inside. -/
theorem roundsInside_of_usable (shortMap : ∀ other ∈ mmap, other.addr + other.len < 2 ^ 64)
    (listed : entry ∈ mmap) (available : entry.type = multibootMemoryAvailable)
    (usable : ∀ j < (pmapRegion image entry).1.sizeInPages,
      (pmapRegion image entry).1.page j ≠ NULL →
        UsablePage image mmap ((pmapRegion image entry).1.page j)) :
    RoundsInside image mmap entry := by
  have short := shortMap entry listed
  have bounds := image.v2p_bounds
  have size := pmapRegion_size image entry
  have aligned := (pmapRegion_aligned image entry).addr
  have bounded := (pmapRegion_aligned image entry).bounded
  have addr := pmapRegion_addr image entry available
  have behind : v2p image.vmaStop ≤ entry.pageStop := by
    by_contra wrapped
    obtain ⟨j, inside, page⟩ := wrapped_last_page image entry available (Nat.lt_of_not_le wrapped)
    have nonnull : (pmapRegion image entry).1.page j ≠ NULL := by
      rw [page, NULL]
      norm_num
    obtain ⟨other, member, -, -, stop⟩ := (usable j inside nonnull).inEntry
    have otherShort := shortMap other member
    omega
  have unwrapped := unwrapped_of_behind short behind
  obtain ⟨region, lower, stop⟩ := unwrapped.region available
  have below := unwrapped.below
  unfold MultibootMmapEntry.pageStop at stop
  rw [Nat.mod_eq_of_lt below] at stop
  have inEntry : ∀ j < (pmapRegion image entry).1.sizeInPages,
      InAvailableEntry mmap ((pmapRegion image entry).1.addr + j * 4096) := by
    intro j inside
    have positive : 0 < (pmapRegion image entry).1.addr := by
      apply lt_of_lt_of_le _ lower
      exact lt_of_lt_of_le (by decide) bounds.2.1
    have nonnull : (pmapRegion image entry).1.page j ≠ NULL := by
      rw [region.page inside]
      exact Nat.ne_of_gt (Nat.add_pos_left positive _)
    rw [← region.page inside]
    exact (usable j inside nonnull).inEntry
  refine ⟨behind, ?_, ?_⟩
  · intro past unaligned
    rw [max_eq_right (le_of_lt past)] at addr
    clear usable size bounds lower behind past
    generalize (pmapRegion image entry).1.addr = start at *
    generalize (pmapRegion image entry).1.sizeInPages = count at *
    have first := inEntry 0 (by omega)
    rw [Nat.zero_mul, Nat.add_zero, addr] at first
    exact first
  · intro past unaligned
    have kernel := bounds.1
    clear usable size bounds behind
    generalize (pmapRegion image entry).1.addr = start at *
    generalize (pmapRegion image entry).1.sizeInPages = count at *
    generalize v2p image.vmaStop = kernelStop at *
    have nonempty : 0 < count := by omega
    have last := inEntry (count - 1) (by omega)
    have floor : start + (count - 1) * 4096 = (entry.addr + entry.len) / 4096 * 4096 := by
      apply eq_floor
      · omega
      · omega
      · omega
    rw [floor] at last
    exact last

end

/-- For every accepted map, all pages that the allocator can return are usable exactly when each
available entry that the table keeps rounds inside available memory. -/
theorem allocatesUsable_iff (image : KernelImage) (undefined : Nat → Nat)
    (unassigned : Nat → Nat → Nat) (mmap : List MultibootMmapEntry) (mem : Memory) (pages : List Nat)
    (count : Nat) (pmm : Pmm) (short : ∀ entry ∈ mmap, entry.addr + entry.len < 2 ^ 64)
    (booted : pmmInit image unassigned mmap mem = .ok (pages, count, pmm)) :
    AllocatesUsable image undefined mmap ⟨pages.filter (· ≠ NULL), pmm⟩ ↔
      ∀ entry ∈ mmap, entry.type = multibootMemoryAvailable → biosEnd ≤ entry.addr →
        RoundsInside image mmap entry := by
  obtain ⟨pmap, boot⟩ := pmmInit_booted booted
  constructor
  · intro usable entry listed available above
    apply roundsInside_of_usable short listed available
    intro j inside nonnull
    have kept : isAvailableOrReserved entry = true := by
      simp [isAvailableOrReserved, available, above]
    have source := (pmapInit_mem boot.table (pmapRegion image entry).1).mpr ⟨entry, listed, kept, rfl⟩
    have listedRange : (pmapRegion image entry).1.range ∈ pmm.pmap.map PmmRegion.range := by
      rw [boot.ranges]
      exact List.mem_map_of_mem source
    obtain ⟨region, member, same⟩ := List.mem_map.mp listedRange
    have addr : region.range.addr = (pmapRegion image entry).1.range.addr := congrArg PmmRegion.addr same
    have size : region.range.sizeInPages = (pmapRegion image entry).1.range.sizeInPages :=
      congrArg PmmRegion.sizeInPages same
    have types : region.range.type = (pmapRegion image entry).1.range.type := congrArg PmmRegion.type same
    have kind : region.type = .available :=
      types.trans ((pmapRegion_available_iff image entry).mpr available)
    have page : region.page j = (pmapRegion image entry).1.page j := by
      have start : region.addr = (pmapRegion image entry).1.addr := addr
      rw [PmmRegion.page, start, PmmRegion.page]
    have inside' : j < region.sizeInPages := lt_of_lt_of_eq inside size.symm
    have reached := @along_alloc_reaches undefined
      (fun page => page ≠ NULL → UsablePage image mmap page) ⟨pages.filter (· ≠ NULL), pmm⟩
      boot.mapped usable region member kind j inside'
    rw [page] at reached
    exact reached nonnull
  · intro rounds calls
    have trivially : Along undefined (fun _ _ => True) calls ⟨pages.filter (· ≠ NULL), pmm⟩ := by
      generalize (⟨pages.filter (· ≠ NULL), pmm⟩ : Holding) = state
      induction calls generalizing state with
      | nil => trivial
      | cons call calls ih => exact ⟨trivial, fun state' _ => ih state'⟩
    apply @Along.of_invariant undefined (fun state => state.pmm.pmap = pmm.pmap) _ _ _ _ _ _ rfl trivially
    · rintro state call table - unassigned rfl nonnull
      have mapped : Mapped state.pmm.pmap := table ▸ boot.mapped
      obtain ⟨region, member, available, j, inside, page, -⟩ :=
        (pmmAlloc_taken mapped unassigned).resolve_left nonnull
      have member' : region ∈ pmm.pmap := by
        rw [← table]
        exact member
      obtain ⟨entry, listed, kind, above, addr, size⟩ := boot.available member' available
      have same : region.page j = (pmapRegion image entry).1.page j := by
        rw [PmmRegion.page, addr, PmmRegion.page]
      rw [page, same]
      exact (rounds entry listed kind above).usable listed kind (short entry listed) (size ▸ inside)
    · rintro state (unassigned | page) state' table - runs
      · obtain rfl := Except.ok.inj runs
        exact table
      · obtain ⟨pmm', freed, finish⟩ := Outcome.bind_eq_ok.mp runs
        obtain rfl := Except.ok.inj finish
        have kept : pmm'.pmap = state.pmm.pmap := by
          unfold pmmFree at freed
          split_ifs at freed
          split at freed
          · obtain rfl := Except.ok.inj freed
            rfl
          · cases freed
        exact kept.trans table

/-- Aligned entries behind the image round inside themselves. -/
theorem allocatesUsable_iff_aligned :
    ∃ pages count pmm, pmmInit bootImage (fun _ _ => 0) twoEntries (fun _ => 0) = .ok (pages, count, pmm) ∧
      count = 127 ∧ AllocatesUsable bootImage (fun _ => 0) twoEntries ⟨pages.filter (· ≠ NULL), pmm⟩ := by
  have evaluated : (do
      let (_, count, _) ← pmmInit bootImage (fun _ _ => 0) twoEntries (fun _ => 0)
      .ok count : Outcome Nat) = .ok 127 := by
    decide +kernel
  obtain ⟨⟨pages, count, pmm⟩, booted, counted⟩ := Outcome.bind_eq_ok.mp evaluated
  have short : ∀ entry ∈ twoEntries, entry.addr + entry.len < 2 ^ 64 := by
    intro entry member
    rcases List.mem_cons.mp member with rfl | second
    · decide
    · obtain rfl := List.mem_singleton.mp second
      decide
  refine ⟨pages, count, pmm, booted, Except.ok.inj counted,
    (allocatesUsable_iff bootImage _ _ _ _ pages count pmm short booted).mpr ?_⟩
  intro entry member available above
  rcases List.mem_cons.mp member with rfl | second
  · exact ⟨by decide, fun _ unaligned => absurd unaligned (by decide), fun _ unaligned => absurd unaligned (by decide)⟩
  · obtain rfl := List.mem_singleton.mp second
    exact ⟨by decide, fun past => absurd past (by decide), fun _ unaligned => absurd unaligned (by decide)⟩

/-- An entry of one and a half pages hands out its second page. -/
theorem allocates_partial_page :
    ∃ pages count pmm, pmmInit bootImage (fun _ _ => 0) (oneEntry 0x1800 (by decide)) (fun _ => 0) =
        .ok (pages, count, pmm) ∧ (∀ entry ∈ oneEntry 0x1800 (by decide), entry.addr + entry.len < 2 ^ 64) ∧
      ¬AllocatesUsable bootImage (fun _ => 0) (oneEntry 0x1800 (by decide))
        ⟨pages.filter (· ≠ NULL), pmm⟩ := by
  have evaluated : (do
      let (_, _, pmm) ← pmmInit bootImage (fun _ _ => 0) (oneEntry 0x1800 (by decide)) (fun _ => 0)
      .ok (pmmAlloc (fun _ => 0) pmm).1 : Outcome Nat) = .ok 0x201000 := by
    decide +kernel
  obtain ⟨⟨pages, count, pmm⟩, booted, rest⟩ := Outcome.bind_eq_ok.mp evaluated
  have page : (pmmAlloc (fun _ => 0) pmm).1 = 0x201000 := Except.ok.inj rest
  refine ⟨pages, count, pmm, booted, ?_, ?_⟩
  · intro entry member
    obtain rfl := List.mem_singleton.mp member
    decide
  · intro always
    have usable := (always [allocZero]).1 (fun _ => 0) rfl
    dsimp only at usable
    rw [page] at usable
    obtain ⟨entry, member, -, -, stop⟩ := (usable (by decide)).inEntry
    obtain rfl := List.mem_singleton.mp member
    exact absurd stop (by decide)

end B0s
