import B0s.Proof.Mm.PmmInit

/-
This file settles in which runs of the page allocator every page has at most one owner.
-/

namespace B0s
open ByteMemory

/-- The allocator and the pages that its callers hold. -/
structure Holding where
  held : List Nat
  pmm : Pmm

inductive PmmCall where
  | alloc (unassigned : Nat → Nat)
  | free (page : Nat)

def PmmCall.run (undefined : Nat → Nat) : PmmCall → Holding → Outcome Holding
  | .alloc unassigned, state =>
      let (page, pmm) := pmmAlloc unassigned state.pmm
      .ok { held := if page = NULL then state.held else page :: state.held, pmm := pmm }
  | .free page, state => do
      let pmm ← pmmFree undefined page state.pmm
      .ok { held := state.held.filter (· ≠ page), pmm := pmm }

/-- A property holds before each call of a run that no panic has ended. -/
def Along (undefined : Nat → Nat) (property : Holding → PmmCall → Prop) :
    List PmmCall → Holding → Prop
  | [], _ => True
  | call :: calls, state => property state call ∧
      ∀ state', call.run undefined state = .ok state' → Along undefined property calls state'

def pmmRun (undefined : Nat → Nat) : List PmmCall → Holding → Outcome Holding
  | [], state => .ok state
  | call :: calls, state => do
      let state ← call.run undefined state
      pmmRun undefined calls state

/-- A property of a sequence of two runs holds along both. -/
theorem along_append {undefined : Nat → Nat} {property : Holding → PmmCall → Prop}
    {calls rest : List PmmCall} {state : Holding} :
    Along undefined property (calls ++ rest) state ↔ Along undefined property calls state ∧
      ∀ state', pmmRun undefined calls state = .ok state' → Along undefined property rest state' := by
  induction calls generalizing state with
  | nil => simp [Along, pmmRun]
  | cons call calls ih =>
      simp only [List.cons_append, Along, pmmRun, Outcome.bind_eq_ok, ih]
      constructor
      · rintro ⟨here, later⟩
        refine ⟨⟨here, fun state' runs => (later state' runs).1⟩, ?_⟩
        rintro state'' ⟨state', runs, finish⟩
        exact (later state' runs).2 state'' finish
      · rintro ⟨⟨here, first⟩, second⟩
        exact ⟨here, fun state' runs =>
          ⟨first state' runs, fun state'' finish => second state'' ⟨state', runs, finish⟩⟩⟩

/-- A run keeps an invariant that each of its calls keeps. -/
theorem Along.of_invariant {undefined : Nat → Nat} {invariant : Holding → Prop}
    {condition property : Holding → PmmCall → Prop}
    (gives : ∀ state call, invariant state → condition state call → property state call)
    (keeps : ∀ state call state', invariant state → condition state call →
      call.run undefined state = .ok state' → invariant state')
    {calls : List PmmCall} {state : Holding} (start : invariant state)
    (along : Along undefined condition calls state) : Along undefined property calls state := by
  induction calls generalizing state with
  | nil => trivial
  | cons call calls ih =>
      refine ⟨gives state call start along.1, ?_⟩
      intro state' runs
      exact ih (keeps state call state' start along.1 runs) (along.2 state' runs)

/-- A region ends below the end of the address space. -/
def PmmRegion.Unwrapped (region : PmmRegion) : Prop :=
  region.addr + region.sizeInPages * 4096 < 2 ^ 64

theorem PmmRegion.Unwrapped.page {region : PmmRegion} (unwrapped : region.Unwrapped) {j : Nat}
    (inside : j < region.sizeInPages) : region.page j = region.addr + j * 4096 := by
  unfold PmmRegion.Unwrapped at unwrapped
  unfold PmmRegion.page u64 pageSizeInBytes
  omega

theorem PmmRegion.Unwrapped.stop {region : PmmRegion} (unwrapped : region.Unwrapped) :
    region.stop = region.addr + region.sizeInPages * 4096 := by
  unfold PmmRegion.Unwrapped at unwrapped
  unfold PmmRegion.stop u64 pageSizeInBytes
  omega

/-- An address in a region lies on the page of one of its indices. -/
theorem PmmRegion.Unwrapped.page_of_covers {region : PmmRegion} (unwrapped : region.Unwrapped)
    {page : Nat} (covers : region.Covers page) :
    (page - region.addr) / 4096 < region.sizeInPages ∧
      region.page ((page - region.addr) / 4096) = region.addr + (page - region.addr) / 4096 * 4096 := by
  have stop := unwrapped.stop
  have lower := covers.2.1
  have upper := covers.2.2
  have inside : (page - region.addr) / 4096 < region.sizeInPages := by omega
  exact ⟨inside, unwrapped.page inside⟩

/-- An available entry ends, rounded up, behind the kernel image and below the end of memory. -/
structure MultibootMmapEntry.Unwrapped (image : KernelImage) (entry : MultibootMmapEntry) : Prop where
  below : entry.addr + entry.len + 4095 < 2 ^ 64
  behind : v2p image.vmaStop ≤ entry.pageStop

theorem MultibootMmapEntry.Unwrapped.region {image : KernelImage} {entry : MultibootMmapEntry}
    (unwrapped : entry.Unwrapped image) (available : entry.type = multibootMemoryAvailable) :
    (pmapRegion image entry).1.Unwrapped ∧ v2p image.vmaStop ≤ (pmapRegion image entry).1.addr ∧
      (pmapRegion image entry).1.addr + (pmapRegion image entry).1.sizeInPages * 4096 =
        entry.pageStop := by
  have below := unwrapped.below
  have behind := unwrapped.behind
  have size := pmapRegion_size image entry
  have bounds := image.v2p_bounds
  have addr := pmapRegion_addr image entry available
  unfold PmmRegion.Unwrapped
  rw [size, addr]
  unfold MultibootMmapEntry.pageStop at behind ⊢
  unfold subU64
  generalize v2p image.vmaStop = stop at *
  rcases Nat.le_total stop entry.addr with order | order
  · rw [max_eq_right order]
    omega
  · rw [max_eq_left order]
    omega

/-- Every available entry that the table keeps is unwrapped. -/
def UnwrappedMap (image : KernelImage) (mmap : List MultibootMmapEntry) : Prop :=
  ∀ entry ∈ mmap, entry.type = multibootMemoryAvailable → biosEnd ≤ entry.addr →
    entry.Unwrapped image

/-- Each page belongs to one region, under one index. -/
def Distinct (pmap : List PmmRegion) : Prop :=
  ∀ region ∈ pmap, region.type = .available → ∀ other ∈ pmap, other.type = .available →
    ∀ j < region.sizeInPages, ∀ k < other.sizeInPages, region.page j = other.page k →
      region = other ∧ j = k

theorem distinct_of_apart {pmap : List PmmRegion}
    (unwrapped : ∀ region ∈ pmap, region.type = .available → region.Unwrapped)
    (apart : pmap.Pairwise PmmRegion.Apart) : Distinct pmap := by
  intro region member available other member' available' j inside k inside' same
  have first := unwrapped region member available
  have second := unwrapped other member' available'
  rw [first.page inside, second.page inside'] at same
  by_cases equal : region = other
  · subst equal
    exact ⟨rfl, by omega⟩
  · have clear := apart.forall member member' equal
    rw [PmmRegion.Apart, first.stop, second.stop] at clear
    have stride := Nat.mul_le_mul_right 4096 inside
    have stride' := Nat.mul_le_mul_right 4096 inside'
    rw [Nat.succ_mul] at stride stride'
    omega

section
variable {image : KernelImage} {mmap : List MultibootMmapEntry} {pages : List Nat} {pmm : Pmm}
  {pmap : List PmmRegion}

/-- Each region of the booted table has the range of a kept entry. -/
theorem Booted.entry (booted : Booted image mmap pages pmm pmap) {region : PmmRegion}
    (member : region ∈ pmm.pmap) :
    ∃ entry ∈ mmap, isAvailableOrReserved entry = true ∧
      region.range = (pmapRegion image entry).1.range := by
  have mapped : region.range ∈ pmm.pmap.map PmmRegion.range := List.mem_map_of_mem member
  rw [booted.ranges, List.mem_map] at mapped
  obtain ⟨source, inside, same⟩ := mapped
  obtain ⟨entry, listed, kept, rfl⟩ := (pmapInit_mem booted.table source).mp inside
  exact ⟨entry, listed, kept, same.symm⟩

/-- An available region of the booted table has the range of an available entry. -/
theorem Booted.available (booted : Booted image mmap pages pmm pmap) {region : PmmRegion}
    (member : region ∈ pmm.pmap) (available : region.type = .available) :
    ∃ entry ∈ mmap, entry.type = multibootMemoryAvailable ∧ biosEnd ≤ entry.addr ∧
      region.addr = (pmapRegion image entry).1.addr ∧
      region.sizeInPages = (pmapRegion image entry).1.sizeInPages := by
  obtain ⟨entry, listed, kept, same⟩ := booted.entry member
  have types : region.range.type = (pmapRegion image entry).1.range.type := congrArg PmmRegion.type same
  have addr : region.range.addr = (pmapRegion image entry).1.range.addr := congrArg PmmRegion.addr same
  have size : region.range.sizeInPages = (pmapRegion image entry).1.range.sizeInPages :=
    congrArg PmmRegion.sizeInPages same
  have kind := (pmapRegion_available_iff image entry).mp (types.symm.trans available)
  have above : biosEnd ≤ entry.addr := by
    simp only [isAvailableOrReserved, kind, decide_eq_true_eq] at kept
    rcases kept with ⟨-, above⟩ | reserved
    · exact above
    · exact absurd reserved (by decide)
  exact ⟨entry, listed, kind, above, addr, size⟩

theorem Booted.apart (booted : Booted image mmap pages pmm pmap) :
    pmm.pmap.Pairwise PmmRegion.Apart := by
  have ranges : (pmm.pmap.map PmmRegion.range).Pairwise PmmRegion.Apart := by
    rw [booted.ranges, List.pairwise_map]
    exact (pmapInit_spec booted.table).2.2.2
  rw [List.pairwise_map] at ranges
  exact ranges

theorem Booted.unwrapped (booted : Booted image mmap pages pmm pmap)
    (unwrapped : UnwrappedMap image mmap) :
    ∀ region ∈ pmm.pmap, region.type = .available → region.Unwrapped := by
  intro region member available
  obtain ⟨entry, listed, kind, above, addr, size⟩ := booted.available member available
  have sane := ((unwrapped entry listed kind above).region kind).1
  unfold PmmRegion.Unwrapped at sane ⊢
  rw [addr, size]
  exact sane

end

/-- A page is available while the bit of one of its indices is set. -/
def Pmm.Available (pmm : Pmm) (page : Nat) : Prop :=
  ∃ region ∈ pmm.pmap, region.type = .available ∧ ∃ j < region.sizeInPages,
    region.page j = page ∧ region.bit pmm.mem j = true

/-- An allocation returns a page that nobody holds, and a release makes one page available. -/
def Exclusive (undefined : Nat → Nat) (state : Holding) : PmmCall → Prop
  | .alloc unassigned => (pmmAlloc unassigned state.pmm).1 ≠ NULL →
      (pmmAlloc unassigned state.pmm).1 ∉ state.held
  | .free page => ∃ pmm, pmmFree undefined page state.pmm = .ok pmm ∧ pmm.Available page ∧
      ∀ other, other ≠ page → (pmm.Available other ↔ state.pmm.Available other)

/-- Only held pages are released. -/
def ReleasesHeld (state : Holding) : PmmCall → Prop
  | .alloc _ => True
  | .free page => page ∈ state.held

/-- Releasing the page shifts below the sign bit, and the bit of the page belongs to no other page. -/
def UnsetsOnly (pmm : Pmm) (page : Nat) : Prop :=
  ∀ region ∈ pmm.pmap, region.Covers page →
    33 ≤ (page - region.addr) / 4096 % 64 ∧
      ∀ other ∈ pmm.pmap, other.type = .available → ∀ k < other.sizeInPages,
        other.page k ≠ region.page ((page - region.addr) / 4096) →
          other.bitmap.place k ≠ region.bitmap.place ((page - region.addr) / 4096)

/-- An allocation reads no unassigned local. A released page lies behind the bitmaps, and its release
unsets its bit only. -/
def AvoidsDefects (state : Holding) : PmmCall → Prop
  | .alloc _ => Assigned state.pmm.pmap state.pmm.mem
  | .free page => v2p state.pmm.pmmVmaStop < page ∧ UnsetsOnly state.pmm page

/-- Every held page is taken, in a table whose pages are distinct. -/
structure Owned (state : Holding) : Prop where
  mapped : Mapped state.pmm.pmap
  unwrapped : ∀ region ∈ state.pmm.pmap, region.type = .available → region.Unwrapped
  distinct : Distinct state.pmm.pmap
  taken : ∀ page ∈ state.held, Taken state.pmm page

section
variable {undefined : Nat → Nat} {state state' : Holding}

/-- An allocation that reads no unassigned local returns no held page. -/
theorem Owned.alloc_fresh (owned : Owned state) {unassigned : Nat → Nat}
    (assigned : Assigned state.pmm.pmap state.pmm.mem)
    (nonnull : (pmmAlloc unassigned state.pmm).1 ≠ NULL) :
    (pmmAlloc unassigned state.pmm).1 ∉ state.held := by
  intro held
  obtain ⟨region, member, available, j, inside, same, clear⟩ := owned.taken _ held
  rcases @pmmAllocFrom_first unassigned _ _ owned.mapped 0 assigned with
    ⟨null, -⟩ | ⟨before, region', after, k, first⟩
  · exact nonnull null
  · have member' : region' ∈ state.pmm.pmap := by
      rw [first.split]
      simp
    obtain ⟨rfl, rfl⟩ := owned.distinct region member available region' member' first.available j inside
      k first.inside (same.symm.trans first.page)
    rw [first.set] at clear
    cases clear

theorem Owned.alloc (owned : Owned state) {unassigned : Nat → Nat}
    (runs : (PmmCall.alloc unassigned).run undefined state = .ok state') : Owned state' := by
  obtain rfl := Except.ok.inj runs
  have clears := pmmAlloc_clears owned.mapped unassigned
  refine ⟨owned.mapped, owned.unwrapped, owned.distinct, ?_⟩
  intro page member
  dsimp only at member
  split_ifs at member with null
  · exact (owned.taken page member).clears clears
  · rcases List.mem_cons.mp member with rfl | inside
    · exact (pmmAlloc_taken owned.mapped unassigned).resolve_left null
    · exact (owned.taken page inside).clears clears

/-- A release behind the bitmaps unsets the bit of the index whose page covers the address. -/
theorem Owned.free_eq (owned : Owned state) {page : Nat} {region : PmmRegion}
    (behind : v2p state.pmm.pmmVmaStop < page) (member : region ∈ state.pmm.pmap)
    (covers : region.Covers page) :
    pmmFree undefined page state.pmm = .ok { state.pmm with
      mem := bitmapUnset undefined region.bitmap ((page - region.addr) / 4096) state.pmm.mem } := by
  have found : (state.pmm.pmap.find? fun other => other.Covers page).isSome = true := by
    rw [List.find?_isSome]
    exact ⟨region, member, decide_eq_true covers⟩
  obtain ⟨other, search⟩ := Option.isSome_iff_exists.mp found
  have member' := List.mem_of_find?_eq_some search
  have covers' : other.Covers page := by
    have decided := List.find?_some search
    simpa using decided
  have unwrapped := owned.unwrapped region member covers.1
  have aligned := (owned.mapped region member covers.1).aligned.addr
  have aligned' := (owned.mapped other member' covers'.1).aligned.addr
  obtain ⟨inside, address⟩ := unwrapped.page_of_covers covers
  obtain ⟨inside', address'⟩ := (owned.unwrapped other member' covers'.1).page_of_covers covers'
  have same : region.page ((page - region.addr) / 4096) = other.page ((page - other.addr) / 4096) := by
    have lower := covers.2.1
    have lower' := covers'.2.1
    omega
  obtain ⟨rfl, -⟩ := owned.distinct region member covers.1 other member' covers'.1 _ inside _ inside' same
  have quotient : subU64 page region.addr / pageSizeInBytes = (page - region.addr) / 4096 := by
    have bounded : region.addr + region.sizeInPages * 4096 < 2 ^ 64 := unwrapped
    have stop := unwrapped.stop
    have lower := covers.2.1
    have upper := covers.2.2
    unfold subU64 pageSizeInBytes
    omega
  rw [pmmFree, if_neg (Nat.not_le.mpr behind), search]
  dsimp only
  rw [quotient]

/-- A release that avoids the defects makes its page available and changes no other page. -/
theorem Owned.free_exact (owned : Owned state) {page : Nat} (held : page ∈ state.held)
    (avoids : AvoidsDefects state (.free page)) :
    ∃ pmm, pmmFree undefined page state.pmm = .ok pmm ∧ pmm.pmap = state.pmm.pmap ∧
      pmm.Available page ∧ (∀ other, other ≠ page → (pmm.Available other ↔ state.pmm.Available other)) ∧
      ∀ other, other ≠ page → Taken state.pmm other → Taken pmm other := by
  obtain ⟨region, member, available, j, inside, named, -⟩ := owned.taken page held
  obtain ⟨behind, safe⟩ := avoids
  have unwrapped := owned.unwrapped region member available
  have address := unwrapped.page inside
  have covers : region.Covers page := by
    refine ⟨available, by omega, ?_⟩
    rw [unwrapped.stop]
    omega
  have index : (page - region.addr) / 4096 = j := by omega
  have freed := @Owned.free_eq undefined state owned page region behind member covers
  obtain ⟨exactShift, unshared⟩ := safe region member covers
  rw [index] at freed exactShift unshared
  rw [← named] at unshared
  have len := (owned.mapped region member available).len
  have writes := @bitmapUnset_writes region.bitmap state.pmm.mem undefined j (by omega) exactShift
  have others : ∀ other ∈ state.pmm.pmap, other.type = .available → ∀ k < other.sizeInPages,
      other.page k ≠ page → other.bit (bitmapUnset undefined region.bitmap j state.pmm.mem) k =
        other.bit state.pmm.mem k := by
    intro other listed kind k bound different
    exact writes.other (unshared other listed kind k bound different)
  refine ⟨_, freed, rfl, ?_, ?_, ?_⟩
  · exact ⟨region, member, available, j, inside, named.symm, writes.self⟩
  · intro other different
    constructor
    · rintro ⟨region', listed, kind, k, bound, rfl, set⟩
      have kept : region'.bit state.pmm.mem k = true :=
        (others region' listed kind k bound different).symm.trans set
      exact ⟨region', listed, kind, k, bound, rfl, kept⟩
    · rintro ⟨region', listed, kind, k, bound, rfl, set⟩
      exact ⟨region', listed, kind, k, bound, rfl,
        (others region' listed kind k bound different).trans set⟩
  · rintro other different ⟨region', listed, kind, k, bound, rfl, clear⟩
    exact ⟨region', listed, kind, k, bound, rfl,
      (others region' listed kind k bound different).trans clear⟩

theorem Owned.free (owned : Owned state) {page : Nat} (held : page ∈ state.held)
    (avoids : AvoidsDefects state (.free page))
    (runs : (PmmCall.free page).run undefined state = .ok state') : Owned state' := by
  obtain ⟨pmm, freed, table, -, -, taken⟩ := owned.free_exact held avoids
  obtain ⟨pmm', freed', finish⟩ := Outcome.bind_eq_ok.mp runs
  obtain rfl := Except.ok.inj (freed.symm.trans freed')
  obtain rfl := Except.ok.inj finish
  refine ⟨table.symm ▸ owned.mapped, table.symm ▸ owned.unwrapped, table.symm ▸ owned.distinct, ?_⟩
  intro other member
  have kept := List.mem_filter.mp member
  exact taken other (by simpa using kept.2) (owned.taken other kept.1)

end

/-- The boot holds the pages that it takes. -/
theorem Booted.owned {image : KernelImage} {mmap : List MultibootMmapEntry} {pages : List Nat} {pmm : Pmm}
    {pmap : List PmmRegion} (boot : Booted image mmap pages pmm pmap) (unwrapped : UnwrappedMap image mmap) :
    Owned ⟨pages.filter (· ≠ NULL), pmm⟩ := by
  have ranges := boot.unwrapped unwrapped
  refine ⟨boot.mapped, ranges, distinct_of_apart ranges boot.apart, ?_⟩
  intro page member
  have kept := List.mem_filter.mp member
  exact (boot.taken page kept.1).resolve_left (by simpa using kept.2)

/-- After every accepted boot on an unwrapped map, in every run whose calls release only held pages
and avoid the defects, no page is handed out twice and a release changes one page. -/
theorem pmmRun_exclusive (image : KernelImage) (undefined : Nat → Nat) (unassigned : Nat → Nat → Nat)
    (mmap : List MultibootMmapEntry) (mem : Memory) (calls : List PmmCall) (pages : List Nat)
    (count : Nat) (pmm : Pmm) (unwrapped : UnwrappedMap image mmap)
    (booted : pmmInit image unassigned mmap mem = .ok (pages, count, pmm))
    (releases : Along undefined (fun state call => ReleasesHeld state call ∧ AvoidsDefects state call)
      calls ⟨pages.filter (· ≠ NULL), pmm⟩) :
    Along undefined (Exclusive undefined) calls ⟨pages.filter (· ≠ NULL), pmm⟩ := by
  obtain ⟨pmap, boot⟩ := pmmInit_booted booted
  apply Along.of_invariant _ _ (boot.owned unwrapped) releases
  · rintro state (unassigned | page) owned ⟨held, avoids⟩
    · exact owned.alloc_fresh avoids
    · obtain ⟨pmm, freed, -, available, others, -⟩ := owned.free_exact held avoids
      exact ⟨pmm, freed, available, others⟩
  · rintro state (unassigned | page) state' owned ⟨held, avoids⟩ runs
    · exact owned.alloc runs
    · exact owned.free held avoids runs

/-- The image ends two mebibytes behind its link address. -/
def bootImage : KernelImage where
  vmaStop := kernelVma + uefiEnd
  aligned := by decide
  above := by decide
  below := by decide

/-- One available entry starts where the image ends. -/
def oneEntry (len : Nat) (small : len < 2 ^ 64) : List MultibootMmapEntry :=
  [{ addr := 0x200000, len := len, type := multibootMemoryAvailable, addr_lt := by decide, len_lt := small }]

/-- Two available entries of 64 pages, of which the higher one is listed first. -/
def twoEntries : List MultibootMmapEntry :=
  { addr := 0x300000, len := 0x40000, type := multibootMemoryAvailable, addr_lt := by decide, len_lt := by decide } ::
    oneEntry 0x40000 (by decide)

/-- This call finds a zero in the unassigned local. -/
def allocZero : PmmCall := .alloc fun _ => 0

/-- The table of one entry of 33 gibibytes. -/
def largeRegion : PmmRegion :=
  ⟨0x200000, 0x840000, .available, ⟨0x840000, 135169, kernelVma + uefiEnd⟩⟩

theorem assigned_largeRegion {mem : Memory} (set : largeRegion.bit mem 63 = true) :
    Assigned [largeRegion] mem := by
  have available : largeRegion.type = .available := rfl
  rw [Assigned, if_pos available]
  exact ⟨fun _ => ⟨63, by decide, set⟩, fun _ => trivial⟩

/-- The entry lies behind the image and ends below the end of memory. -/
theorem oneEntry_unwrapped : UnwrappedMap bootImage (oneEntry 0x840000000 (by decide)) := by
  intro entry member available above
  obtain rfl := List.mem_singleton.mp member
  exact ⟨by decide, by decide⟩

/-- With 33 gibibytes the bitmaps take 34 pages, and the second page behind them can be released. -/
theorem largeRegion_run :
    ∃ pages count pmm, pmmInit bootImage (fun _ _ => 0) (oneEntry 0x840000000 (by decide)) (fun _ => 0) =
        .ok (pages, count, pmm) ∧
      Along (fun _ => 0) (fun state call => ReleasesHeld state call ∧ AvoidsDefects state call)
        [allocZero, allocZero, .free 0x223000, allocZero] ⟨pages.filter (· ≠ NULL), pmm⟩ := by
  have evaluated : (do
      let (pages, _, pmm) ← pmmInit bootImage (fun _ _ => 0) (oneEntry 0x840000000 (by decide)) (fun _ => 0)
      let first ← allocZero.run (fun _ => 0) ⟨pages.filter (· ≠ NULL), pmm⟩
      let second ← allocZero.run (fun _ => 0) first
      let third ← (PmmCall.free 0x223000).run (fun _ => 0) second
      .ok ([pmm.pmap, first.pmm.pmap, second.pmm.pmap, third.pmm.pmap],
        [largeRegion.bit pmm.mem 63, largeRegion.bit first.pmm.mem 63, largeRegion.bit third.pmm.mem 63,
          decide (0x223000 ∈ second.held), decide (v2p second.pmm.pmmVmaStop < 0x223000)]) :
        Outcome (List (List PmmRegion) × List Bool)) =
      .ok (List.replicate 4 [largeRegion], List.replicate 5 true) := by
    decide +kernel
  obtain ⟨⟨pages, count, pmm⟩, booted, rest⟩ := Outcome.bind_eq_ok.mp evaluated
  obtain ⟨first, firstRun, rest⟩ := Outcome.bind_eq_ok.mp rest
  obtain ⟨second, secondRun, rest⟩ := Outcome.bind_eq_ok.mp rest
  obtain ⟨third, thirdRun, rest⟩ := Outcome.bind_eq_ok.mp rest
  have facts := Except.ok.inj rest
  simp only [Prod.mk.injEq, List.replicate, List.cons.injEq, and_true, decide_eq_true_eq] at facts
  obtain ⟨⟨table, table1, table2, table3⟩, set, set1, set3, held, behind⟩ := facts
  have alloc : ∀ {state : Holding}, state.pmm.pmap = [largeRegion] →
      largeRegion.bit state.pmm.mem 63 = true →
      ReleasesHeld state allocZero ∧ AvoidsDefects state allocZero := by
    intro state table set
    refine ⟨trivial, ?_⟩
    show Assigned state.pmm.pmap state.pmm.mem
    rw [table]
    exact assigned_largeRegion set
  have only : ∀ {call : PmmCall} {state state' : Holding}, call.run (fun _ => 0) state = .ok state' →
      ∀ other, call.run (fun _ => 0) state = .ok other → other = state' := by
    intro call state state' runs other runs'
    exact Except.ok.inj (runs'.symm.trans runs)
  have free : ReleasesHeld second (.free 0x223000) ∧ AvoidsDefects second (.free 0x223000) := by
    refine ⟨held, behind, ?_⟩
    rw [UnsetsOnly, table2]
    intro region member covers
    obtain rfl := List.mem_singleton.mp member
    refine ⟨by decide, ?_⟩
    intro other member' available' k inside' different
    obtain rfl := List.mem_singleton.mp member'
    intro shared
    have bound : largeRegion.sizeInPages = 0x840000 := rfl
    have index : (0x223000 - largeRegion.addr) / 4096 = 35 := by decide
    have equal := Bitmap.place_injective (by omega) (by omega) shared
    rw [equal] at different
    exact different rfl
  refine ⟨pages, count, pmm, booted, alloc table set, fun state runs => ?_⟩
  obtain rfl := only firstRun state runs
  refine ⟨alloc table1 set1, fun state runs => ?_⟩
  obtain rfl := only secondRun state runs
  refine ⟨free, fun state runs => ?_⟩
  obtain rfl := only thirdRun state runs
  exact ⟨alloc table3 set3, fun _ _ => trivial⟩

/-- In this run every page has at most one owner. -/
theorem pmmRun_exclusive_large :
    ∃ pages count pmm, pmmInit bootImage (fun _ _ => 0) (oneEntry 0x840000000 (by decide)) (fun _ => 0) =
        .ok (pages, count, pmm) ∧
      Along (fun _ => 0) (Exclusive fun _ => 0) [allocZero, allocZero, .free 0x223000, allocZero]
        ⟨pages.filter (· ≠ NULL), pmm⟩ := by
  obtain ⟨pages, count, pmm, booted, safe⟩ := largeRegion_run
  exact ⟨pages, count, pmm, booted, pmmRun_exclusive bootImage _ _ _ _ _ pages count pmm oneEntry_unwrapped booted safe⟩

/-- With 64 pages the release of page 32 sets the bits of 33 pages, and the kernel and a caller lose
pages that they hold. -/
theorem pmmRun_not_exclusive :
    ∃ pages count pmm, pmmInit bootImage (fun _ _ => 0) (oneEntry 0x40000 (by decide)) (fun _ => 0) =
        .ok (pages, count, pmm) ∧
      Along (fun _ => 0) ReleasesHeld
        (List.replicate 32 allocZero ++ [.free 0x220000, allocZero, allocZero])
        ⟨pages.filter (· ≠ NULL), pmm⟩ ∧
      ¬Along (fun _ => 0) (Exclusive fun _ => 0)
        (List.replicate 32 allocZero ++ [.free 0x220000, allocZero, allocZero])
        ⟨pages.filter (· ≠ NULL), pmm⟩ := by
  have evaluated : (do
      let (pages, _, pmm) ← pmmInit bootImage (fun _ _ => 0) (oneEntry 0x40000 (by decide)) (fun _ => 0)
      let first ← pmmRun (fun _ => 0) (List.replicate 32 allocZero) ⟨pages.filter (· ≠ NULL), pmm⟩
      let second ← (PmmCall.free 0x220000).run (fun _ => 0) first
      let third ← allocZero.run (fun _ => 0) second
      let (page, _) := pmmAlloc (fun _ => 0) third.pmm
      .ok (decide (0x220000 ∈ first.held), page, decide (page ∈ third.held)) :
        Outcome (Bool × Nat × Bool)) = .ok (true, 0x201000, true) := by
    decide +kernel
  obtain ⟨⟨pages, count, pmm⟩, booted, rest⟩ := Outcome.bind_eq_ok.mp evaluated
  obtain ⟨first, firstRun, rest⟩ := Outcome.bind_eq_ok.mp rest
  obtain ⟨second, secondRun, rest⟩ := Outcome.bind_eq_ok.mp rest
  obtain ⟨third, thirdRun, rest⟩ := Outcome.bind_eq_ok.mp rest
  have facts := Except.ok.inj rest
  simp only [Prod.mk.injEq, decide_eq_true_eq] at facts
  obtain ⟨held, page, again⟩ := facts
  have allocs : ∀ (count : Nat) (state : Holding),
      Along (fun _ => 0) ReleasesHeld (List.replicate count allocZero) state := by
    intro count
    induction count with
    | zero => exact fun _ => trivial
    | succ count ih => exact fun _ => ⟨trivial, fun state' _ => ih state'⟩
  refine ⟨pages, count, pmm, booted, along_append.mpr ⟨allocs 32 _, ?_⟩, ?_⟩
  · intro state runs
    obtain rfl := Except.ok.inj (runs.symm.trans firstRun)
    exact ⟨held, fun state' _ => allocs 2 state'⟩
  · intro along
    have last := (((along_append.mp along).2 first firstRun).2 second secondRun).2 third thirdRun
    have nonnull : (pmmAllocFrom (fun _ => 0) 0 third.pmm.pmap third.pmm.mem).1 ≠ NULL := by
      rw [page]
      decide
    exact last.1 nonnull again

end B0s
