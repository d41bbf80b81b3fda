import B0s.Proof.Lib.BitmapUnset
import B0s.Proof.Mm.PmmRun

/-
This file settles in which states the release of a page that was just allocated restores the allocator.
-/

namespace B0s
open ByteMemory

/-- Two allocators have the same table, the same end of the bitmaps, and the same bytes of memory. -/
structure Pmm.Same (pmm pmm' : Pmm) : Prop where
  pmap : pmm'.pmap = pmm.pmap
  pmmVmaStop : pmm'.pmmVmaStop = pmm.pmmVmaStop
  bytes : ∀ addr < 2 ^ 64, pmm'.mem addr = pmm.mem addr

/-- An allocation and the release of its page end without a panic in the state before, whatever the unassigned
locals and the undefined shifts hold. -/
def Pmm.Restores (pmm : Pmm) : Prop := ∀ unassigned undefined,
  ∃ pmm', pmmFree undefined (pmmAlloc unassigned pmm).1 (pmmAlloc unassigned pmm).2 = .ok pmm' ∧ pmm.Same pmm'

/-- The region has no page, and the spare bits of its bitmap are used up. -/
def PmmRegion.Spent (region : PmmRegion) (mem : Memory) : Prop :=
  region.sizeInPages = 0 ∧ ∀ k < 64 * region.bitmap.sizeInBlock, region.bit mem k = false

/-- The first available region that is not spent has a free page. The first one lies behind the bitmaps, and its
release shifts below the sign bit. -/
structure ReleasablePage (pmm : Pmm) (before : List PmmRegion) (region : PmmRegion) (after : List PmmRegion)
    (j : Nat) : Prop where
  split : pmm.pmap = before ++ region :: after
  spent : ∀ other ∈ before, other.type = .available → other.Spent pmm.mem
  available : region.type = .available
  inside : j < region.sizeInPages
  set : region.bit pmm.mem j = true
  first : ∀ k < j, region.bit pmm.mem k = false
  behind : v2p pmm.pmmVmaStop < region.page j
  exactShift : 33 ≤ j % 64

/-- The first free page behind spent regions. -/
structure FirstFree (pmm : Pmm) (before : List PmmRegion) (region : PmmRegion) (after : List PmmRegion) (j : Nat) :
    Prop where
  split : pmm.pmap = before ++ region :: after
  spent : ∀ other ∈ before, other.type = .available → other.Spent pmm.mem
  available : region.type = .available
  inside : j < region.sizeInPages
  set : region.bit pmm.mem j = true
  first : ∀ k < j, region.bit pmm.mem k = false

theorem ReleasablePage.next {pmm : Pmm} {before after : List PmmRegion} {region : PmmRegion} {j : Nat}
    (found : ReleasablePage pmm before region after j) : FirstFree pmm before region after j :=
  ⟨found.split, found.spent, found.available, found.inside, found.set, found.first⟩

/-- The next page that is allocated can be released. -/
def Pmm.FindsReleasable (pmm : Pmm) : Prop := ∃ before region after j, ReleasablePage pmm before region after j

section
variable {unassigned undefined : Nat → Nat} {mem mem' : Memory} {before after regions : List PmmRegion}
  {region : PmmRegion} {pmm : Pmm} {j : Nat}

/-- Two memories with the same bits have the same bytes. -/
theorem bytes_of_bits (bits : ∀ spot, Valid spot → ByteMemory.bit mem' spot = ByteMemory.bit mem spot) :
    ∀ addr < 2 ^ 64, mem' addr = mem addr := by
  intro addr bound
  apply BitVec.eq_of_getLsbD_eq
  intro index small
  exact bits (addr, index) ⟨bound, small⟩

theorem bit_of_bytes (bytes : ∀ addr < 2 ^ 64, mem' addr = mem addr) (bm : Bitmap) (k : Nat) :
    bm.bit mem' k = bm.bit mem k := by
  rw [Bitmap.bit, Bitmap.bit, ByteMemory.bit, ByteMemory.bit, bytes _ (bm.valid_place k).1]

/-- A search of a bitmap without a set bit changes nothing and returns the capped local. -/
theorem PmmRegion.Mapped.find_none (mapped : region.Mapped)
    (none : ∀ k < 64 * region.bitmap.sizeInBlock, region.bit mem k = false) (local' : Nat) :
    bitmapFindAndSet region.bitmap local' mem = (min local' region.sizeInPages, mem) := by
  rcases bitmapFindAndSet_spec mem mapped.fits local' with ⟨-, result⟩ | ⟨k, mem', -, bound, set, -, -⟩
  · rw [result, mapped.len]
  · have clear := none k bound
    rw [PmmRegion.bit, set] at clear
    cases clear

/-- An allocation passes spent regions and leaves them as they are. -/
theorem pmmAllocFrom_spent (mapped : Mapped before)
    (spent : ∀ other ∈ before, other.type = .available → other.Spent mem) (i : Nat) :
    pmmAllocFrom unassigned i (before ++ regions) mem = pmmAllocFrom unassigned (i + before.length) regions mem := by
  induction before generalizing i with
  | nil => rfl
  | cons other rest ih =>
      have later := ih (fun region member => mapped region (List.mem_cons_of_mem _ member))
        (fun region member => spent region (List.mem_cons_of_mem _ member)) (i + 1)
      have index : i + 1 + rest.length = i + (other :: rest).length := by
        rw [List.length_cons]
        omega
      rw [index] at later
      rw [List.cons_append, pmmAllocFrom]
      by_cases available : other.type = .available
      · have here := mapped other List.mem_cons_self available
        obtain ⟨empty, none⟩ := spent other List.mem_cons_self available
        have full : (0 : Nat) = other.bitmap.len := (here.len.trans empty).symm
        rw [if_neg (not_not.mpr available), here.find_none none, empty, Nat.min_zero]
        dsimp only
        rw [if_pos full, later]
      · rw [if_pos available, later]

/-- The first free page is allocated, and only its bit changes. -/
theorem FirstFree.alloc (found : FirstFree pmm before region after j) (mapped : Mapped pmm.pmap)
    (unassigned : Nat → Nat) : ∃ mem', pmmAlloc unassigned pmm = (region.page j, { pmm with mem := mem' }) ∧
      region.bitmap.Writes j false pmm.mem mem' := by
  rw [found.split] at mapped
  have here := mapped region (by simp) found.available
  have mappedBefore : Mapped before := fun other member => mapped other (List.mem_append_left _ member)
  rcases bitmapFindAndSet_spec pmm.mem here.fits (unassigned (0 + before.length)) with
    ⟨none, -⟩ | ⟨k, mem', result, bound, set, least, writes⟩
  · have covers := here.fits.covers
    have len := here.len
    have inside := found.inside
    have clear := none j (by omega)
    rw [← PmmRegion.bit, found.set] at clear
    cases clear
  · obtain rfl : k = j := by
      rcases lt_trichotomy k j with less | same | more
      · have clear := found.first k less
        rw [PmmRegion.bit, set] at clear
        cases clear
      · exact same
      · have clear := least j more
        rw [← PmmRegion.bit, found.set] at clear
        cases clear
    have inside := found.inside
    have len := here.len
    have capped : min k region.bitmap.len = k := by omega
    have notFull : k ≠ region.bitmap.len := by omega
    refine ⟨mem', ?_, writes⟩
    rw [pmmAlloc, found.split, pmmAllocFrom_spent mappedBefore found.spent, pmmAllocFrom,
      if_neg (not_not.mpr found.available), result, capped]
    dsimp only
    rw [if_neg notFull, PmmRegion.page]

/-- A page behind the bitmaps is released by unsetting its bit. -/
theorem Owned.free_page (owned : Owned ⟨[], pmm⟩) (member : region ∈ pmm.pmap) (available : region.type = .available)
    (inside : j < region.sizeInPages) (behind : v2p pmm.pmmVmaStop < region.page j) :
    pmmFree undefined (region.page j) pmm = .ok { pmm with mem := bitmapUnset undefined region.bitmap j pmm.mem } := by
  have unwrapped := owned.unwrapped region member available
  have address := unwrapped.page inside
  have covers : region.Covers (region.page j) := by
    refine ⟨available, by omega, ?_⟩
    rw [unwrapped.stop]
    omega
  have index : (region.page j - region.addr) / 4096 = j := by omega
  have freed := @Owned.free_eq undefined ⟨[], pmm⟩ owned (region.page j) region behind member covers
  rw [index] at freed
  exact freed

/-- A releasable page is restored. -/
theorem ReleasablePage.restores (found : ReleasablePage pmm before region after j) (owned : Owned ⟨[], pmm⟩) :
    pmm.Restores := by
  intro unassigned undefined
  obtain ⟨mem', allocated, clears⟩ := found.next.alloc owned.mapped unassigned
  have member : region ∈ pmm.pmap := by
    rw [found.split]
    simp
  have owned' : Owned ⟨[], { pmm with mem := mem' }⟩ := ⟨owned.mapped, owned.unwrapped, owned.distinct, by simp⟩
  have len := (owned.mapped region member found.available).len
  have inside := found.inside
  have sets := @bitmapUnset_writes region.bitmap mem' undefined j (by omega) found.exactShift
  rw [allocated, owned'.free_page member found.available found.inside found.behind]
  refine ⟨_, rfl, rfl, rfl, bytes_of_bits ?_⟩
  intro spot valid
  rw [sets spot valid, clears spot valid]
  split_ifs with same
  · rw [same]
    exact found.set.symm
  · rfl

/-- An allocation changes at most one bit for each region. -/
theorem pmmAllocFrom_changes (mapped : Mapped regions) (i : Nat) :
    ∃ spots : Finset (Nat × Nat), spots.card ≤ regions.length ∧ ∀ spot, Valid spot → spot ∉ spots →
      ByteMemory.bit (pmmAllocFrom unassigned i regions mem).2 spot = ByteMemory.bit mem spot := by
  induction regions generalizing i mem with
  | nil => exact ⟨∅, by simp, fun _ _ _ => rfl⟩
  | cons region rest ih =>
      have mappedRest : Mapped rest := fun other member => mapped other (List.mem_cons_of_mem _ member)
      have passes : ∀ mem', (∃ spot', ∀ spot, Valid spot → spot ≠ spot' →
          ByteMemory.bit mem' spot = ByteMemory.bit mem spot) →
          ∃ spots : Finset (Nat × Nat), spots.card ≤ (region :: rest).length ∧ ∀ spot, Valid spot → spot ∉ spots →
            ByteMemory.bit mem' spot = ByteMemory.bit mem spot ∧
            ByteMemory.bit (pmmAllocFrom unassigned (i + 1) rest mem').2 spot = ByteMemory.bit mem spot := by
        rintro mem' ⟨spot', same⟩
        obtain ⟨spots, few, later⟩ := @ih mem' mappedRest (i + 1)
        refine ⟨insert spot' spots, (Finset.card_insert_le _ _).trans (Nat.succ_le_succ few), ?_⟩
        intro spot valid outside
        rw [Finset.mem_insert, not_or] at outside
        have here := same spot valid outside.1
        exact ⟨here, (later spot valid outside.2).trans here⟩
      have one : ∃ spot', ∀ spot, Valid spot → spot ≠ spot' →
          ByteMemory.bit (bitmapFindAndSet region.bitmap (unassigned i) mem).2 spot = ByteMemory.bit mem spot ∨
            region.type ≠ .available := by
        by_cases available : region.type = .available
        · have here := mapped region List.mem_cons_self available
          rcases bitmapFindAndSet_spec mem here.fits (unassigned i) with
            ⟨-, result⟩ | ⟨k, mem', result, -, -, -, writes⟩
          · exact ⟨(0, 0), fun spot _ _ => Or.inl (by rw [result])⟩
          · refine ⟨region.bitmap.place k, fun spot valid other => Or.inl ?_⟩
            rw [result, writes spot valid, if_neg other]
        · exact ⟨(0, 0), fun _ _ _ => Or.inr available⟩
      rw [pmmAllocFrom]
      by_cases available : region.type = .available
      · obtain ⟨spot', same⟩ := one
        obtain ⟨spots, few, later⟩ := passes _ ⟨spot', fun spot valid other =>
          (same spot valid other).resolve_right (not_not.mpr available)⟩
        rw [if_neg (not_not.mpr available)]
        dsimp only
        refine ⟨spots, few, ?_⟩
        intro spot valid outside
        split_ifs
        · exact (later spot valid outside).2
        · exact (later spot valid outside).1
      · obtain ⟨spots, few, later⟩ := passes mem ⟨(0, 0), fun _ _ _ => rfl⟩
        rw [if_pos available]
        exact ⟨spots, few, fun spot valid outside => (later spot valid outside).2⟩

/-- An allocation whose locals hold zero passes regions up to one. It used up a bit of a passed region, or all of
them are spent. -/
structure PassesTo (regions : List PmmRegion) (mem : Memory) (before : List PmmRegion) (region : PmmRegion)
    (after : List PmmRegion) (mem' : Memory) : Prop where
  split : regions = before ++ region :: after
  available : region.type = .available
  clears : ClearsBits mem mem'
  passed : (mem' = mem ∧ ∀ other ∈ before, other.type = .available → other.Spent mem) ∨
    ∃ (bm : Bitmap) (k : Nat), bm.bit mem k = true ∧ bm.bit mem' k = false

/-- The allocation takes the first page of a region without a set bit, or the first free page of the region. -/
def TakesFrom (region : PmmRegion) (mem : Memory) (result : Nat × Memory) : Prop :=
  (0 < region.sizeInPages ∧ (∀ k < 64 * region.bitmap.sizeInBlock, region.bit mem k = false) ∧
      result = (region.page 0, mem)) ∨
    ∃ j mem', j < region.sizeInPages ∧ region.bit mem j = true ∧ (∀ k < j, region.bit mem k = false) ∧
      region.bitmap.Writes j false mem mem' ∧ result = (region.page j, mem')

/-- The bits that a passed region lost stay lost. -/
theorem PassesTo.cons {other : PmmRegion} {rest : List PmmRegion} (passes : PassesTo rest mem before region after mem')
    {start : Memory} (clears : ClearsBits start mem)
    (passed : (mem = start ∧ (other.type = .available → other.Spent start)) ∨
      ∃ (bm : Bitmap) (k : Nat), bm.bit start k = true ∧ bm.bit mem k = false) :
    PassesTo (other :: rest) start (other :: before) region after mem' := by
  refine ⟨by rw [passes.split, List.cons_append], passes.available, clears.trans passes.clears, ?_⟩
  rcases passed with ⟨rfl, spent⟩ | ⟨bm, k, set, clear⟩
  · rcases passes.passed with ⟨rfl, all⟩ | lost
    · left
      refine ⟨rfl, ?_⟩
      intro earlier member
      rcases List.mem_cons.mp member with rfl | inside
      · exact spent
      · exact all earlier inside
    · exact Or.inr lost
  · exact Or.inr ⟨bm, k, set, passes.clears bm k clear⟩

theorem pmmAllocFrom_zero (mapped : Mapped regions) (i : Nat) :
    (pmmAllocFrom (fun _ => 0) i regions mem).1 = NULL ∨
      ∃ before region after mem', PassesTo regions mem before region after mem' ∧
        TakesFrom region mem' (pmmAllocFrom (fun _ => 0) i regions mem) := by
  induction regions generalizing i mem with
  | nil => exact Or.inl rfl
  | cons region rest ih =>
      have mappedRest : Mapped rest := fun other member => mapped other (List.mem_cons_of_mem _ member)
      have passes : ∀ mem', ClearsBits mem mem' →
          ((mem' = mem ∧ (region.type = .available → region.Spent mem)) ∨
            ∃ (bm : Bitmap) (k : Nat), bm.bit mem k = true ∧ bm.bit mem' k = false) →
          (pmmAllocFrom (fun _ => 0) (i + 1) rest mem').1 = NULL ∨
            ∃ before other after mem'', PassesTo (region :: rest) mem before other after mem'' ∧
              TakesFrom other mem'' (pmmAllocFrom (fun _ => 0) (i + 1) rest mem') := by
        intro mem' clears passed
        rcases @ih mem' mappedRest (i + 1) with null | ⟨before, other, after, mem'', found, takes⟩
        · exact Or.inl null
        · exact Or.inr ⟨region :: before, other, after, mem'', found.cons clears passed, takes⟩
      have stops : region.type = .available → PassesTo (region :: rest) mem [] region rest mem := fun available =>
        ⟨rfl, available, ClearsBits.refl mem, Or.inl ⟨rfl, by simp⟩⟩
      rw [pmmAllocFrom]
      by_cases available : region.type = .available
      · have here := mapped region List.mem_cons_self available
        have len := here.len
        rw [if_neg (not_not.mpr available)]
        rcases bitmapFindAndSet_spec mem here.fits 0 with ⟨none, result⟩ | ⟨k, mem', result, bound, set, first, writes⟩
        · rw [result, Nat.zero_min]
          dsimp only
          split_ifs with empty
          · apply passes mem (ClearsBits.refl mem)
            exact Or.inl ⟨rfl, fun _ => ⟨by omega, none⟩⟩
          · right
            refine ⟨[], region, rest, mem, stops available, Or.inl ⟨by omega, none, ?_⟩⟩
            rw [PmmRegion.page]
        · have clears : ClearsBits mem mem' := fun bm k clear => writes.antitone clear
          rw [result]
          dsimp only
          split_ifs with full
          · exact passes mem' clears (Or.inr ⟨region.bitmap, k, set, writes.self⟩)
          · have capped : min k region.bitmap.len = k := by omega
            right
            refine ⟨[], region, rest, mem, stops available, Or.inr ⟨k, mem', by omega, set, first, writes, ?_⟩⟩
            rw [capped, PmmRegion.page]
      · rw [if_pos available]
        exact passes mem (ClearsBits.refl mem) (Or.inl ⟨rfl, fun now => absurd now available⟩)

/-- If every release restores the allocator, the allocation returned a page of the region behind the bitmaps, and
unsetting its bit gives back every bit of memory. -/
theorem Pmm.Restores.unsets (restores : pmm.Restores) (owned : Owned ⟨[], pmm⟩) (member : region ∈ pmm.pmap)
    (available : region.type = .available) (inside : j < region.sizeInPages)
    (taken : pmmAllocFrom (fun _ => 0) 0 pmm.pmap pmm.mem = (region.page j, mem')) :
    v2p pmm.pmmVmaStop < region.page j ∧
      ∀ undefined bm k, Bitmap.bit bm (bitmapUnset undefined region.bitmap j mem') k = bm.bit pmm.mem k := by
  have owned' : Owned ⟨[], { pmm with mem := mem' }⟩ := ⟨owned.mapped, owned.unwrapped, owned.distinct, by simp⟩
  have allocated : pmmAlloc (fun _ => 0) pmm = (region.page j, { pmm with mem := mem' }) := by rw [pmmAlloc, taken]
  have behind : v2p pmm.pmmVmaStop < region.page j := by
    by_contra before
    obtain ⟨pmm', freed, -⟩ := restores (fun _ => 0) (fun _ => 0)
    rw [allocated, pmmFree, if_pos (Nat.le_of_not_lt before)] at freed
    cases freed
  refine ⟨behind, ?_⟩
  intro undefined bm k
  obtain ⟨pmm', freed, same⟩ := restores (fun _ => 0) undefined
  rw [allocated, owned'.free_page member available inside behind] at freed
  obtain rfl := Except.ok.inj freed
  exact bit_of_bytes same.bytes bm k

/-- A release with the shift by 31 would have to give back more bits than an allocation takes. -/
theorem not_restored_high (mapped : Mapped pmm.pmap) (few : pmm.pmap.length ≤ pmapSizeLimit) (fits : region.bitmap.Fits)
    (inside : j < region.bitmap.len) (high : j % 64 = 32)
    (taken : (pmmAllocFrom unassigned 0 pmm.pmap pmm.mem).2 = mem') (clear : ∀ k ≤ j, region.bit mem' k = false)
    (unsets : ∀ bm k, Bitmap.bit bm (bitmapUnset undefined region.bitmap j mem') k = bm.bit pmm.mem k) : False := by
  obtain ⟨spots, bound, same⟩ := @pmmAllocFrom_changes unassigned pmm.mem pmm.pmap mapped 0
  have small := fits.small
  have covers := fits.covers
  have changed : (Finset.range 33).image (fun i => region.bitmap.place (64 * (j / 64) + i)) ⊆ spots := by
    intro spot member
    obtain ⟨i, below, rfl⟩ := Finset.mem_image.mp member
    have low := Finset.mem_range.mp below
    by_contra outside
    have kept := same _ (region.bitmap.valid_place _) outside
    have before := clear (64 * (j / 64) + i) (by omega)
    have after := unsets region.bitmap (64 * (j / 64) + i)
    have position : 64 * (j / 64) + i = j ∨ j % 64 = 32 ∧ (64 * (j / 64) + i) / 64 = j / 64 ∧ 64 * (j / 64) + i < j := by
      omega
    rw [bit_bitmapUnset_defined undefined inside (by omega) (by omega) (by omega), decide_eq_true position,
      Bool.or_true] at after
    rw [taken] at kept
    rw [PmmRegion.bit, Bitmap.bit, kept, ← Bitmap.bit, ← after] at before
    cases before
  have distinct : ((Finset.range 33).image fun i => region.bitmap.place (64 * (j / 64) + i)).card = 33 := by
    rw [Finset.card_image_of_injOn, Finset.card_range]
    intro first below second below' equal
    have low := Finset.mem_range.mp below
    have low' := Finset.mem_range.mp below'
    have index := Bitmap.place_injective (by omega) (by omega) equal
    omega
  have count := Finset.card_le_card changed
  unfold pmapSizeLimit at few
  omega

/-- An allocator that is always restored finds a releasable page. -/
theorem Pmm.Restores.findsReleasable (restores : pmm.Restores) (owned : Owned ⟨[], pmm⟩)
    (few : pmm.pmap.length ≤ pmapSizeLimit) : pmm.FindsReleasable := by
  rcases @pmmAllocFrom_zero pmm.mem pmm.pmap owned.mapped 0 with
    null | ⟨before, region, after, mem', passes, takes⟩
  · exfalso
    obtain ⟨pmm', freed, -⟩ := restores (fun _ => 0) (fun _ => 0)
    have returned : (pmmAlloc (fun _ => 0) pmm).1 = NULL := null
    have reserved : NULL ≤ v2p (pmmAlloc (fun _ => 0) pmm).2.pmmVmaStop := Nat.zero_le _
    rw [returned, pmmFree, if_pos reserved] at freed
    cases freed
  · have member : region ∈ pmm.pmap := by
      rw [passes.split]
      simp
    have here := owned.mapped region member passes.available
    have len := here.len
    have small := here.fits.small
    have covers := here.fits.covers
    rcases takes with ⟨nonempty, none, taken⟩ | ⟨j, mem'', inside, set, first, writes, taken⟩
    · -- the page is handed out a second time, so its release sets a bit that was clear
      exfalso
      have unsets := (restores.unsets owned member passes.available nonempty taken).2
      have lowClear := unsets (fun _ => 0) region.bitmap 63
      have lowSet := unsets (fun _ => 1) region.bitmap 63
      rw [bit_bitmapUnset _ (by omega) (by omega) (by omega)] at lowClear lowSet
      rw [← lowClear] at lowSet
      have clear := none 63 (by omega)
      rw [PmmRegion.bit] at clear
      rw [clear] at lowSet
      revert lowSet
      decide
    · obtain ⟨behind, unsets⟩ := restores.unsets owned member passes.available inside taken
      have free : region.bit pmm.mem j = true := passes.clears.of_set set
      have exactShift : 33 ≤ j % 64 := by
        by_contra low
        by_cases high : j % 64 = 32
        · have clear : ∀ k ≤ j, region.bit mem'' k = false := by
            intro k upTo
            by_cases same : k = j
            · rw [same]
              exact writes.self
            · exact writes.antitone (first k (by omega))
          exact not_restored_high owned.mapped few here.fits (by omega) high (by rw [taken]) clear (unsets fun _ => 0)
        · -- the shift is undefined and may yield no bit
          have bit := unsets (fun _ => 0) region.bitmap j
          have shift : intShift (fun _ => 0) (63 - j % 64) = 0 := by
            rw [intShift, if_neg (by omega), if_neg (by omega)]
            rfl
          rw [bit_bitmapUnset _ (by omega) (by omega) (by omega), writes.self, shift] at bit
          rw [PmmRegion.bit, ← bit] at free
          simp at free
      have sets := @bitmapUnset_writes region.bitmap mem'' (fun _ => 0) j (by omega) exactShift
      rcases passes.passed with ⟨rfl, spent⟩ | ⟨bm, k, full, lost⟩
      · exact ⟨before, region, after, j, passes.split, spent, passes.available, inside, set, first, behind, exactShift⟩
      · exfalso
        have bit := unsets (fun _ => 0) bm k
        have apart : bm.place k ≠ region.bitmap.place j := by
          intro same
          rw [Bitmap.bit, same, ← Bitmap.bit] at lost
          rw [PmmRegion.bit, lost] at set
          cases set
        rw [sets.other apart, writes.other apart, lost, full] at bit
        cases bit

/-- A call keeps the table. -/
theorem PmmCall.run_pmap {call : PmmCall} {state state' : Holding} (runs : call.run undefined state = .ok state') :
    state'.pmm.pmap = state.pmm.pmap := by
  cases call with
  | alloc unassigned =>
      obtain rfl := Except.ok.inj runs
      rfl
  | free page =>
      obtain ⟨pmm, freed, finish⟩ := Outcome.bind_eq_ok.mp runs
      obtain rfl := Except.ok.inj finish
      rw [pmmFree] at freed
      split_ifs at freed
      split at freed
      · obtain rfl := Except.ok.inj freed
        rfl
      · cases freed

/-- A run keeps the table. -/
theorem pmmRun_pmap {calls : List PmmCall} {state state' : Holding} (runs : pmmRun undefined calls state = .ok state') :
    state'.pmm.pmap = state.pmm.pmap := by
  induction calls generalizing state with
  | nil =>
      obtain rfl := Except.ok.inj runs
      rfl
  | cons call calls ih =>
      obtain ⟨middle, here, rest⟩ := Outcome.bind_eq_ok.mp runs
      exact (ih rest).trans (PmmCall.run_pmap here)

end

/-- After every accepted boot on an unwrapped map, in every state that some calls reach, an allocation and the release
of its page restore the allocator whenever some page is free exactly when the next page is then releasable. -/
theorem pmmAllocFree_restores_iff (image : KernelImage) (unassigned : Nat → Nat → Nat) (undefined : Nat → Nat)
    (mmap : List MultibootMmapEntry) (mem : Memory) (calls : List PmmCall) (pages : List Nat) (count : Nat) (pmm : Pmm)
    (state : Holding) (unwrapped : UnwrappedMap image mmap)
    (booted : pmmInit image unassigned mmap mem = .ok (pages, count, pmm))
    (reached : pmmRun undefined calls ⟨pages.filter (· ≠ NULL), pmm⟩ = .ok state) :
    ((∃ page, state.pmm.Available page) → state.pmm.Restores) ↔
      ((∃ page, state.pmm.Available page) → state.pmm.FindsReleasable) := by
  obtain ⟨pmap, boot⟩ := pmmInit_booted booted
  have table : state.pmm.pmap = pmm.pmap := pmmRun_pmap reached
  have ranges := boot.unwrapped unwrapped
  have owned : Owned ⟨[], state.pmm⟩ := by
    refine ⟨?_, ?_, ?_, by simp⟩
    · exact table ▸ boot.mapped
    · exact table ▸ ranges
    · exact table ▸ distinct_of_apart ranges boot.apart
  have few : state.pmm.pmap.length ≤ pmapSizeLimit := by
    have same := congrArg List.length boot.ranges
    rw [List.length_map, List.length_map] at same
    rw [table, same]
    exact (pmapInit_spec boot.table).2.1
  apply imp_congr_right
  rintro -
  constructor
  · intro restores
    exact restores.findsReleasable owned few
  · rintro ⟨before, region, after, j, found⟩
    exact found.restores owned

/-- With 33 gibibytes the second page behind the bitmaps is releasable. -/
theorem pmmAllocFree_restores_iff_large :
    ∃ pages count pmm state, pmmInit bootImage (fun _ _ => 0) (oneEntry 0x840000000 (by decide)) (fun _ => 0) =
        .ok (pages, count, pmm) ∧ pmmRun (fun _ => 0) [allocZero] ⟨pages.filter (· ≠ NULL), pmm⟩ = .ok state ∧
      ((∃ page, state.pmm.Available page) → state.pmm.Restores) := by
  have evaluated : (do
      let (pages, _, pmm) ← pmmInit bootImage (fun _ _ => 0) (oneEntry 0x840000000 (by decide)) (fun _ => 0)
      let state ← pmmRun (fun _ => 0) [allocZero] ⟨pages.filter (· ≠ NULL), pmm⟩
      .ok (state.pmm.pmap, largeRegion.bit state.pmm.mem 35, decide (v2p state.pmm.pmmVmaStop < largeRegion.page 35),
        (List.range 35).all fun k => !largeRegion.bit state.pmm.mem k) :
        Outcome (List PmmRegion × Bool × Bool × Bool)) = .ok ([largeRegion], true, true, true) := by
    decide +kernel
  obtain ⟨⟨pages, count, pmm⟩, booted, rest⟩ := Outcome.bind_eq_ok.mp evaluated
  obtain ⟨state, ran, rest⟩ := Outcome.bind_eq_ok.mp rest
  have facts := Except.ok.inj rest
  simp only [Prod.mk.injEq, decide_eq_true_eq, List.all_eq_true, Bool.not_eq_true'] at facts
  obtain ⟨table, set, behind, taken⟩ := facts
  refine ⟨pages, count, pmm, state, booted, ran,
    (pmmAllocFree_restores_iff bootImage _ _ _ _ _ pages count pmm state oneEntry_unwrapped booted ran).mpr ?_⟩
  rintro -
  exact ⟨[], largeRegion, [], 35, table, by simp, rfl, by decide, set,
    fun k below => taken k (List.mem_range.mpr below), behind, by decide⟩

/-- The table of one entry of 64 pages. -/
def smallRegion : PmmRegion := ⟨0x200000, 64, .available, ⟨64, 2, kernelVma + uefiEnd⟩⟩

/-- With 64 pages the first allocation after the boot returns the page at the end of the bitmaps, and its release
panics. -/
theorem pmmAllocFree_panics :
    ∃ pages count pmm, pmmInit bootImage (fun _ _ => 0) (oneEntry 0x40000 (by decide)) (fun _ => 0) =
        .ok (pages, count, pmm) ∧ (∃ page, pmm.Available page) ∧ (pmmAlloc (fun _ => 0) pmm).1 = 0x201000 ∧
      pmmFree (fun _ => 0) 0x201000 (pmmAlloc (fun _ => 0) pmm).2 = .error (.panic (.pmmFreeNotFreeable 0x201000)) ∧
      ¬pmm.Restores := by
  have evaluated : (do
      let (_, _, pmm) ← pmmInit bootImage (fun _ _ => 0) (oneEntry 0x40000 (by decide)) (fun _ => 0)
      .ok (pmm.pmap, smallRegion.bit pmm.mem 1, (pmmAlloc (fun _ => 0) pmm).1, v2p pmm.pmmVmaStop) :
        Outcome (List PmmRegion × Bool × Nat × Nat)) = .ok ([smallRegion], true, 0x201000, 0x201000) := by
    decide +kernel
  obtain ⟨⟨pages, count, pmm⟩, booted, rest⟩ := Outcome.bind_eq_ok.mp evaluated
  have facts := Except.ok.inj rest
  simp only [Prod.mk.injEq] at facts
  obtain ⟨table, set, page, stop⟩ := facts
  have panics : pmmFree (fun _ => 0) 0x201000 (pmmAlloc (fun _ => 0) pmm).2 =
      .error (.panic (.pmmFreeNotFreeable 0x201000)) := by
    have reserved : 0x201000 ≤ v2p (pmmAlloc (fun _ => 0) pmm).2.pmmVmaStop := le_of_eq stop.symm
    rw [pmmFree, if_pos reserved]
  refine ⟨pages, count, pmm, booted, ⟨smallRegion.page 1, smallRegion, ?_, rfl, 1, by decide, rfl, set⟩, page, panics, ?_⟩
  · rw [table]
    exact List.mem_singleton.mpr rfl
  · intro restores
    obtain ⟨pmm', freed, -⟩ := restores (fun _ => 0) (fun _ => 0)
    rw [page, panics] at freed
    cases freed

end B0s
