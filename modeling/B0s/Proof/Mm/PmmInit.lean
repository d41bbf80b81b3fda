import B0s.Proof.Mm.PmmAlloc

/-
This file proves what `pmm_init` leaves: a table with bitmaps whose bits are clear for the pages it took.
-/

namespace B0s
open ByteMemory

/-- A region without its bitmap. -/
def PmmRegion.range (region : PmmRegion) : PmmRegion :=
  { region with bitmap := { len := 0, sizeInBlock := 0, bitmap := NULL } }

/-- No set bit becomes clear. -/
def SetsBits (mem mem' : Memory) : Prop :=
  ∀ spot, Valid spot → ByteMemory.bit mem spot = true → ByteMemory.bit mem' spot = true

theorem memset_sets (ptr size : Nat) (mem : Memory) : SetsBits mem (memset ptr 0xff size mem) := by
  intro spot valid set
  have ones : (0xff : BitVec 8) = BitVec.allOnes 8 := by decide
  rw [ByteMemory.bit, memset, fill, ones]
  split_ifs
  · rw [BitVec.getLsbD_allOnes]
    exact decide_eq_true valid.2
  · exact set

/-- The bitmaps of the available regions follow each other, one byte for each word. -/
def Placed : List PmmRegion → Nat → Prop
  | [], _ => True
  | region :: rest, ptr =>
      if region.type = .available then
        region.bitmap.bitmap = ptr ∧ Placed rest (u64 (ptr + region.bitmap.sizeInBlock))
      else Placed rest ptr

/-- The address behind the bitmaps, as the source counts it. -/
def bitmapsEnd : List PmmRegion → Nat → Nat
  | [], ptr => ptr
  | region :: rest, ptr =>
      if region.type = .available then
        bitmapsEnd rest (u64 (ptr + bitmapSizeInBlock region.sizeInPages))
      else bitmapsEnd rest ptr

/-- Every bit of every bitmap is set. -/
def AllSet (pmap : List PmmRegion) (mem : Memory) : Prop :=
  ∀ region ∈ pmap, region.type = .available → ∀ k < 64 * region.bitmap.sizeInBlock,
    region.bit mem k = true

/-- The first loop keeps the ranges, places the bitmaps, and sets all their bits. -/
structure BitmapsMade (pmap pmap' : List PmmRegion) (ptr ptr' : Nat) (mem mem' : Memory) : Prop where
  ranges : pmap'.map PmmRegion.range = pmap.map PmmRegion.range
  mapped : Mapped pmap'
  placed : Placed pmap' ptr
  stop : ptr' = bitmapsEnd pmap ptr
  sets : SetsBits mem mem'
  allSet : AllSet pmap' mem'

theorem pmmInitBitmaps_made {pmap : List PmmRegion} (aligned : ∀ region ∈ pmap, region.Aligned)
    (ptr pages : Nat) (mem : Memory) :
    BitmapsMade pmap (pmmInitBitmaps pmap ptr pages mem).1 ptr (pmmInitBitmaps pmap ptr pages mem).2.1
      mem (pmmInitBitmaps pmap ptr pages mem).2.2.2 := by
  induction pmap generalizing ptr pages mem with
  | nil =>
      refine ⟨rfl, ?_, trivial, rfl, fun _ _ set => set, ?_⟩
      · intro region member
        cases member
      · intro region member
        cases member
  | cons region rest ih =>
      have alignedRest : ∀ other ∈ rest, other.Aligned := fun other member =>
        aligned other (List.mem_cons_of_mem _ member)
      have here := aligned region List.mem_cons_self
      rw [pmmInitBitmaps]
      by_cases available : region.type = .available
      · rw [if_neg (not_not.mpr available)]
        have blocks : bitmapSizeInBlock region.sizeInPages * sizeofU64 < 2 ^ 64 := by
          have size := here.size
          unfold bitmapSizeInBlock sizeofU64
          omega
        have made := ih alignedRest (u64 (ptr + bitmapSizeInBlock region.sizeInPages))
          (u64 (pages + region.sizeInPages))
          (memset ptr 0xff (u64 (bitmapSizeInBlock region.sizeInPages * sizeofU64)) mem)
        have ones : (0xff : BitVec 8) = BitVec.allOnes 8 := by decide
        simp only [bitmapInit]
        refine ⟨?_, ?_, ?_, ?_, ?_, ?_⟩
        · rw [List.map_cons, List.map_cons, made.ranges]
          rfl
        · intro other member kind
          rcases List.mem_cons.mp member with rfl | inside
          · exact ⟨⟨here.addr, here.bounded, here.size⟩, rfl, rfl⟩
          · exact made.mapped other inside kind
        · rw [Placed, if_pos available]
          exact ⟨rfl, made.placed⟩
        · rw [bitmapsEnd, if_pos available]
          exact made.stop
        · intro spot valid set
          exact made.sets spot valid (memset_sets _ _ _ spot valid set)
        · intro other member kind k bound
          rcases List.mem_cons.mp member with rfl | inside
          · apply made.sets _ (Bitmap.valid_place _ _)
            rw [memset, ones, u64, Nat.mod_eq_of_lt blocks]
            dsimp only at bound
            apply bit_fill_place
            · unfold sizeofU64
              omega
            · exact le_of_lt blocks
          · exact made.allSet other inside kind k bound
      · rw [if_pos available]
        have made := ih alignedRest ptr pages mem
        dsimp only
        refine ⟨?_, ?_, ?_, ?_, made.sets, ?_⟩
        · rw [List.map_cons, List.map_cons, made.ranges]
        · intro other member kind
          rcases List.mem_cons.mp member with rfl | inside
          · exact absurd kind available
          · exact made.mapped other inside kind
        · rw [Placed, if_neg available]
          exact made.placed
        · rw [bitmapsEnd, if_neg available]
          exact made.stop
        · intro other member kind
          rcases List.mem_cons.mp member with rfl | inside
          · exact absurd kind available
          · exact made.allSet other inside kind

/-- A page that was returned is the page of a region whose bit is clear. -/
def Taken (pmm : Pmm) (page : Nat) : Prop :=
  ∃ region ∈ pmm.pmap, region.type = .available ∧ ∃ j < region.sizeInPages,
    page = region.page j ∧ region.bit pmm.mem j = false

theorem Taken.clears {pmm : Pmm} {page : Nat} (taken : Taken pmm page) {mem : Memory}
    (clears : ClearsBits pmm.mem mem) : Taken { pmm with mem := mem } page := by
  obtain ⟨region, member, available, j, inside, same, clear⟩ := taken
  exact ⟨region, member, available, j, inside, same, clears _ _ clear⟩

theorem pmmAlloc_clears {pmm : Pmm} (mapped : Mapped pmm.pmap) (unassigned : Nat → Nat) :
    ClearsBits pmm.mem (pmmAlloc unassigned pmm).2.mem := (pmmAllocFrom_returns mapped 0).1

/-- Every allocation returns null or a page that is taken from then on. -/
theorem pmmAlloc_taken {pmm : Pmm} (mapped : Mapped pmm.pmap) (unassigned : Nat → Nat) :
    (pmmAlloc unassigned pmm).1 = NULL ∨
      Taken (pmmAlloc unassigned pmm).2 (pmmAlloc unassigned pmm).1 :=
  (pmmAllocFrom_returns mapped 0).2

/-- The second loop keeps the table and takes the pages that it returns. -/
theorem pmmInitReserve_spec {unassigned : Nat → Nat → Nat} {stop steps pa count count' : Nat}
    {pmm pmm' : Pmm} {pages : List Nat} (mapped : Mapped pmm.pmap)
    (done : pmmInitReserve unassigned stop steps pa count pmm = .ok (pages, count', pmm')) :
    (∃ mem, pmm' = { pmm with mem := mem } ∧ ClearsBits pmm.mem mem) ∧
      ∀ page ∈ pages, page = NULL ∨ Taken pmm' page := by
  induction steps generalizing pa count pmm pages with
  | zero => cases done
  | succ steps ih =>
      rw [pmmInitReserve] at done
      split_ifs at done with below
      · obtain ⟨⟨rest, count'', last⟩, inner, finish⟩ := Outcome.bind_eq_ok.mp done
        obtain ⟨rfl, rfl, rfl⟩ : (pmmAlloc (unassigned pa) pmm).1 :: rest = pages ∧ count'' = count' ∧
            last = pmm' := by
          have equal := Except.ok.inj finish
          simp only [Prod.mk.injEq] at equal
          exact equal
        have clears := pmmAlloc_clears mapped (unassigned pa)
        obtain ⟨⟨mem, rfl, later⟩, others⟩ := @ih _ _ (pmmAlloc (unassigned pa) pmm).2 _ mapped inner
        refine ⟨⟨mem, rfl, clears.trans later⟩, ?_⟩
        intro page member
        rcases List.mem_cons.mp member with rfl | inside
        · rcases pmmAlloc_taken mapped (unassigned pa) with null | taken
          · exact Or.inl null
          · exact Or.inr (taken.clears later)
        · exact others page inside
      · obtain ⟨rfl, rfl, rfl⟩ : pages = [] ∧ count' = count ∧ pmm' = pmm := by
          have equal := Except.ok.inj done
          simpa [eq_comm] using equal
        exact ⟨⟨_, rfl, ClearsBits.refl _⟩, by simp⟩

/-- The initialisation of an accepted map. -/
structure Booted (image : KernelImage) (mmap : List MultibootMmapEntry) (pages : List Nat) (pmm : Pmm)
    (pmap : List PmmRegion) : Prop where
  table : pmapInit image mmap = .ok pmap
  ranges : pmm.pmap.map PmmRegion.range = pmap.map PmmRegion.range
  mapped : Mapped pmm.pmap
  placed : Placed pmm.pmap image.vmaStop
  stop : pmm.pmmVmaStop = roundUp (subU64 (bitmapsEnd pmap image.vmaStop) 1) pageSizeInBytes
  taken : ∀ page ∈ pages, page = NULL ∨ Taken pmm page

section
variable {image : KernelImage} {unassigned : Nat → Nat → Nat} {mmap : List MultibootMmapEntry}
  {mem : Memory} {pages : List Nat} {count : Nat} {pmm : Pmm} {pmap : List PmmRegion}

/-- A region of the table belongs to a kept entry. -/
theorem pmapInit_mem (accepted : pmapInit image mmap = .ok pmap) (region : PmmRegion) :
    region ∈ pmap ↔ ∃ entry ∈ mmap, isAvailableOrReserved entry = true ∧
      (pmapRegion image entry).1 = region := by
  rw [(pmapInit_spec accepted).1.mem_iff, pmapRegions, List.mem_map]
  simp only [List.mem_filter, and_assoc]

theorem pmapInit_aligned (accepted : pmapInit image mmap = .ok pmap) :
    ∀ region ∈ pmap, region.Aligned := by
  intro region member
  obtain ⟨entry, -, -, rfl⟩ := (pmapInit_mem accepted region).mp member
  exact pmapRegion_aligned image entry

theorem pmmInit_booted (booted : pmmInit image unassigned mmap mem = .ok (pages, count, pmm)) :
    ∃ pmap, Booted image mmap pages pmm pmap := by
  obtain ⟨pmap, accepted, rest⟩ := Outcome.bind_eq_ok.mp booted
  have made := pmmInitBitmaps_made (pmapInit_aligned accepted) image.vmaStop 0 mem
  obtain ⟨⟨mem', rfl, clears⟩, taken⟩ := pmmInitReserve_spec made.mapped rest
  refine ⟨pmap, accepted, made.ranges, made.mapped, made.placed, ?_, taken⟩
  dsimp only
  rw [made.stop]

end

end B0s
