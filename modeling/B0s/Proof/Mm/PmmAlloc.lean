import B0s.Proof.Lib.Bitmap
import B0s.Proof.Mm.Pmap

/-
This file proves which page an allocation returns and what a call does to the bits of all pages.
-/

namespace B0s
open ByteMemory

/-- The address of one page of a region. -/
def PmmRegion.page (region : PmmRegion) (j : Nat) : Nat :=
  u64 (region.addr + u64 (j * pageSizeInBytes))

/-- The bit of a page is set while the page is available. -/
def PmmRegion.bit (region : PmmRegion) (mem : Memory) (j : Nat) : Bool := region.bitmap.bit mem j

/-- An available region has a bitmap for its pages. -/
structure PmmRegion.Mapped (region : PmmRegion) : Prop where
  aligned : region.Aligned
  len : region.bitmap.len = region.sizeInPages
  blocks : region.bitmap.sizeInBlock = bitmapSizeInBlock region.sizeInPages

theorem PmmRegion.Mapped.fits {region : PmmRegion} (mapped : region.Mapped) : region.bitmap.Fits := by
  have size := mapped.aligned.size
  have len := mapped.len
  have blocks := mapped.blocks
  unfold bitmapSizeInBlock at blocks
  exact ⟨by omega, by omega⟩

/-- Every available region of a table has its bitmap. -/
def Mapped (pmap : List PmmRegion) : Prop :=
  ∀ region ∈ pmap, region.type = .available → region.Mapped

/-- No clear bit becomes set. -/
def ClearsBits (mem mem' : Memory) : Prop :=
  ∀ (bm : Bitmap) (k : Nat), bm.bit mem k = false → bm.bit mem' k = false

theorem ClearsBits.refl (mem : Memory) : ClearsBits mem mem := fun _ _ clear => clear

theorem ClearsBits.trans {mem mem' mem'' : Memory} (first : ClearsBits mem mem') (second : ClearsBits mem' mem'') :
    ClearsBits mem mem'' := fun bm k clear => second bm k (first bm k clear)

theorem ClearsBits.of_set {mem mem' : Memory} (clears : ClearsBits mem mem') {bm : Bitmap} {k : Nat}
    (set : bm.bit mem' k = true) : bm.bit mem k = true := by
  by_contra clear
  rw [clears bm k (by simpa using clear)] at set
  cases set

section
variable {unassigned : Nat → Nat} {mem : Memory}

/-- An allocation only clears bits, and it returns null or a page whose bit is clear afterwards. -/
theorem pmmAllocFrom_returns {regions : List PmmRegion} (mapped : Mapped regions) (i : Nat) :
    ClearsBits mem (pmmAllocFrom unassigned i regions mem).2 ∧
      ((pmmAllocFrom unassigned i regions mem).1 = NULL ∨
        ∃ region ∈ regions, region.type = .available ∧ ∃ j < region.sizeInPages,
          (pmmAllocFrom unassigned i regions mem).1 = region.page j ∧
          region.bit (pmmAllocFrom unassigned i regions mem).2 j = false) := by
  induction regions generalizing i mem with
  | nil => exact ⟨ClearsBits.refl mem, Or.inl rfl⟩
  | cons region rest ih =>
      have mappedRest : Mapped rest := fun other member => mapped other (List.mem_cons_of_mem _ member)
      have passes : ∀ mem',
          ClearsBits mem' (pmmAllocFrom unassigned (i + 1) rest mem').2 ∧
          ((pmmAllocFrom unassigned (i + 1) rest mem').1 = NULL ∨
            ∃ other ∈ region :: rest, other.type = .available ∧ ∃ j < other.sizeInPages,
              (pmmAllocFrom unassigned (i + 1) rest mem').1 = other.page j ∧
              other.bit (pmmAllocFrom unassigned (i + 1) rest mem').2 j = false) := by
        intro mem'
        obtain ⟨clears, null | ⟨other, member, found⟩⟩ := @ih mem' mappedRest (i + 1)
        · exact ⟨clears, Or.inl null⟩
        · exact ⟨clears, Or.inr ⟨other, List.mem_cons_of_mem _ member, found⟩⟩
      rw [pmmAllocFrom]
      by_cases available : region.type = .available
      · have here := mapped region List.mem_cons_self available
        rw [if_neg (not_not.mpr available)]
        rcases bitmapFindAndSet_spec mem here.fits (unassigned i) with
          ⟨zero, result⟩ | ⟨k, mem', result, bound, set, first, writes⟩
        · simp only [result]
          split_ifs with full
          · exact passes mem
          · refine ⟨ClearsBits.refl mem, Or.inr ⟨region, List.mem_cons_self, available, _, ?_, rfl, ?_⟩⟩
            · rw [← here.len]
              omega
            · have covers := here.fits.covers
              exact zero _ (by omega)
        · have clears : ClearsBits mem mem' := fun bm k clear => writes.antitone clear
          simp only [result]
          split_ifs with full
          · obtain ⟨later, returned⟩ := passes mem'
            exact ⟨clears.trans later, returned⟩
          · have inside : k < region.bitmap.len := by omega
            have capped : min k region.bitmap.len = k := by omega
            refine ⟨clears, Or.inr ⟨region, List.mem_cons_self, available, k, ?_, ?_, writes.self⟩⟩
            · rw [← here.len]
              exact inside
            · rw [capped, PmmRegion.page]
      · rw [if_pos available]
        exact passes mem

/-- No region that an allocation consults reads the unassigned local: a region with pages has a set
bit, also after the allocation has passed the regions before it. -/
def Assigned : List PmmRegion → Memory → Prop
  | [], _ => True
  | region :: rest, mem =>
      if region.type = .available then
        (0 < region.bitmap.len → ∃ j < 64 * region.bitmap.sizeInBlock, region.bit mem j = true) ∧
        ((∀ j < region.bitmap.len, region.bit mem j = false) →
          Assigned rest (bitmapFindAndSet region.bitmap NULL mem).2)
      else Assigned rest mem

/-- The memory after a search does not depend on the unassigned local. -/
theorem bitmapFindAndSet_memory (bm : Bitmap) (first second : Nat) :
    (bitmapFindAndSet bm first mem).2 = (bitmapFindAndSet bm second mem).2 := by
  have from_eq : ∀ steps i, (bitmapFindAndSetFrom bm first steps i mem).2 =
      (bitmapFindAndSetFrom bm second steps i mem).2 := by
    intro steps
    induction steps with
    | zero =>
        intro i
        rfl
    | succ steps ih =>
        intro i
        simp only [bitmapFindAndSetFrom]
        split_ifs
        · exact ih (i + 1)
        · rfl
  exact from_eq _ _

/-- The page that comes first in the table among the available ones. -/
structure FirstPage (regions : List PmmRegion) (mem mem' : Memory) (page : Nat) (before : List PmmRegion)
    (region : PmmRegion) (after : List PmmRegion) (j : Nat) : Prop where
  split : regions = before ++ region :: after
  available : region.type = .available
  inside : j < region.sizeInPages
  page : page = region.page j
  set : region.bit mem j = true
  taken : region.bit mem' j = false
  lower : ∀ k < j, region.bit mem' k = false
  earlier : ∀ other ∈ before, other.type = .available → ∀ k < other.sizeInPages,
    other.bit mem' k = false

/-- An allocation that reads no unassigned local takes the first available page, if there is one. -/
theorem pmmAllocFrom_first {regions : List PmmRegion} (mapped : Mapped regions) (i : Nat)
    (assigned : Assigned regions mem) :
    ((pmmAllocFrom unassigned i regions mem).1 = NULL ∧
      ∀ region ∈ regions, region.type = .available → ∀ k < region.sizeInPages,
        region.bit (pmmAllocFrom unassigned i regions mem).2 k = false) ∨
    ∃ before region after j, FirstPage regions mem (pmmAllocFrom unassigned i regions mem).2
      (pmmAllocFrom unassigned i regions mem).1 before region after j := by
  induction regions generalizing i mem with
  | nil => exact Or.inl ⟨rfl, by simp⟩
  | cons region rest ih =>
      have mappedRest : Mapped rest := fun other member => mapped other (List.mem_cons_of_mem _ member)
      rw [pmmAllocFrom]
      rw [Assigned] at assigned
      by_cases available : region.type = .available
      · have here := mapped region List.mem_cons_self available
        have covers := here.fits.covers
        rw [if_pos available] at assigned
        rw [if_neg (not_not.mpr available)]
        have passes : ∀ mem', (bitmapFindAndSet region.bitmap (unassigned i) mem).2 = mem' →
            ClearsBits mem mem' → (∀ k < region.bitmap.len, region.bit mem k = false) →
            ((pmmAllocFrom unassigned (i + 1) rest mem').1 = NULL ∧
              ∀ other ∈ region :: rest, other.type = .available → ∀ k < other.sizeInPages,
                other.bit (pmmAllocFrom unassigned (i + 1) rest mem').2 k = false) ∨
            ∃ before other after j, FirstPage (region :: rest) mem
              (pmmAllocFrom unassigned (i + 1) rest mem').2
              (pmmAllocFrom unassigned (i + 1) rest mem').1 before other after j := by
          intro mem' memory clears full
          have assigned' : Assigned rest mem' := by
            rw [← memory, bitmapFindAndSet_memory _ _ NULL]
            exact assigned.2 full
          have later := (@pmmAllocFrom_returns unassigned mem' rest mappedRest (i + 1)).1
          have stays : ∀ k < region.sizeInPages,
              region.bit (pmmAllocFrom unassigned (i + 1) rest mem').2 k = false := by
            intro k inside
            rw [← here.len] at inside
            exact later _ _ (clears _ _ (full k inside))
          rcases ih mappedRest (i + 1) assigned' with
            ⟨null, all⟩ | ⟨before, other, after, j, first⟩
          · left
            refine ⟨null, ?_⟩
            intro other member
            rcases List.mem_cons.mp member with rfl | inside
            · exact fun _ => stays
            · exact all other inside
          · right
            refine ⟨region :: before, other, after, j, ⟨by rw [first.split, List.cons_append],
              first.available, first.inside, first.page, clears.of_set first.set, first.taken,
              first.lower, ?_⟩⟩
            intro earlier member
            rcases List.mem_cons.mp member with rfl | inside
            · exact fun _ => stays
            · exact first.earlier earlier inside
        rcases bitmapFindAndSet_spec mem here.fits (unassigned i) with
          ⟨zero, result⟩ | ⟨k, mem', result, bound, set, first, writes⟩
        · have empty : region.bitmap.len = 0 := by
            by_contra nonempty
            obtain ⟨j, bound, set⟩ := assigned.1 (by omega)
            have clear : region.bit mem j = false := zero j bound
            rw [clear] at set
            cases set
          have passed := passes mem (by rw [result]) (ClearsBits.refl mem) (fun k inside => by omega)
          simp only [result, empty, Nat.min_zero, if_true]
          exact passed
        · have clears : ClearsBits mem mem' := fun bm k clear => writes.antitone clear
          by_cases full : min k region.bitmap.len = region.bitmap.len
          · have passed := passes mem' (by rw [result]) clears
              (fun k' inside => first k' (by omega))
            simp only [result, full, if_true]
            exact passed
          · have capped : min k region.bitmap.len = k := by omega
            right
            refine ⟨[], region, rest, k, ?_⟩
            simp only [result, if_neg full]
            refine ⟨rfl, available, ?_, ?_, set, writes.self, ?_, by simp⟩
            · rw [← here.len]
              omega
            · rw [capped, PmmRegion.page]
            · intro k' below
              exact clears _ _ (first k' below)
      · rw [if_neg available] at assigned
        rw [if_pos available]
        rcases ih mappedRest (i + 1) assigned with ⟨null, all⟩ | ⟨before, other, after, j, first⟩
        · left
          refine ⟨null, ?_⟩
          intro other member kind
          rcases List.mem_cons.mp member with rfl | inside
          · exact absurd kind available
          · exact all other inside kind
        · right
          refine ⟨region :: before, other, after, j, ⟨by rw [first.split, List.cons_append],
            first.available, first.inside, first.page, first.set, first.taken, first.lower, ?_⟩⟩
          intro earlier member kind
          rcases List.mem_cons.mp member with rfl | inside
          · exact absurd kind available
          · exact first.earlier earlier inside kind

end

end B0s
