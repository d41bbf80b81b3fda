import B0s.Library.Runs
import B0s.Proof.Lib.BitmapRun
import B0s.Construction.Mm.Pmm

/-
This file settles how long a full bitmap stays full under further calls of `bitmap_find_and_set`.
-/

namespace B0s
open ByteMemory

/-- The set bits of all words of a bitmap. -/
def Bitmap.setIndices (bm : Bitmap) (mem : Memory) : Finset Nat :=
  (Finset.range (64 * bm.sizeInBlock)).filter fun j => bm.bit mem j = true

/-- A call on a full bitmap can still use up so many set bits behind its last index. -/
def Bitmap.spares (bm : Bitmap) (mem : Memory) : Nat := (bm.setIndices mem).card

/-- A call of `bitmap_find_and_set` with some value in its unassigned local leaves this memory. -/
def Bitmap.Finds (bm : Bitmap) (unassigned : Nat) (mem mem' : Memory) : Prop :=
  (bitmapFindAndSet bm unassigned mem).2 = mem'

/-- The call returns the length and changes the status of no index, so `pmm_alloc` goes on to the regions behind
one with this bitmap. -/
structure Bitmap.Refuses (bm : Bitmap) (unassigned : Nat) (mem : Memory) : Prop where
  returns : (bitmapFindAndSet bm unassigned mem).1 = bm.len
  status : ∀ j < bm.len, bm.bit (bitmapFindAndSet bm unassigned mem).2 j = bm.bit mem j
  skips : ∀ (region : PmmRegion) (rest : List PmmRegion) (locals : Nat → Nat) (i : Nat),
    region.bitmap = bm → region.type = .available → locals i = unassigned →
    pmmAllocFrom locals i (region :: rest) mem =
      pmmAllocFrom locals (i + 1) rest (bitmapFindAndSet bm unassigned mem).2

section
variable {bm : Bitmap} {mem mem' : Memory}

/-- Clearing a set bit leaves one spare bit less. -/
theorem Bitmap.Writes.spares {j : Nat} (writes : bm.Writes j false mem mem') (fits : bm.Fits)
    (inside : j < 64 * bm.sizeInBlock) (set : bm.bit mem j = true) : bm.spares mem = bm.spares mem' + 1 := by
  have member : j ∈ bm.setIndices mem := Finset.mem_filter.mpr ⟨Finset.mem_range.mpr inside, set⟩
  have erased : bm.setIndices mem' = (bm.setIndices mem).erase j := by
    ext k
    simp only [Bitmap.setIndices, Finset.mem_erase, Finset.mem_filter, Finset.mem_range]
    by_cases same : k = j
    · subst same
      simp [writes.self]
    · constructor
      · rintro ⟨bound, now⟩
        have small := fits.small
        have apart : bm.place k ≠ bm.place j := fun equal =>
          same (Bitmap.place_injective (by omega) (by omega) equal)
        exact ⟨same, bound, (writes.other apart).symm.trans now⟩
      · rintro ⟨-, bound, now⟩
        have small := fits.small
        have apart : bm.place k ≠ bm.place j := fun equal =>
          same (Bitmap.place_injective (by omega) (by omega) equal)
        exact ⟨bound, (writes.other apart).trans now⟩
  rw [Bitmap.spares, Bitmap.spares, erased, Finset.card_erase_add_one member]

/-- A full bitmap refuses the call exactly when the call returns its length. -/
theorem Bitmap.Full.refuses_iff (full : bm.Full mem) (fits : bm.Fits) (unassigned : Nat) :
    bm.Refuses unassigned mem ↔ (bitmapFindAndSet bm unassigned mem).1 = bm.len := by
  refine ⟨fun refuses => refuses.returns, fun returns => ⟨returns, ?_, ?_⟩⟩
  · intro j inside
    rw [full j inside]
    rcases bitmapFindAndSet_spec mem fits unassigned with ⟨-, result⟩ | ⟨k, mem', result, -, -, -, writes⟩
    · rw [result]
      exact full j inside
    · rw [result]
      exact writes.antitone (full j inside)
  · intro region rest locals i same available value
    rw [pmmAllocFrom, if_neg (not_not.mpr available), same, value]
    simp only [returns, if_true]

/-- A call on a full bitmap uses up a spare bit and returns the length. Without a spare bit it changes nothing and
returns its unassigned local, capped at the length. -/
theorem Bitmap.Full.find (full : bm.Full mem) (fits : bm.Fits) (unassigned : Nat) :
    bm.Full (bitmapFindAndSet bm unassigned mem).2 ∧
      ((bm.spares mem = 0 ∧ bitmapFindAndSet bm unassigned mem = (min unassigned bm.len, mem)) ∨
        ((bitmapFindAndSet bm unassigned mem).1 = bm.len ∧
          bm.spares mem = bm.spares (bitmapFindAndSet bm unassigned mem).2 + 1)) := by
  rcases bitmapFindAndSet_spec mem fits unassigned with ⟨none, result⟩ | ⟨j, mem', result, inside, set, -, writes⟩
  · have empty : bm.setIndices mem = ∅ := by
      rw [Bitmap.setIndices, Finset.filter_eq_empty_iff]
      intro j bound now
      rw [none j (Finset.mem_range.mp bound)] at now
      cases now
    have spares : bm.spares mem = 0 := by rw [Bitmap.spares, empty, Finset.card_empty]
    refine ⟨?_, Or.inl ⟨spares, result⟩⟩
    rw [result]
    exact full
  · have behind : bm.len ≤ j := by
      by_contra before
      rw [full j (Nat.lt_of_not_le before)] at set
      cases set
    rw [result]
    refine ⟨fun k bound => writes.antitone (full k bound), Or.inr ⟨Nat.min_eq_right behind, ?_⟩⟩
    exact writes.spares fits inside set

end

/-- Successive calls on a full bitmap are all refused exactly when each call behind the last spare bit finds at
least the length in its unassigned local. -/
theorem bitmapFindAndSet_exhausted_iff (bm : Bitmap) (mem : Memory) (locals : List Nat) (sized : bm.Sized)
    (full : bm.Full mem) :
    Runs.Along bm.Finds bm.Refuses locals mem ↔ ∀ unassigned ∈ locals.drop (bm.spares mem), bm.len ≤ unassigned := by
  have fits := sized.fits
  induction locals generalizing mem with
  | nil => simp [Runs.Along]
  | cons unassigned rest ih =>
      have later := @Runs.along_cons _ _ bm.Finds bm.Refuses unassigned rest mem
        (bitmapFindAndSet bm unassigned mem).2 fun _ => Iff.rfl
      obtain ⟨full', step⟩ := full.find fits unassigned
      refine (later.trans (and_congr (full.refuses_iff fits unassigned) (ih _ full'))).trans ?_
      rcases step with ⟨none, result⟩ | ⟨returns, spares⟩
      · rw [result, none, List.drop_zero, List.drop_zero]
        simp only [List.forall_mem_cons]
        exact and_congr_left fun _ => min_eq_right_iff
      · rw [spares, List.drop_succ_cons]
        exact and_iff_right returns

/-- A bitmap of 62 indices with all of them taken refuses as many calls as it has spare bits. -/
theorem bitmapFindAndSet_exhausted_iff_spare :
    Runs.Along (Bitmap.Finds ⟨62, 1, 4096⟩) (Bitmap.Refuses ⟨62, 1, 4096⟩) [0, 0]
      (fun addr => if addr = 4096 then 0x3 else 0) :=
  (bitmapFindAndSet_exhausted_iff ⟨62, 1, 4096⟩ _ [0, 0] ⟨rfl, by decide⟩ (by unfold Bitmap.Full; decide +kernel)).mpr
    (by decide +kernel)

/-- A bitmap of 63 indices whose spare bit was used up hands out index 0 again when its local holds 0. -/
theorem bitmapFindAndSet_hands_out_taken :
    Bitmap.Sized ⟨63, 1, 4096⟩ ∧ Bitmap.Full ⟨63, 1, 4096⟩ (fun _ => 0) ∧
      (bitmapFindAndSet ⟨63, 1, 4096⟩ 0 fun _ => 0).1 = 0 ∧
      ¬Runs.Along (Bitmap.Finds ⟨63, 1, 4096⟩) (Bitmap.Refuses ⟨63, 1, 4096⟩) [0] (fun _ => 0) := by
  have returned : (bitmapFindAndSet ⟨63, 1, 4096⟩ 0 fun _ => 0).1 = 0 := by decide +kernel
  refine ⟨⟨rfl, by decide⟩, by unfold Bitmap.Full; decide +kernel, returned, ?_⟩
  rintro ⟨refuses, -⟩
  have length := refuses.returns
  rw [returned] at length
  cases length

end B0s
