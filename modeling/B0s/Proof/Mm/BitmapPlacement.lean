import Mathlib.Data.List.TFAE
import B0s.Proof.Lib.Bitmap
import B0s.Construction.Mm.Pmm

/-
This file settles when bitmaps that are placed one behind the other keep out of each other.
-/

namespace B0s
open ByteMemory

/-- Each bitmap is placed at the address that the previous initialisation returned. -/
def bitmapInitAll : List Nat → Nat → Memory → List Bitmap × Nat × Memory
  | [], ptr, mem => ([], ptr, mem)
  | len :: lens, ptr, mem =>
      let (bm, ptr, mem) := bitmapInit len ptr mem
      let (bms, result) := bitmapInitAll lens ptr mem
      (bm :: bms, result)

/-- The words of a bitmap hold a byte. -/
def Bitmap.Occupies (bm : Bitmap) (addr : Nat) : Prop :=
  ∃ offset < bm.sizeInBlock * sizeofU64, addr = u64 (bm.bitmap + offset)

/-- No byte belongs to the words of both bitmaps. -/
def Bitmap.Disjoint (bm bm' : Bitmap) : Prop := ∀ addr, bm.Occupies addr → ¬bm'.Occupies addr

/-- The second bitmap starts at or behind the end of the words of the first one. -/
def Bitmap.EndsBefore (bm bm' : Bitmap) : Prop := bm.bitmap + bm.sizeInBlock * sizeofU64 ≤ bm'.bitmap

/-- No operation on the first bitmap changes a bit of the second one. -/
structure Bitmap.Spares (bm bm' : Bitmap) : Prop where
  findAndSet : ∀ (unassigned : Nat) (mem : Memory), ∀ j < 64 * bm'.sizeInBlock,
    bm'.bit (bitmapFindAndSet bm unassigned mem).2 j = bm'.bit mem j
  unset : ∀ (undefined : Nat → Nat) (i : Nat) (mem : Memory), ∀ j < 64 * bm'.sizeInBlock,
    bm'.bit (bitmapUnset undefined bm i mem) j = bm'.bit mem j

/-- Two bitmaps keep out of each other. -/
structure Bitmap.Separate (bm bm' : Bitmap) : Prop where
  disjoint : bm.Disjoint bm'
  endsBefore : bm.EndsBefore bm'
  spares : bm.Spares bm'
  spared : bm'.Spares bm

/-- The bitmap that `bitmap_init` makes at an address. -/
def Bitmap.made (len ptr : Nat) : Bitmap := { len := len, sizeInBlock := bitmapSizeInBlock len, bitmap := ptr }

/-- The second bitmap is placed at the address that the initialisation of the first one returned. -/
def Bitmap.Follows (bm bm' : Bitmap) : Prop :=
  ∃ len len' ptr, len < 2 ^ 64 ∧ bm = Bitmap.made len ptr ∧
    bm' = Bitmap.made len' (u64 (ptr + bitmapSizeInBlock len))

section
variable {bm bm' : Bitmap}

/-- The first byte of the second bitmap is a byte of the first one. -/
theorem Bitmap.Follows.not_disjoint (follows : bm.Follows bm') : ¬bm.Disjoint bm' := by
  obtain ⟨len, len', ptr, -, rfl, rfl⟩ := follows
  intro disjoint
  apply disjoint (u64 (ptr + bitmapSizeInBlock len))
  · refine ⟨bitmapSizeInBlock len, ?_, rfl⟩
    simp only [Bitmap.made, bitmapSizeInBlock, sizeofU64]
    omega
  · refine ⟨0, ?_, ?_⟩
    · simp only [Bitmap.made, bitmapSizeInBlock, sizeofU64]
      omega
    · simp only [Bitmap.made, u64]
      omega

theorem Bitmap.Follows.not_endsBefore (follows : bm.Follows bm') : ¬bm.EndsBefore bm' := by
  obtain ⟨len, len', ptr, -, rfl, rfl⟩ := follows
  simp only [Bitmap.EndsBefore, Bitmap.made, bitmapSizeInBlock, sizeofU64, u64]
  omega

/-- Where only the shared byte is set, a search of the first bitmap clears one of its bits. -/
theorem Bitmap.Follows.not_spares (follows : bm.Follows bm') : ¬bm.Spares bm' := by
  obtain ⟨len, len', ptr, small, rfl, rfl⟩ := follows
  intro spares
  let shared := u64 (ptr + bitmapSizeInBlock len)
  let mem : Memory := fun addr => if addr = shared then 0xff else 0
  have fits : (Bitmap.made len ptr).Fits := by
    constructor
    · simp only [Bitmap.made, bitmapSizeInBlock]
      omega
    · simp only [Bitmap.made, bitmapSizeInBlock]
      omega
  -- the highest bit of the shared byte is set
  have top : (Bitmap.made len ptr).place
      (64 * (bitmapSizeInBlock len / 8) + (56 - 8 * (bitmapSizeInBlock len % 8))) = (shared, 7) := by
    simp only [Bitmap.place, Bitmap.made, ByteMemory.place, shared, u64]
    apply Prod.ext
    · dsimp only
      omega
    · dsimp only
      omega
  have set : (Bitmap.made len ptr).bit mem
      (64 * (bitmapSizeInBlock len / 8) + (56 - 8 * (bitmapSizeInBlock len % 8))) = true := by
    rw [Bitmap.bit, top, ByteMemory.bit]
    simp [mem]
  rcases bitmapFindAndSet_spec mem fits 0 with ⟨none, -⟩ | ⟨j, mem', result, -, taken, -, writes⟩
  · rw [none _ (by simp only [Bitmap.made, bitmapSizeInBlock]; omega)] at set
    cases set
  · have byte : ((Bitmap.made len ptr).place j).1 = shared := by
      by_contra other
      rw [Bitmap.bit, ByteMemory.bit] at taken
      simp [mem, other] at taken
    have valid := (Bitmap.made len ptr).valid_place j
    have same : (Bitmap.made len' shared).place (63 - ((Bitmap.made len ptr).place j).2) =
        (Bitmap.made len ptr).place j := by
      have low := valid.2
      apply Prod.ext
      · rw [byte]
        simp only [Bitmap.place, Bitmap.made, ByteMemory.place, shared, u64]
        omega
      · simp only [Bitmap.place, Bitmap.made, ByteMemory.place] at low ⊢
        omega
    have kept := spares.findAndSet 0 mem (63 - ((Bitmap.made len ptr).place j).2)
      (by simp only [Bitmap.made, bitmapSizeInBlock]; omega)
    rw [result, Bitmap.bit, Bitmap.bit, same, writes _ valid, if_pos rfl] at kept
    rw [Bitmap.bit, ← kept] at taken
    cases taken

end

/-- A relation that no bitmap has to the next one holds in a chain only when there is no next one. -/
theorem bitmapInitAll_pairwise_iff {relation : Bitmap → Bitmap → Prop}
    (fails : ∀ bm bm', bm.Follows bm' → ¬relation bm bm') {lens : List Nat} (ptr : Nat) (mem : Memory)
    (small : ∀ len ∈ lens, len < 2 ^ 64) : (bitmapInitAll lens ptr mem).1.Pairwise relation ↔ lens.length ≤ 1 := by
  cases lens with
  | nil => simp [bitmapInitAll]
  | cons len rest =>
      cases rest with
      | nil => simp [bitmapInitAll]
      | cons len' rest =>
          have follows : (Bitmap.made len ptr).Follows (Bitmap.made len' (u64 (ptr + bitmapSizeInBlock len))) :=
            ⟨len, len', ptr, small len List.mem_cons_self, rfl, rfl⟩
          constructor
          · intro pairwise
            have first := List.rel_of_pairwise_cons pairwise List.mem_cons_self
            exact absurd first (fails _ _ follows)
          · intro short
            simp at short

/-- Bitmaps that are placed one behind the other are separate exactly when there is at most one. Each part of the
property fails as soon as there are two. -/
theorem bitmapInitAll_separate_iff (lens : List Nat) (ptr : Nat) (mem : Memory) (small : ∀ len ∈ lens, len < 2 ^ 64) :
    [(bitmapInitAll lens ptr mem).1.Pairwise Bitmap.Separate,
      (bitmapInitAll lens ptr mem).1.Pairwise Bitmap.Disjoint,
      (bitmapInitAll lens ptr mem).1.Pairwise Bitmap.EndsBefore,
      (bitmapInitAll lens ptr mem).1.Pairwise Bitmap.Spares,
      lens.length ≤ 1].TFAE := by
  have separate : (bitmapInitAll lens ptr mem).1.Pairwise Bitmap.Separate ↔ lens.length ≤ 1 :=
    bitmapInitAll_pairwise_iff (fun _ _ follows separate => follows.not_disjoint separate.disjoint) ptr mem small
  have disjoint := bitmapInitAll_pairwise_iff (fun _ _ => Bitmap.Follows.not_disjoint) ptr mem small
  have endsBefore := bitmapInitAll_pairwise_iff (fun _ _ => Bitmap.Follows.not_endsBefore) ptr mem small
  have spares := bitmapInitAll_pairwise_iff (fun _ _ => Bitmap.Follows.not_spares) ptr mem small
  apply List.tfae_of_forall (lens.length ≤ 1)
  simp [separate, disjoint, endsBefore, spares]

/-- One bitmap is separate from all others. -/
theorem bitmapInitAll_separate_iff_one :
    (bitmapInitAll [64] 4096 fun _ => 0).1.Pairwise Bitmap.Separate :=
  ((bitmapInitAll_separate_iff [64] 4096 (fun _ => 0) (by simp)).out 0 4).mpr (by simp)

/-- The second of two bitmaps for 64 pages starts two bytes behind the first one. A search of the first one takes
page 16 of the second one with its page 0. -/
theorem bitmapInitAll_overlaps :
    (bitmapInitAll [64, 64] 4096 fun _ => 0).1 = [⟨64, 2, 4096⟩, ⟨64, 2, 4098⟩] ∧
      Bitmap.bit ⟨64, 2, 4098⟩ (bitmapInitAll [64, 64] 4096 fun _ => 0).2.2 16 = true ∧
      Bitmap.bit ⟨64, 2, 4098⟩
        (bitmapFindAndSet ⟨64, 2, 4096⟩ 0 (bitmapInitAll [64, 64] 4096 fun _ => 0).2.2).2 16 = false ∧
      ¬(bitmapInitAll [64, 64] 4096 fun _ => 0).1.Pairwise Bitmap.Separate := by
  refine ⟨by decide +kernel, by decide +kernel, by decide +kernel, ?_⟩
  intro separate
  have follows : Bitmap.Follows (Bitmap.made 64 4096) (Bitmap.made 64 4098) := ⟨64, 64, 4096, by decide, rfl, rfl⟩
  have first := List.rel_of_pairwise_cons separate List.mem_cons_self
  exact follows.not_disjoint first.disjoint

end B0s
