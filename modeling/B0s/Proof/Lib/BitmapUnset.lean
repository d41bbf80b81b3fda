import B0s.Proof.Lib.Bitmap

/-
This file settles which calls of `bitmap_unset` free exactly one index.
-/

namespace B0s
open ByteMemory

/-- The mask of `bitmap_unset` has the bit of its shift, and at 31 all higher bits. -/
theorem getLsbD_intShift (undefined : Nat → Nat) {count k : Nat} (low : count < 32) (small : k < 64) :
    (BitVec.ofNat 64 (intShift undefined count)).getLsbD k = decide (k = count ∨ count = 31 ∧ 31 ≤ k) := by
  rw [BitVec.getLsbD_ofNat, intShift]
  by_cases positive : count < 31
  · have other : count ≠ 31 := by omega
    rw [if_pos positive, Nat.testBit_two_pow]
    simp [small, other, eq_comm]
  · obtain rfl : count = 31 := by omega
    have sum : 2 ^ 64 - 2 ^ 31 = (2 ^ 33 - 1) <<< 31 := by decide
    rw [if_neg positive, if_pos rfl, sum, Nat.testBit_shiftLeft, Nat.testBit_two_pow_sub_one]
    have window : (31 ≤ k ∧ k - 31 < 33) ↔ (k = 31 ∨ 31 ≤ k) := by omega
    simp [small, ← Bool.decide_and, window]

section
variable {bm : Bitmap} {mem : Memory} {i : Nat}

/-- The distance of a word from another word of a bitmap. -/
theorem Bitmap.word_far (bm : Bitmap) {i j : Nat} (small : i < 2 ^ 64) (small' : j < 2 ^ 64)
    (apart : j / 64 ≠ i / 64) : 8 ≤ distance (bm.word (i / 64)) (bm.place j).1 := by
  have index : 64 * (j / 64) + (63 - (63 - j % 64)) = j := by omega
  have named := @Bitmap.place_eq_word bm (j / 64) (63 - j % 64) (by omega)
  rw [index] at named
  rw [named]
  unfold distance ByteMemory.place Bitmap.word u64 sizeofU64
  dsimp only
  omega

/-- The call sets in the word of its index the bits of the mask. -/
theorem bit_bitmapUnset (undefined : Nat → Nat) (inside : i < bm.len) (small : i < 2 ^ 64) {j : Nat}
    (small' : j < 2 ^ 64) :
    bm.bit (bitmapUnset undefined bm i mem) j = (bm.bit mem j || (decide (j / 64 = i / 64) &&
      (BitVec.ofNat 64 (intShift undefined (63 - i % 64))).getLsbD (63 - j % 64))) := by
  have index : 64 * (j / 64) + (63 - (63 - j % 64)) = j := by omega
  have bound : 63 - j % 64 < 64 := by omega
  rw [bitmapUnset, if_neg (Nat.not_le.mpr inside)]
  dsimp only
  by_cases same : j / 64 = i / 64
  · have before := @Bitmap.getLsbD_word bm mem (j / 64) _ bound
    have named := @Bitmap.place_eq_word bm (j / 64) _ bound
    rw [index] at before named
    rw [← same, Bitmap.bit, named, bit_storeWord_place _ _ _ bound, BitVec.getLsbD_or, before]
    simp
  · rw [Bitmap.bit, bit_storeWord_far _ _ _ (bm.word_far small small' same), ← Bitmap.bit]
    simp [same]

/-- After the call the index is free, and every other index has the status that it had. -/
structure Bitmap.FreesOnly (bm : Bitmap) (i : Nat) (mem mem' : Memory) : Prop where
  free : bm.bit mem' i = true
  others : ∀ j < bm.len, j ≠ i → bm.bit mem' j = bm.bit mem j

/-- The shift stays below the sign of the int, or its extra bits are the bits of indices that are
free already. -/
def Bitmap.ShiftsExactly (bm : Bitmap) (i : Nat) (mem : Memory) : Prop :=
  33 ≤ i % 64 ∨
    (i % 64 = 32 ∧ ∀ j < i, j / 64 = i / 64 → bm.bit mem j = true) ∨
    (i % 64 < 32 ∧ ∀ j < bm.len, j / 64 = i / 64 → bm.bit mem j = true)

/-- A call whose shift is defined sets the bits of its mask. -/
theorem bit_bitmapUnset_defined (undefined : Nat → Nat) (inside : i < bm.len) (small : i < 2 ^ 64)
    (defined : 32 ≤ i % 64) {j : Nat} (small' : j < 2 ^ 64) :
    bm.bit (bitmapUnset undefined bm i mem) j =
      (bm.bit mem j || decide (j = i ∨ i % 64 = 32 ∧ j / 64 = i / 64 ∧ j < i)) := by
  rw [bit_bitmapUnset undefined inside small small', getLsbD_intShift undefined (by omega) (by omega),
    ← Bool.decide_and]
  have positions : (j / 64 = i / 64 ∧ (63 - j % 64 = 63 - i % 64 ∨ 63 - i % 64 = 31 ∧ 31 ≤ 63 - j % 64)) ↔
      (j = i ∨ i % 64 = 32 ∧ j / 64 = i / 64 ∧ j < i) := by
    omega
  simp only [positions]

/-- Whatever an undefined shift gives, `bitmap_unset` frees exactly its index if and only if the shift
stays below the sign of the int or its extra bits belong to free indices. -/
theorem bitmapUnset_freesOnly_iff (bm : Bitmap) (mem : Memory) (i : Nat) (small : bm.len < 2 ^ 64)
    (inside : i < bm.len) :
    (∀ undefined, bm.FreesOnly i mem (bitmapUnset undefined bm i mem)) ↔ bm.ShiftsExactly i mem := by
  have smallIndex : i < 2 ^ 64 := by omega
  constructor
  · intro frees
    by_cases defined : 32 ≤ i % 64
    · by_cases exactShift : 33 ≤ i % 64
      · exact Or.inl exactShift
      · right
        left
        refine ⟨by omega, ?_⟩
        intro j below sameWord
        have kept := (frees fun _ => 0).others j (by omega) (by omega)
        rw [bit_bitmapUnset_defined _ inside smallIndex defined (by omega)] at kept
        have extra : j = i ∨ i % 64 = 32 ∧ j / 64 = i / 64 ∧ j < i := by omega
        rw [← kept]
        simp [extra]
    · right
      right
      refine ⟨by omega, ?_⟩
      have ones : ∀ k < 64, (BitVec.ofNat 64 (intShift (fun _ => 2 ^ 64 - 1) (63 - i % 64))).getLsbD k = true := by
        intro k bound
        have above : ¬63 - i % 64 < 31 := by omega
        have above' : ¬63 - i % 64 = 31 := by omega
        rw [intShift, if_neg above, if_neg above', BitVec.getLsbD_ofNat, u64, Nat.mod_eq_of_lt (by decide),
          Nat.testBit_two_pow_sub_one]
        simp [bound]
      have zeros : BitVec.ofNat 64 (intShift (fun _ => 0) (63 - i % 64)) = 0 := by
        have above : ¬63 - i % 64 < 31 := by omega
        have above' : ¬63 - i % 64 = 31 := by omega
        rw [intShift, if_neg above, if_neg above']
        rfl
      intro j bound sameWord
      by_cases same : j = i
      · -- A shift that gives zero sets no bit.
        subst same
        have free := (frees fun _ => 0).free
        rw [bit_bitmapUnset _ inside smallIndex smallIndex, zeros] at free
        simpa using free
      · -- A shift that gives all ones sets the whole word.
        have kept := (frees fun _ => 2 ^ 64 - 1).others j bound same
        rw [bit_bitmapUnset _ inside smallIndex (by omega), ones _ (by omega)] at kept
        rw [← kept]
        simp [sameWord]
  · intro exactly undefined
    rcases exactly with exactShift | ⟨sign, earlier⟩ | ⟨undefinedShift, word⟩
    · refine ⟨?_, ?_⟩
      · rw [bit_bitmapUnset_defined _ inside smallIndex (by omega) smallIndex]
        simp
      · intro j bound different
        have apart : ¬(j = i ∨ i % 64 = 32 ∧ j / 64 = i / 64 ∧ j < i) := by omega
        rw [bit_bitmapUnset_defined _ inside smallIndex (by omega) (by omega)]
        simp [apart]
    · refine ⟨?_, ?_⟩
      · rw [bit_bitmapUnset_defined _ inside smallIndex (by omega) smallIndex]
        simp
      · intro j bound different
        rw [bit_bitmapUnset_defined _ inside smallIndex (by omega) (by omega)]
        by_cases extra : j / 64 = i / 64 ∧ j < i
        · rw [earlier j extra.2 extra.1]
          rfl
        · have apart : ¬(j = i ∨ i % 64 = 32 ∧ j / 64 = i / 64 ∧ j < i) := by tauto
          simp [apart]
    · refine ⟨?_, ?_⟩
      · rw [bit_bitmapUnset _ inside smallIndex smallIndex, word i inside rfl]
        rfl
      · intro j bound different
        rw [bit_bitmapUnset _ inside smallIndex (by omega)]
        by_cases sameWord : j / 64 = i / 64
        · rw [word j bound sameWord]
          rfl
        · simp [sameWord]

end

/-- A bitmap of one word of indices. -/
def oneWord : Bitmap := ⟨64, bitmapSizeInBlock 64, 4096⟩

/-- In a full word, the release of index 40 meets the condition. -/
theorem bitmapUnset_freesOnly_iff_behind :
    oneWord.FreesOnly 40 (fun _ => 0) (bitmapUnset (fun _ => 0) oneWord 40 fun _ => 0) :=
  (bitmapUnset_freesOnly_iff oneWord (fun _ => 0) 40 (by decide) (by decide)).mpr (Or.inl (by decide)) fun _ => 0

/-- In a full word, the release of index 32 frees index 0 as well. -/
theorem bitmapUnset_frees_first :
    ¬∃ undefined, oneWord.FreesOnly 32 (fun _ => 0) (bitmapUnset undefined oneWord 32 fun _ => 0) := by
  rintro ⟨undefined, frees⟩
  have kept := frees.others 0 (by decide) (by decide)
  rw [bit_bitmapUnset_defined undefined (by decide) (by decide) (by decide) (by decide)] at kept
  revert kept
  decide

end B0s
