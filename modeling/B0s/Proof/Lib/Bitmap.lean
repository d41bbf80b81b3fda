import B0s.Construction.Lib.Bitmap

/-
This file proves what the bitmap operations do to the bits of memory.
-/

namespace B0s
open ByteMemory

/-- The place of the bit of an index. -/
def Bitmap.place (bm : Bitmap) (j : Nat) : Nat × Nat :=
  ByteMemory.place bm.bitmap (64 * (j / 64) + (63 - j % 64))

/-- The bit of an index is set while the index is unused. -/
def Bitmap.bit (bm : Bitmap) (mem : Memory) (j : Nat) : Bool := ByteMemory.bit mem (bm.place j)

/-- The words of a bitmap cover its length and are fewer than the address space holds. -/
structure Bitmap.Fits (bm : Bitmap) : Prop where
  covers : bm.len < 64 * bm.sizeInBlock
  small : 64 * bm.sizeInBlock ≤ 2 ^ 64

/-- No index below the length is unused. -/
def Bitmap.Full (bm : Bitmap) (mem : Memory) : Prop := ∀ i < bm.len, bm.bit mem i = false

/-- No word of the bitmap has a set bit. -/
def Bitmap.Exhausted (bm : Bitmap) (mem : Memory) : Prop := ∀ i < 64 * bm.sizeInBlock, bm.bit mem i = false

theorem Bitmap.valid_place (bm : Bitmap) (j : Nat) : Valid (bm.place j) :=
  ByteMemory.valid_place _ _

theorem Bitmap.place_injective {bm : Bitmap} {j j' : Nat} (small : j < 2 ^ 64) (small' : j' < 2 ^ 64)
    (same : bm.place j = bm.place j') : j = j' := by
  have equal := ByteMemory.place_injective (by omega) (by omega) same
  omega

/-- The place of an index is a bit of its word. -/
theorem Bitmap.place_eq_word (bm : Bitmap) {i k : Nat} (small : k < 64) :
    bm.place (64 * i + (63 - k)) = ByteMemory.place (bm.word i) k := by
  have high : (64 * i + (63 - k)) / 64 = i := by omega
  have low : 63 - (64 * i + (63 - k)) % 64 = k := by omega
  rw [Bitmap.place, high, low, Bitmap.word]
  simp only [ByteMemory.place, u64, sizeofU64]
  apply Prod.ext
  · dsimp only
    omega
  · dsimp only
    omega

section
variable {bm : Bitmap} {mem : Memory}

/-- The word of an index holds its bit. -/
theorem Bitmap.getLsbD_word (i : Nat) {k : Nat} (small : k < 64) :
    (loadWord mem (bm.word i)).getLsbD k = bm.bit mem (64 * i + (63 - k)) := by
  rw [getLsbD_loadWord _ _ small, Bitmap.bit, bm.place_eq_word small]

/-- A word is zero exactly when its 64 indices are used. -/
theorem Bitmap.word_eq_zero_iff (i : Nat) :
    loadWord mem (bm.word i) = 0 ↔ ∀ j, 64 * i ≤ j → j < 64 * (i + 1) → bm.bit mem j = false := by
  constructor
  · intro zero j lower upper
    have index : 64 * i + (63 - (63 - j % 64)) = j := by omega
    have read := @Bitmap.getLsbD_word bm mem i (63 - j % 64) (by omega)
    rw [zero, index] at read
    simpa using read.symm
  · intro clear
    apply BitVec.eq_of_getLsbD_eq
    intro k small
    rw [Bitmap.getLsbD_word i small, clear _ (by omega) (by omega)]
    simp

/-- The memory differs in the bit of one index. -/
def Bitmap.Writes (bm : Bitmap) (j : Nat) (value : Bool) (mem mem' : Memory) : Prop :=
  ∀ spot, Valid spot →
    ByteMemory.bit mem' spot = if spot = bm.place j then value else ByteMemory.bit mem spot

theorem Bitmap.Writes.self {j : Nat} {value : Bool} {mem' : Memory}
    (writes : bm.Writes j value mem mem') : bm.bit mem' j = value := by
  rw [Bitmap.bit, writes _ (bm.valid_place j), if_pos rfl]

/-- Only indices with the same place see the written bit. -/
theorem Bitmap.Writes.other {j k : Nat} {value : Bool} {mem' : Memory} {bm' : Bitmap}
    (writes : bm.Writes j value mem mem') (apart : bm'.place k ≠ bm.place j) :
    bm'.bit mem' k = bm'.bit mem k := by
  rw [Bitmap.bit, writes _ (bm'.valid_place k), if_neg apart, Bitmap.bit]

/-- Clearing a bit leaves no bit set that was clear. -/
theorem Bitmap.Writes.antitone {j k : Nat} {mem' : Memory} {bm' : Bitmap}
    (writes : bm.Writes j false mem mem') (clear : bm'.bit mem k = false) :
    bm'.bit mem' k = false := by
  rw [Bitmap.bit, writes _ (bm'.valid_place k)]
  split_ifs
  · rfl
  · exact clear

/-- The leading set bit of a word is the first unused index in it. -/
theorem Bitmap.clz_word {i : Nat} (nonzero : loadWord mem (bm.word i) ≠ 0) :
    (loadWord mem (bm.word i)).clz.toNat < 64 ∧
      bm.bit mem (64 * i + (loadWord mem (bm.word i)).clz.toNat) = true ∧
      ∀ j, 64 * i ≤ j → j < 64 * i + (loadWord mem (bm.word i)).clz.toNat → bm.bit mem j = false := by
  have bound : (loadWord mem (bm.word i)).clz.toNat < 64 := by
    have less := BitVec.clz_lt_iff_ne_zero.mpr nonzero
    simpa [BitVec.lt_def] using less
  have leading := BitVec.getLsbD_true_clz_of_ne_zero (by norm_num) nonzero
  have above := @BitVec.toNat_lt_two_pow_sub_clz 64 (loadWord mem (bm.word i))
  generalize (loadWord mem (bm.word i)).clz.toNat = count at *
  refine ⟨bound, ?_, ?_⟩
  · have index : 64 * i + (63 - (64 - 1 - count)) = 64 * i + count := by omega
    rw [Bitmap.getLsbD_word i (by omega), index] at leading
    exact leading
  · intro j lower upper
    have index : 64 * i + (63 - (63 - j % 64)) = j := by omega
    have read := @Bitmap.getLsbD_word bm mem i (63 - j % 64) (by omega)
    rw [index] at read
    rw [← read, BitVec.getLsbD]
    apply Nat.testBit_lt_two_pow
    apply lt_of_lt_of_le above
    exact Nat.pow_le_pow_right (by norm_num) (by omega)

/-- Masking the leading bit of a word clears the first unused index. -/
theorem Bitmap.writes_clear (i : Nat) {count : Nat} (small : count < 64) :
    bm.Writes (64 * i + count) false mem (storeWord mem (bm.word i)
      (loadWord mem (bm.word i) &&& ~~~((1 : BitVec 64) <<< (63 - count)))) := by
  intro spot valid
  have index : 64 * i + (63 - (63 - count)) = 64 * i + count := by omega
  have named := @Bitmap.place_eq_word bm i (63 - count) (by omega)
  rw [index] at named
  rw [named]
  have one : (1 : BitVec 64) <<< (63 - count) = BitVec.twoPow 64 (63 - count) := by
    rw [BitVec.twoPow_eq]
    rfl
  apply bit_storeWord_flip (by omega) _ _ valid
  · rw [one]
    simp
  · intro other inside different
    rw [one]
    simp [inside, different]

/-- The search of a bitmap clears its first unused index or meets only zero words. -/
theorem bitmapFindAndSetFrom_spec (unassigned steps i : Nat) (small : 64 * (i + steps) ≤ 2 ^ 64) :
    ((∀ j, 64 * i ≤ j → j < 64 * (i + steps) → bm.bit mem j = false) ∧
      bitmapFindAndSetFrom bm unassigned steps i mem = (unassigned, mem)) ∨
    ∃ j mem', bitmapFindAndSetFrom bm unassigned steps i mem = (j, mem') ∧
      j < 64 * (i + steps) ∧ bm.bit mem j = true ∧
      (∀ k, 64 * i ≤ k → k < j → bm.bit mem k = false) ∧ bm.Writes j false mem mem' := by
  induction steps generalizing i with
  | zero =>
      left
      exact ⟨fun j lower upper => by omega, rfl⟩
  | succ steps ih =>
      by_cases zero : loadWord mem (bm.word i) = 0
      · have clear := (Bitmap.word_eq_zero_iff i).mp zero
        rw [bitmapFindAndSetFrom]
        simp only [if_pos zero]
        rcases ih (i + 1) (by omega) with ⟨all, result⟩ | ⟨j, mem', result, upper, set, first, writes⟩
        · left
          refine ⟨?_, result⟩
          intro j lower bound
          by_cases here : j < 64 * (i + 1)
          · exact clear j lower here
          · exact all j (by omega) (by omega)
        · right
          refine ⟨j, mem', result, by omega, set, ?_, writes⟩
          intro k lower bound
          by_cases here : k < 64 * (i + 1)
          · exact clear k lower here
          · exact first k (by omega) bound
      · right
        obtain ⟨bound, set, first⟩ := Bitmap.clz_word zero
        have index : u64 (i * 64 + (loadWord mem (bm.word i)).clz.toNat) =
            64 * i + (loadWord mem (bm.word i)).clz.toNat := by
          unfold u64
          omega
        refine ⟨64 * i + (loadWord mem (bm.word i)).clz.toNat, _, ?_, by omega, set, first,
          Bitmap.writes_clear i bound⟩
        rw [bitmapFindAndSetFrom]
        simp only [if_neg zero, index]

end

section
variable {bm : Bitmap} (mem : Memory)

/-- A call either clears the first unused index and returns it, capped at the length, or it returns
the unassigned local because no word has a set bit. -/
theorem bitmapFindAndSet_spec (fits : bm.Fits) (unassigned : Nat) :
    ((∀ j < 64 * bm.sizeInBlock, bm.bit mem j = false) ∧
      bitmapFindAndSet bm unassigned mem = (min unassigned bm.len, mem)) ∨
    ∃ j mem', bitmapFindAndSet bm unassigned mem = (min j bm.len, mem') ∧
      j < 64 * bm.sizeInBlock ∧ bm.bit mem j = true ∧ (∀ k < j, bm.bit mem k = false) ∧
      bm.Writes j false mem mem' := by
  have small : 64 * (0 + bm.sizeInBlock) ≤ 2 ^ 64 := by
    rw [Nat.zero_add]
    exact fits.small
  rcases @bitmapFindAndSetFrom_spec bm mem unassigned bm.sizeInBlock 0 small with
    ⟨all, result⟩ | ⟨j, mem', result, upper, set, first, writes⟩
  · left
    refine ⟨fun j bound => all j (by omega) (by omega), ?_⟩
    rw [bitmapFindAndSet, result]
  · right
    refine ⟨j, mem', ?_, by omega, set, fun k bound => first k (by omega) bound, writes⟩
    rw [bitmapFindAndSet, result]

/-- Where the shift is exact, unsetting an index sets its bit alone. -/
theorem bitmapUnset_writes (undefined : Nat → Nat) {j : Nat} (inside : j < bm.len)
    (exactShift : 33 ≤ j % 64) : bm.Writes j true mem (bitmapUnset undefined bm j mem) := by
  intro spot valid
  have low : 63 - j % 64 < 31 := by omega
  have index : 64 * (j / 64) + (63 - (63 - j % 64)) = j := by omega
  have named := @Bitmap.place_eq_word bm (j / 64) (63 - j % 64) (by omega)
  rw [index] at named
  have shift : BitVec.ofNat 64 (intShift undefined (63 - j % 64)) =
      BitVec.twoPow 64 (63 - j % 64) := by
    rw [intShift, if_pos low]
    apply BitVec.eq_of_toNat_eq
    rw [BitVec.toNat_ofNat, BitVec.toNat_twoPow]
  rw [named, bitmapUnset, if_neg (Nat.not_le.mpr inside)]
  dsimp only
  apply bit_storeWord_flip (by omega) _ _ valid
  · have width : 63 - j % 64 < 64 := by omega
    rw [shift]
    simp [width]
  · intro other bound different
    rw [shift]
    simp [BitVec.getLsbD_twoPow, Ne.symm different]

end

end B0s
