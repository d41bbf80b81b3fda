import B0s.Proof.Lib.Bitmap

/-
This file proves that `bitmap_find_and_set` hands out the indices of a bitmap in growing order.
-/

namespace B0s
open ByteMemory

/-- The initialisers give a bitmap of `len` indices the words that the macro counts. -/
structure Bitmap.Sized (bm : Bitmap) : Prop where
  blocks : bm.sizeInBlock = bitmapSizeInBlock bm.len
  small : bm.len < 2 ^ 64

/-- The words hold every index and at least one spare bit behind them. -/
theorem Bitmap.Sized.fits {bm : Bitmap} (sized : bm.Sized) : bm.Fits := by
  have small := sized.small
  refine ⟨?_, ?_⟩
  · rw [sized.blocks, bitmapSizeInBlock]
    omega
  · rw [sized.blocks, bitmapSizeInBlock]
    omega

/-- The call takes one index and changes no other bit of memory. -/
structure Bitmap.TakesLeast (bm : Bitmap) (mem : Memory) (j : Nat) (mem' : Memory) : Prop where
  inside : j < bm.len
  free : bm.bit mem j = true
  least : ∀ k < j, bm.bit mem k = false
  writes : bm.Writes j false mem mem'

/-- A call on a bitmap with a free index takes the least one, whatever its unassigned local holds. -/
theorem bitmapFindAndSet_takesLeast {bm : Bitmap} {mem : Memory} (fits : bm.Fits) (unassigned : Nat)
    (free : ∃ j < bm.len, bm.bit mem j = true) :
    ∃ j mem', bitmapFindAndSet bm unassigned mem = (j, mem') ∧ bm.TakesLeast mem j mem' := by
  obtain ⟨i, inside, set⟩ := free
  rcases bitmapFindAndSet_spec mem fits unassigned with ⟨none, -⟩ | ⟨j, mem', found, -, setJ, first, writes⟩
  · have covers := fits.covers
    have clear := none i (by omega)
    rw [set] at clear
    cases clear
  · have below : j ≤ i := by
      by_contra above
      have clear := first i (by omega)
      rw [set] at clear
      cases clear
    have capped : min j bm.len = j := Nat.min_eq_left (by omega)
    rw [capped] at found
    exact ⟨j, mem', found, by omega, setJ, first, writes⟩

/-- A bitmap with the indices from `next` on free, and its spare bits with them. -/
structure Bitmap.FreeFrom (bm : Bitmap) (next : Nat) (mem : Memory) : Prop where
  taken : ∀ j < next, bm.bit mem j = false
  free : ∀ j < 64 * bm.sizeInBlock, next ≤ j → bm.bit mem j = true

/-- The initialisation frees all indices. -/
theorem bitmapInit_freeFrom (len ptr : Nat) (mem : Memory) (small : len < 2 ^ 64) :
    (bitmapInit len ptr mem).1.Sized ∧ (bitmapInit len ptr mem).1.len = len ∧
      (bitmapInit len ptr mem).1.FreeFrom 0 (bitmapInit len ptr mem).2.2 := by
  have ones : (0xff : BitVec 8) = BitVec.allOnes 8 := by decide
  have bytes : u64 (bitmapSizeInBlock len * sizeofU64) = bitmapSizeInBlock len * sizeofU64 := by
    apply Nat.mod_eq_of_lt
    unfold bitmapSizeInBlock sizeofU64
    omega
  refine ⟨⟨rfl, small⟩, rfl, ⟨fun j below => absurd below (Nat.not_lt_zero j), ?_⟩⟩
  intro j inside _
  have inside' : j < 64 * bitmapSizeInBlock len := inside
  simp only [bitmapInit, memset]
  rw [bytes, ones]
  apply bit_fill_place
  · unfold sizeofU64
    omega
  · unfold bitmapSizeInBlock sizeofU64
    omega

/-- A call takes the next index, and behind the last one it takes a spare bit and returns the length. -/
theorem Bitmap.FreeFrom.find {bm : Bitmap} {next : Nat} {mem : Memory} (freeFrom : bm.FreeFrom next mem)
    (fits : bm.Fits) (inside : next ≤ bm.len) (unassigned : Nat) :
    ∃ mem', bitmapFindAndSet bm unassigned mem = (next, mem') ∧ bm.FreeFrom (next + 1) mem' := by
  have covers := fits.covers
  have small := fits.small
  have here := freeFrom.free next (by omega) le_rfl
  rcases bitmapFindAndSet_spec mem fits unassigned with ⟨none, -⟩ | ⟨j, mem', found, bound, set, first, writes⟩
  · rw [none next (by omega)] at here
    cases here
  · obtain rfl : j = next := by
      rcases Nat.lt_trichotomy j next with below | same | above
      · rw [freeFrom.taken j below] at set
        cases set
      · exact same
      · rw [first next above] at here
        cases here
    have capped : min j bm.len = j := Nat.min_eq_left inside
    rw [capped] at found
    refine ⟨mem', found, ?_, ?_⟩
    · intro k below
      by_cases same : k = j
      · rw [same]
        exact writes.self
      · exact writes.antitone (freeFrom.taken k (by omega))
    · intro k bound' above
      have apart : bm.place k ≠ bm.place j := by
        intro same
        have equal := Bitmap.place_injective (by omega) (by omega) same
        omega
      rw [writes.other apart]
      exact freeFrom.free k bound' (by omega)

/-- Successive calls on one bitmap, each with the value of its unassigned local. -/
def bitmapFindAndSetAll (bm : Bitmap) : List Nat → Memory → List Nat × Memory
  | [], mem => ([], mem)
  | unassigned :: rest, mem =>
      let (index, mem) := bitmapFindAndSet bm unassigned mem
      let (indices, mem) := bitmapFindAndSetAll bm rest mem
      (index :: indices, mem)

/-- Successive calls count up from the first free index to the length. -/
theorem Bitmap.FreeFrom.findAll {bm : Bitmap} {next : Nat} {mem : Memory} {locals : List Nat}
    (freeFrom : bm.FreeFrom next mem) (fits : bm.Fits) (inside : next + locals.length ≤ bm.len + 1) :
    (bitmapFindAndSetAll bm locals mem).1 = List.range' next locals.length := by
  induction locals generalizing next mem with
  | nil => rfl
  | cons unassigned rest ih =>
      rw [List.length_cons] at inside
      obtain ⟨mem', found, later⟩ := freeFrom.find fits (by omega) unassigned
      have counted := ih later (by omega)
      rw [bitmapFindAndSetAll, found, List.length_cons, List.range'_succ]
      dsimp only
      rw [counted]

/-- A call on a bitmap with a free index takes the least one, and after the initialisation the calls
return all indices in growing order and then the length. -/
theorem bitmapFindAndSet_growing :
    (∀ (bm : Bitmap) (mem : Memory) (unassigned : Nat), bm.Sized →
      (∃ j < bm.len, bm.bit mem j = true) →
      ∃ j mem', bitmapFindAndSet bm unassigned mem = (j, mem') ∧ bm.TakesLeast mem j mem') ∧
    ∀ (len ptr : Nat) (mem : Memory) (locals : List Nat), len < 2 ^ 64 → locals.length = len + 1 →
      (bitmapFindAndSetAll (bitmapInit len ptr mem).1 locals (bitmapInit len ptr mem).2.2).1 =
        List.range len ++ [len] := by
  constructor
  · intro bm mem unassigned sized free
    exact bitmapFindAndSet_takesLeast sized.fits unassigned free
  · intro len ptr mem locals small count
    obtain ⟨sized, same, freeFrom⟩ := bitmapInit_freeFrom len ptr mem small
    rw [freeFrom.findAll sized.fits (by omega), count, ← List.range_eq_range', List.range_succ]

/-- Two calls on a fresh bitmap of one index return it and then the length, and a call on a bitmap
whose index 3 alone is free returns 3. -/
theorem bitmapFindAndSet_growing_small :
    (bitmapFindAndSetAll (bitmapInit 1 4096 fun _ => 0).1 [7, 9] (bitmapInit 1 4096 fun _ => 0).2.2).1 = [0, 1] ∧
    ∃ j mem', bitmapFindAndSet ⟨64, 2, 4096⟩ 5 (fun addr => if addr = 4103 then 0x10 else 0) = (j, mem') ∧
      Bitmap.TakesLeast ⟨64, 2, 4096⟩ (fun addr => if addr = 4103 then 0x10 else 0) j mem' :=
  ⟨bitmapFindAndSet_growing.2 1 4096 (fun _ => 0) [7, 9] (by decide) rfl,
    bitmapFindAndSet_growing.1 ⟨64, 2, 4096⟩ _ 5 ⟨rfl, by decide⟩ ⟨3, by decide, by decide⟩⟩

end B0s
