import B0s.Library.Runs
import B0s.Proof.Lib.Bitmap
import B0s.Construction.Lib.BitmapStatic

/-
This file settles for which stale contents a bitmap with inline words keeps to its own words.
-/

namespace B0s
open ByteMemory

/-- All bytes of an access belong to an object. -/
def Access.Inside (base size : Nat) (access : Access) : Prop :=
  ∀ offset < access.size, base ≤ u64 (access.addr + offset) ∧ u64 (access.addr + offset) < base + size

/-- An object that `BITMAP_STATIC` declares lies at an aligned address. -/
structure StaticObject (bm len : Nat) : Prop where
  nonnull : bm ≠ NULL
  aligned : bm % sizeofU64 = 0
  room : bm + sizeofBitmapStatic len ≤ 2 ^ 64

/-- A call through the cast leaves this memory. -/
def BitmapCall.Steps (undefined : Nat → Nat) (bm : Nat) (call : BitmapCall) (mem mem' : Memory) : Prop :=
  call.run undefined bm mem = mem'

/-- A call through the cast keeps to the words of the object. -/
def BitmapCall.Safe (bm len : Nat) (call : BitmapCall) (mem : Memory) : Prop :=
  ∀ access ∈ call.accesses bm mem, access.Inside bm (sizeofBitmapStatic len)

/-- The initialisation and all later calls keep to the words of the object, and after the initialisation all indices
are free in the words of the object and in the words that the cast reads. -/
structure StaticSafe (undefined : Nat → Nat) (bm len : Nat) (mem : Memory) : Prop where
  init : ∀ access ∈ bitmapInitStaticAccesses bm len mem, access.Inside bm (sizeofBitmapStatic len)
  free : ∀ i < len, Bitmap.bit ⟨len, bitmapSizeInBlock len, bitmapStaticWords bm⟩ (bitmapInitStatic bm len mem) i = true
  cast : ∀ i < len, (Bitmap.load bm (bitmapInitStatic bm len mem)).bit (bitmapInitStatic bm len mem) i = true
  calls : ∀ calls, Runs.Along (BitmapCall.Steps undefined bm) (BitmapCall.Safe bm len) calls (bitmapInitStatic bm len mem)

/-- The object has one word. What it held names the field in front of it, and the highest bits of this address are
set for all indices. -/
structure StalePointerFits (bm len : Nat) (mem : Memory) : Prop where
  oneWord : len < 64
  pointer : (loadWord mem (bitmapStaticWords bm)).toNat = bm + 8
  ones : ∀ i < len, (bm + 8).testBit (63 - i) = true

section
variable {undefined : Nat → Nat} {bm len : Nat} {mem : Memory}

/-- An access of a word of the object starts at most one word before its end. -/
theorem Access.Inside.bounds {access : Access} {size : Nat} (inside : access.Inside bm size) (nonnull : bm ≠ NULL)
    (nonempty : 0 < access.size) (word : access.addr < 2 ^ 64) :
    bm ≤ access.addr ∧ access.addr + access.size ≤ bm + size := by
  have first := inside 0 nonempty
  have last := inside (access.size - 1) (by omega)
  have wraps : access.addr + access.size ≤ 2 ^ 64 := by
    by_contra beyond
    -- the access would reach the null pointer
    have null := (inside (2 ^ 64 - access.addr) (by omega)).1
    unfold u64 at null
    unfold NULL at nonnull
    omega
  unfold u64 at first last
  omega

theorem Access.inside_of_bounds {access : Access} {size : Nat} (lower : bm ≤ access.addr)
    (upper : access.addr + access.size ≤ bm + size) (room : bm + size ≤ 2 ^ 64) : access.Inside bm size := by
  intro offset small
  unfold u64
  omega

/-- A fill with ones sets the bits of its bytes and no other ones. -/
theorem getLsbD_loadWord_memset (ptr size base : Nat) {index : Nat} (small : index < 64) :
    (loadWord (memset ptr 0xff size mem) base).getLsbD index =
      (decide (distance ptr ((base + index / 8) % 2 ^ 64) < size) || (loadWord mem base).getLsbD index) := by
  have ones : (0xff : BitVec 8) = BitVec.allOnes 8 := by decide
  have low : index % 8 < 8 := by omega
  rw [getLsbD_loadWord _ _ small, getLsbD_loadWord _ _ small, ByteMemory.bit, ByteMemory.bit, memset, fill, ones,
    ByteMemory.place]
  dsimp only
  split_ifs with inside
  · rw [BitVec.getLsbD_allOnes, decide_eq_true low, decide_eq_true inside, Bool.true_or]
  · rw [decide_eq_false inside, Bool.false_or]

/-- A loop over some words reads the first one. -/
theorem Bitmap.mem_scanned (fields : Bitmap) {steps : Nat} (nonempty : steps ≠ 0) :
    ⟨fields.word 0, sizeofU64⟩ ∈ fields.scanned steps 0 mem := by
  cases steps with
  | zero => exact absurd rfl nonempty
  | succ steps =>
      rw [Bitmap.scanned]
      split_ifs
      · exact List.mem_cons_self
      · exact List.mem_cons_self

/-- The memory before the initialisation fills the words. -/
def bitmapStaticHead (bm len : Nat) (mem : Memory) : Memory :=
  storeWord (storeWord mem bm (BitVec.ofNat 64 len)) (bm + 8) (BitVec.ofNat 64 (bitmapSizeInBlock len))

theorem StaticObject.head_len (object : StaticObject bm len) :
    loadWord (bitmapStaticHead bm len mem) bm = BitVec.ofNat 64 len := by
  have room := object.room
  unfold sizeofBitmapStatic at room
  rw [bitmapStaticHead, loadWord_storeWord_apart _ _ (by omega) (by omega) (by omega), loadWord_storeWord]

theorem StaticObject.head_pointer (object : StaticObject bm len) :
    loadWord (bitmapStaticHead bm len mem) (bm + 16) = loadWord mem (bm + 16) := by
  have room := object.room
  unfold sizeofBitmapStatic bitmapSizeInBlock sizeofU64 at room
  rw [bitmapStaticHead, loadWord_storeWord_apart _ _ (by omega) (by omega) (by omega),
    loadWord_storeWord_apart _ _ (by omega) (by omega) (by omega)]

/-- The initialisation fills as many words as the object has from the stale pointer on. -/
theorem StaticObject.init_eq (object : StaticObject bm len) : bitmapInitStatic bm len mem =
    memset (loadWord mem (bm + 16)).toNat 0xff (bitmapSizeInBlock len * sizeofU64) (bitmapStaticHead bm len mem) := by
  have room := object.room
  unfold sizeofBitmapStatic at room
  have size : (BitVec.ofNat 64 (bitmapSizeInBlock len)).toNat = bitmapSizeInBlock len := by
    rw [BitVec.toNat_ofNat]
    apply Nat.mod_eq_of_lt
    unfold sizeofU64 at room
    omega
  have bytes : u64 (bitmapSizeInBlock len * sizeofU64) = bitmapSizeInBlock len * sizeofU64 := Nat.mod_eq_of_lt (by omega)
  have words : loadWord (bitmapStaticHead bm len mem) (bm + 8) = BitVec.ofNat 64 (bitmapSizeInBlock len) :=
    loadWord_storeWord _ _ _
  rw [← object.head_pointer, ← bytes]
  show memset _ _ (u64 ((loadWord (bitmapStaticHead bm len mem) (bm + 8)).toNat * sizeofU64)) _ = _
  rw [words, size]
  rfl

/-- Behind the initialisation a word holds its earlier bits and those that the fill set. -/
theorem StaticObject.getLsbD_init (object : StaticObject bm len) (base : Nat) {index : Nat} (small : index < 64) :
    (loadWord (bitmapInitStatic bm len mem) base).getLsbD index =
      (decide (distance (loadWord mem (bm + 16)).toNat ((base + index / 8) % 2 ^ 64) < bitmapSizeInBlock len * sizeofU64) ||
        (loadWord (bitmapStaticHead bm len mem) base).getLsbD index) := by
  rw [object.init_eq, getLsbD_loadWord_memset _ _ _ small]

/-- The fill returns exactly when the words behind the pointer are mapped. -/
theorem StaticObject.initMapped_eq (object : StaticObject bm len) (tables : Translation) :
    bitmapInitStaticMapped tables bm len mem =
      if Translates tables (loadWord mem (bm + 16)).toNat (bitmapSizeInBlock len * sizeofU64) then
        .ok (bitmapInitStatic bm len mem)
      else .error (.panic .pageFault) := by
  have room := object.room
  unfold sizeofBitmapStatic at room
  have size : (BitVec.ofNat 64 (bitmapSizeInBlock len)).toNat = bitmapSizeInBlock len := by
    rw [BitVec.toNat_ofNat]
    apply Nat.mod_eq_of_lt
    unfold sizeofU64 at room
    omega
  have words : loadWord (bitmapStaticHead bm len mem) (bm + 8) = BitVec.ofNat 64 (bitmapSizeInBlock len) :=
    loadWord_storeWord _ _ _
  have bytes : u64 ((Bitmap.load bm (bitmapStaticHead bm len mem)).sizeInBlock * sizeofU64) =
      bitmapSizeInBlock len * sizeofU64 := by
    rw [Bitmap.load, words, size]
    exact Nat.mod_eq_of_lt (show bitmapSizeInBlock len * sizeofU64 < 2 ^ 64 by omega)
  have pointer : (Bitmap.load bm (bitmapStaticHead bm len mem)).bitmap = (loadWord mem (bm + 16)).toNat :=
    congrArg BitVec.toNat object.head_pointer
  rw [← pointer, ← bytes]
  rfl

/-- The number of words never becomes zero in the initialisation. -/
theorem StaticObject.size_ne_zero (object : StaticObject bm len) :
    (Bitmap.load bm (bitmapInitStatic bm len mem)).sizeInBlock ≠ 0 := by
  intro zero
  have room := object.room
  unfold sizeofBitmapStatic sizeofU64 at room
  have empty : loadWord (bitmapInitStatic bm len mem) (bm + 8) = 0 := BitVec.eq_of_toNat_eq zero
  have words : loadWord (bitmapStaticHead bm len mem) (bm + 8) = BitVec.ofNat 64 (bitmapSizeInBlock len) :=
    loadWord_storeWord _ _ _
  have none : BitVec.ofNat 64 (bitmapSizeInBlock len) = 0 := by
    apply BitVec.eq_of_getLsbD_eq
    intro index small
    have bits := @StaticObject.getLsbD_init bm len mem object (bm + 8) index small
    rw [empty, words] at bits
    cases set : (BitVec.ofNat 64 (bitmapSizeInBlock len)).getLsbD index with
    | false => simp
    | true => simp [set] at bits
  have value := congrArg BitVec.toNat none
  rw [BitVec.toNat_ofNat, Nat.mod_eq_of_lt (by omega)] at value
  simp [bitmapSizeInBlock] at value

/-- The fill of a safe initialisation starts in the fields or at the first word. -/
theorem StaticSafe.pointer_bounds (safe : StaticSafe undefined bm len mem) (object : StaticObject bm len) :
    bm ≤ (loadWord mem (bm + 16)).toNat ∧ (loadWord mem (bm + 16)).toNat ≤ bm + 16 := by
  have listed : ⟨(Bitmap.load bm mem).bitmap, bitmapSizeInBlock len * sizeofU64⟩ ∈ bitmapInitStaticAccesses bm len mem := by
    simp [bitmapInitStaticAccesses]
  have positive : 0 < bitmapSizeInBlock len * sizeofU64 := by
    unfold bitmapSizeInBlock sizeofU64
    omega
  have bounds := (safe.init _ listed).bounds object.nonnull positive (BitVec.isLt _)
  unfold sizeofBitmapStatic at bounds
  simp only [Bitmap.load] at bounds
  omega

/-- The first word that a search reads through the cast lies in the object. -/
theorem BitmapCall.Safe.find_bounds {unassigned : Nat} (safe : (BitmapCall.findAndSet unassigned).Safe bm len mem)
    (object : StaticObject bm len) (nonempty : (Bitmap.load bm mem).sizeInBlock ≠ 0) :
    bm ≤ (loadWord mem (bm + 16)).toNat ∧ (loadWord mem (bm + 16)).toNat + 8 ≤ bm + sizeofBitmapStatic len := by
  have first : (Bitmap.load bm mem).word 0 = (loadWord mem (bm + 16)).toNat := by
    rw [Bitmap.word, Nat.zero_mul, Nat.add_zero, u64]
    exact Nat.mod_eq_of_lt (BitVec.isLt _)
  have listed : ⟨(Bitmap.load bm mem).word 0, sizeofU64⟩ ∈ (BitmapCall.findAndSet unassigned).accesses bm mem := by
    simp only [BitmapCall.accesses, List.mem_append]
    exact Or.inr (Bitmap.mem_scanned _ nonempty)
  have positive : 0 < sizeofU64 := by decide
  rw [first] at listed
  exact (safe _ listed).bounds object.nonnull positive (BitVec.isLt _)

/-- An index of the first inline word is a bit of the word where the cast reads its pointer. -/
theorem bit_inline {i : Nat} (small : i < 64) :
    Bitmap.bit ⟨len, bitmapSizeInBlock len, bitmapStaticWords bm⟩ mem i = (loadWord mem (bm + 16)).getLsbD (63 - i) := by
  have index : 64 * 0 + (63 - (63 - i)) = i := by omega
  have read := @Bitmap.getLsbD_word ⟨len, bitmapSizeInBlock len, bitmapStaticWords bm⟩ mem 0 (63 - i) (by omega)
  have word : Bitmap.word ⟨len, bitmapSizeInBlock len, bitmapStaticWords bm⟩ 0 = (bm + 16) % 2 ^ 64 := rfl
  have reduced : loadWord mem ((bm + 16) % 2 ^ 64) = loadWord mem (bm + 16) := by
    apply BitVec.eq_of_getLsbD_eq
    intro index small
    rw [getLsbD_loadWord _ _ small, getLsbD_loadWord _ _ small, ByteMemory.place, ByteMemory.place, Nat.mod_add_mod]
  rw [index, word, reduced] at read
  exact read.symm

/-- A free index below the word size has its bit set in the word where the cast reads its pointer. -/
theorem StaticSafe.pointer_bit (safe : StaticSafe undefined bm len mem) {i : Nat} (inside : i < len) (small : i < 64) :
    (loadWord (bitmapInitStatic bm len mem) (bm + 16)).getLsbD (63 - i) = true := by
  rw [← bit_inline small]
  exact safe.free i inside

/-- The first search through the cast lies in the object. -/
theorem StaticSafe.first_find (safe : StaticSafe undefined bm len mem) (object : StaticObject bm len) :
    bm ≤ (loadWord (bitmapInitStatic bm len mem) (bm + 16)).toNat ∧
      (loadWord (bitmapInitStatic bm len mem) (bm + 16)).toNat + 8 ≤ bm + sizeofBitmapStatic len :=
  BitmapCall.Safe.find_bounds (safe.calls [.findAndSet 0]).1 object object.size_ne_zero

/-- With more than one word the pointer is filled with ones, and the search reaches the null pointer. -/
theorem StaticSafe.oneWord (safe : StaticSafe undefined bm len mem) (object : StaticObject bm len) : len < 64 := by
  by_contra long
  have ones : loadWord (bitmapInitStatic bm len mem) (bm + 16) = BitVec.allOnes 64 := by
    apply BitVec.eq_of_getLsbD_eq
    intro index small
    have set := safe.pointer_bit (show 63 - index < len by omega) (by omega)
    have position : 63 - (63 - index) = index := by omega
    rw [position] at set
    rw [set, BitVec.getLsbD_allOnes, decide_eq_true small]
  have found := (safe.first_find object).2
  have room := object.room
  rw [ones, BitVec.toNat_allOnes] at found
  omega

/-- A fill that covers the length makes it larger than the object. -/
theorem StaticSafe.behind_length (safe : StaticSafe undefined bm len mem) (object : StaticObject bm len) :
    bm + 8 ≤ (loadWord mem (bm + 16)).toNat := by
  by_contra before
  obtain ⟨lower, -⟩ := safe.pointer_bounds object
  have short := safe.oneWord object
  have room := object.room
  have size : bitmapSizeInBlock len = 1 := by
    unfold bitmapSizeInBlock
    omega
  unfold sizeofBitmapStatic sizeofU64 at room
  rw [size] at room
  have long : 2 ^ 63 ≤ (loadWord (bitmapInitStatic bm len mem) bm).toNat := by
    apply Nat.ge_two_pow_of_testBit
    have bit := @StaticObject.getLsbD_init bm len mem object bm 63 (by omega)
    have near : distance (loadWord mem (bm + 16)).toNat ((bm + 63 / 8) % 2 ^ 64) <
        bitmapSizeInBlock len * sizeofU64 := by
      rw [size]
      unfold distance sizeofU64
      omega
    rw [decide_eq_true near, Bool.true_or] at bit
    exact bit
  have pointer : loadWord (bitmapInitStatic bm len mem) (bm + 16) = loadWord mem (bm + 16) := by
    apply BitVec.eq_of_getLsbD_eq
    intro index small
    have far : ¬distance (loadWord mem (bm + 16)).toNat ((bm + 16 + index / 8) % 2 ^ 64) <
        bitmapSizeInBlock len * sizeofU64 := by
      rw [size]
      unfold distance sizeofU64
      omega
    rw [object.getLsbD_init _ small, decide_eq_false far, Bool.false_or, object.head_pointer]
  -- index 256 has its word behind the object
  have listed : ⟨(Bitmap.load bm (bitmapInitStatic bm len mem)).word 4, sizeofU64⟩ ∈
      (BitmapCall.unset 256).accesses bm (bitmapInitStatic bm len mem) := by
    have inside : ¬256 ≥ (Bitmap.load bm (bitmapInitStatic bm len mem)).len := by
      simp only [Bitmap.load]
      omega
    simp only [BitmapCall.accesses, if_neg inside, List.mem_append]
    exact Or.inr List.mem_cons_self
  have positive : 0 < sizeofU64 := by decide
  have bounds := ((safe.calls [.unset 256]).1 _ listed) 0 positive
  simp only [Bitmap.word, Bitmap.load, pointer] at bounds
  unfold sizeofBitmapStatic sizeofU64 u64 at bounds
  rw [size] at bounds
  omega

/-- Clearing a set bit subtracts its power. -/
theorem toNat_of_cleared {before after : BitVec 64} {index : Nat} (small : index < 64) (set : before.getLsbD index = true)
    (clear : after.getLsbD index = false) (others : ∀ other < 64, other ≠ index → after.getLsbD other = before.getLsbD other) :
    before.toNat = (after.toNat + 2 ^ index) % 2 ^ 64 := by
  have apart : after &&& BitVec.twoPow 64 index = 0 := by
    apply BitVec.eq_of_getLsbD_eq
    intro other bound
    by_cases same : other = index
    · simp [same, clear]
    · simp [BitVec.getLsbD_twoPow, Ne.symm same]
  have joined : before = after ||| BitVec.twoPow 64 index := by
    apply BitVec.eq_of_getLsbD_eq
    intro other bound
    by_cases same : other = index
    · simp [same, set, small]
    · simp [BitVec.getLsbD_twoPow, Ne.symm same, others other bound same]
  have sum := BitVec.add_eq_or_of_and_eq_zero _ _ apart
  have value : (2 : Nat) ^ index % 2 ^ 64 = 2 ^ index := Nat.mod_eq_of_lt (Nat.pow_lt_pow_right (by norm_num) small)
  rw [joined, ← sum, BitVec.toNat_add, BitVec.toNat_twoPow, value]

/-- Behind the length, a fill that reaches the pointer moves it to the last byte of the field in front of it. -/
theorem StaticSafe.moved_pointer (safe : StaticSafe undefined bm len mem) (object : StaticObject bm len)
    (reaches : bm + 8 < (loadWord mem (bm + 16)).toNat) :
    (loadWord (bitmapInitStatic bm len mem) (bm + 16)).toNat = bm + 15 ∧ (loadWord mem (bm + 16)).toNat < bm + 16 := by
  have short := safe.oneWord object
  have room := object.room
  have aligned := object.aligned
  have size : bitmapSizeInBlock len = 1 := by
    unfold bitmapSizeInBlock
    omega
  have upper := (safe.pointer_bounds object).2
  have found := safe.first_find object
  unfold sizeofBitmapStatic at room found
  rw [size] at room found
  unfold sizeofU64 at room aligned found
  have filled : ∀ index < 64, 16 + index / 8 < (loadWord mem (bm + 16)).toNat - bm + 8 →
      (loadWord (bitmapInitStatic bm len mem) (bm + 16)).getLsbD index = true := by
    intro index small inside
    have near : distance (loadWord mem (bm + 16)).toNat ((bm + 16 + index / 8) % 2 ^ 64) <
        bitmapSizeInBlock len * sizeofU64 := by
      rw [size]
      unfold distance sizeofU64
      omega
    rw [object.getLsbD_init _ small, decide_eq_true near, Bool.true_or]
  have grows : (loadWord mem (bm + 16)).toNat ≤ (loadWord (bitmapInitStatic bm len mem) (bm + 16)).toNat := by
    have joined : loadWord mem (bm + 16) ||| loadWord (bitmapInitStatic bm len mem) (bm + 16) =
        loadWord (bitmapInitStatic bm len mem) (bm + 16) := by
      apply BitVec.eq_of_getLsbD_eq
      intro index small
      rw [BitVec.getLsbD_or, object.getLsbD_init _ small, object.head_pointer]
      cases (loadWord mem (bm + 16)).getLsbD index <;> simp
    have numbers := congrArg BitVec.toNat joined
    rw [BitVec.toNat_or] at numbers
    rw [← numbers]
    exact Nat.left_le_or
  have lowByte : (loadWord (bitmapInitStatic bm len mem) (bm + 16)).toNat % 2 ^ 8 = 2 ^ 8 - 1 := by
    apply Nat.eq_of_testBit_eq
    intro index
    rw [Nat.testBit_mod_two_pow, Nat.testBit_two_pow_sub_one]
    by_cases low : index < 8
    · have set := filled index (by omega) (by omega)
      rw [BitVec.getLsbD] at set
      rw [set, Bool.and_true]
    · simp [low]
  have value : (loadWord (bitmapInitStatic bm len mem) (bm + 16)).toNat = bm + 15 := by omega
  refine ⟨value, ?_⟩
  by_contra atPointer
  have ones : loadWord (bitmapInitStatic bm len mem) (bm + 16) = BitVec.allOnes 64 := by
    apply BitVec.eq_of_getLsbD_eq
    intro index small
    rw [filled index small (by omega), BitVec.getLsbD_allOnes, decide_eq_true small]
  rw [ones, BitVec.toNat_allOnes] at value
  omega

/-- A search whose first word is not zero clears the leading bit of this word. -/
theorem bitmapFindAndSetIn_first (nonempty : (Bitmap.load bm mem).sizeInBlock ≠ 0)
    (nonzero : loadWord mem ((Bitmap.load bm mem).word 0) ≠ 0) :
    ∃ count < 64, (Bitmap.load bm mem).bit mem count = true ∧ (∀ j < count, (Bitmap.load bm mem).bit mem j = false) ∧
      ∀ unassigned, (Bitmap.load bm mem).Writes count false mem (bitmapFindAndSetIn bm unassigned mem).2 := by
  obtain ⟨bound, set, first⟩ := Bitmap.clz_word nonzero
  have writes := @Bitmap.writes_clear (Bitmap.load bm mem) mem 0 _ bound
  rw [Nat.mul_zero, Nat.zero_add] at set writes
  refine ⟨_, bound, set, fun j before => first j (Nat.zero_le _) (by omega), fun unassigned => ?_⟩
  obtain ⟨steps, count⟩ := Nat.exists_eq_succ_of_ne_zero nonempty
  have ran : (bitmapFindAndSetIn bm unassigned mem).2 = storeWord mem ((Bitmap.load bm mem).word 0)
      (loadWord mem ((Bitmap.load bm mem).word 0) &&&
        ~~~((1 : BitVec 64) <<< (63 - (loadWord mem ((Bitmap.load bm mem).word 0)).clz.toNat))) := by
    simp only [bitmapFindAndSetIn, count, Nat.succ_eq_add_one, bitmapFindAndSetFrom, if_neg nonzero]
  rw [ran]
  exact writes

/-- A pointer to the last byte in front of it lies in the word that the first search changes, and the second search
leaves the object. -/
theorem second_find_escapes (object : StaticObject bm len) (short : len < 64)
    (pointer : (loadWord mem (bm + 16)).toNat = bm + 15)
    (ones : ∀ index < 16, (loadWord mem (bm + 15)).getLsbD index = true)
    (safe : Runs.Along (BitmapCall.Steps undefined bm) (BitmapCall.Safe bm len) [.findAndSet 0, .findAndSet 0] mem) :
    False := by
  have size : bitmapSizeInBlock len = 1 := by
    unfold bitmapSizeInBlock
    omega
  have room := object.room
  unfold sizeofBitmapStatic sizeofU64 at room
  rw [size] at room
  have word : (Bitmap.load bm mem).word 0 = bm + 15 := by
    have reduced : (bm + 15) % 2 ^ 64 = bm + 15 := Nat.mod_eq_of_lt (by omega)
    simp only [Bitmap.word, Bitmap.load, pointer, Nat.zero_mul, Nat.add_zero, u64, reduced]
  have fieldBit : ∀ mem : Memory, (loadWord mem (bm + 8)).getLsbD 63 = ByteMemory.bit mem (bm + 15, 7) := by
    intro mem
    have reduced : (bm + 8 + 63 / 8) % 2 ^ 64 = bm + 15 := Nat.mod_eq_of_lt (by omega)
    rw [getLsbD_loadWord _ _ (by omega), ByteMemory.place, reduced]
  have top : ByteMemory.bit mem (bm + 15, 7) = true := by
    have set := ones 7 (by omega)
    have reduced : (bm + 15 + 7 / 8) % 2 ^ 64 = bm + 15 := Nat.mod_eq_of_lt (by omega)
    rw [getLsbD_loadWord _ _ (by omega), ByteMemory.place, reduced] at set
    exact set
  have nonempty : ∀ mem : Memory, ByteMemory.bit mem (bm + 15, 7) = true → (Bitmap.load bm mem).sizeInBlock ≠ 0 := by
    intro mem set zero
    have empty : loadWord mem (bm + 8) = 0 := BitVec.eq_of_toNat_eq zero
    rw [← fieldBit, empty] at set
    simp at set
  have nonzero : loadWord mem ((Bitmap.load bm mem).word 0) ≠ 0 := by
    intro zero
    have set := ones 0 (by omega)
    rw [← word, zero] at set
    simp at set
  obtain ⟨count, bound, set, first, writes⟩ := bitmapFindAndSetIn_first (nonempty mem top) nonzero
  have later := writes 0
  have second := (safe.2 _ rfl).1
  simp only [BitmapCall.run] at second
  generalize (bitmapFindAndSetIn bm 0 mem).2 = mem' at later second
  -- the leading bit lies in the pointer, above its low byte
  have high : count ≤ 48 := by
    by_contra low
    have clear := first 48 (by omega)
    have index : 64 * 0 + (63 - 15) = 48 := by omega
    have read := @Bitmap.getLsbD_word (Bitmap.load bm mem) mem 0 15 (by omega)
    rw [word, index, clear, ones 15 (by omega)] at read
    cases read
  have index : 64 * 0 + (63 - (63 - count)) = count := by omega
  have place := @Bitmap.place_eq_word (Bitmap.load bm mem) 0 (63 - count) (by omega)
  rw [index, word] at place
  have kept : ByteMemory.bit mem' (bm + 15, 7) = true := by
    rw [later (bm + 15, 7) ⟨by omega, by omega⟩, place, if_neg]
    · exact top
    · simp only [ByteMemory.place, Prod.mk.injEq]
      omega
  obtain ⟨lower, upper⟩ := second.find_bounds object (nonempty mem' kept)
  unfold sizeofBitmapStatic sizeofU64 at upper
  rw [size] at upper
  have pointerPlace : ByteMemory.place (bm + 16) (55 - count) = ByteMemory.place (bm + 15) (63 - count) := by
    simp only [ByteMemory.place, Prod.mk.injEq]
    omega
  have before : (loadWord mem (bm + 16)).getLsbD (55 - count) = true := by
    rw [getLsbD_loadWord _ _ (by omega), pointerPlace, ← place]
    exact set
  have after : (loadWord mem' (bm + 16)).getLsbD (55 - count) = false := by
    rw [getLsbD_loadWord _ _ (by omega), pointerPlace, ← place, later _ (Bitmap.valid_place _ _), if_pos rfl]
  have others : ∀ other < 64, other ≠ 55 - count →
      (loadWord mem' (bm + 16)).getLsbD other = (loadWord mem (bm + 16)).getLsbD other := by
    intro other small different
    rw [getLsbD_loadWord _ _ small, getLsbD_loadWord _ _ small, later _ (valid_place _ _), place, ← pointerPlace, if_neg]
    intro same
    exact different (place_injective (by omega) (by omega) same)
  have moved := toNat_of_cleared (by omega) before after others
  have least : 2 ^ 7 ≤ 2 ^ (55 - count) := Nat.pow_le_pow_right (by norm_num) (by omega)
  have most : 2 ^ (55 - count) ≤ 2 ^ 55 := Nat.pow_le_pow_right (by norm_num) (by omega)
  rw [pointer] at moved
  generalize 2 ^ (55 - count) = step at *
  omega

/-- The stale pointer of a safe initialisation names the field in front of it. -/
theorem StaticSafe.pointer_eq (safe : StaticSafe undefined bm len mem) (object : StaticObject bm len) :
    (loadWord mem (bm + 16)).toNat = bm + 8 := by
  have lower := safe.behind_length object
  by_contra other
  obtain ⟨moved, before⟩ := safe.moved_pointer object (by omega)
  have short := safe.oneWord object
  have room := object.room
  unfold sizeofBitmapStatic sizeofU64 at room
  apply second_find_escapes object short moved _ (safe.calls _)
  intro index small
  have near : distance (loadWord mem (bm + 16)).toNat ((bm + 15 + index / 8) % 2 ^ 64) <
      bitmapSizeInBlock len * sizeofU64 := by
    have size : bitmapSizeInBlock len = 1 := by
      unfold bitmapSizeInBlock
      omega
    rw [size]
    unfold distance sizeofU64
    omega
  rw [object.getLsbD_init _ (by omega), decide_eq_true near, Bool.true_or]

/-- The length stays, and the pointer names the field in front of it. -/
structure PointsInFront (bm len : Nat) (mem : Memory) : Prop where
  len : (loadWord mem bm).toNat = len
  pointer : (loadWord mem (bm + 16)).toNat = bm + 8

/-- The fields and the first word lie in the object. -/
theorem StaticObject.word_inside (object : StaticObject bm len) {addr : Nat} (lower : bm ≤ addr) (upper : addr ≤ bm + 16) :
    Access.Inside bm (sizeofBitmapStatic len) ⟨addr, 8⟩ := by
  apply Access.inside_of_bounds lower _ object.room
  unfold sizeofBitmapStatic bitmapSizeInBlock sizeofU64
  dsimp only
  omega

theorem StaticObject.fields_inside (object : StaticObject bm len) :
    ∀ access ∈ Bitmap.fieldAccesses bm, access.Inside bm (sizeofBitmapStatic len) := by
  intro access member
  simp only [Bitmap.fieldAccesses, List.mem_cons, List.not_mem_nil, or_false] at member
  rcases member with rfl | rfl | rfl
  · exact object.word_inside (by omega) (by omega)
  · exact object.word_inside (by omega) (by omega)
  · exact object.word_inside (by omega) (by omega)

/-- The first word that the cast reads is the field in front of the pointer. -/
theorem PointsInFront.word (points : PointsInFront bm len mem) (object : StaticObject bm len) :
    (Bitmap.load bm mem).word 0 = bm + 8 := by
  have room := object.room
  unfold sizeofBitmapStatic at room
  have reduced : (bm + 8) % 2 ^ 64 = bm + 8 := Nat.mod_eq_of_lt (by omega)
  simp only [Bitmap.word, Bitmap.load, points.pointer, Nat.zero_mul, Nat.add_zero, u64, reduced]

/-- The size of the search is its first word, so a search of some words finds a set bit there. -/
theorem PointsInFront.first_nonzero (points : PointsInFront bm len mem) (object : StaticObject bm len) {steps : Nat}
    (size : (Bitmap.load bm mem).sizeInBlock = steps + 1) : loadWord mem ((Bitmap.load bm mem).word 0) ≠ 0 := by
  intro zero
  rw [points.word object] at zero
  have empty : (Bitmap.load bm mem).sizeInBlock = 0 := congrArg BitVec.toNat zero
  rw [size] at empty
  cases empty

/-- A pointer to the field in front of it keeps every call inside the object. -/
theorem PointsInFront.safe (points : PointsInFront bm len mem) (object : StaticObject bm len) (short : len < 64)
    (call : BitmapCall) : call.Safe bm len mem := by
  have word := points.word object
  intro access member
  cases call with
  | findAndSet unassigned =>
      rcases List.mem_append.mp member with field | scanned
      · exact object.fields_inside access field
      · -- the size is the first word, so the loop ends before or at it
        have first : access = ⟨bm + 8, 8⟩ := by
          cases size : (Bitmap.load bm mem).sizeInBlock with
          | zero =>
              rw [size] at scanned
              cases scanned
          | succ steps =>
              rw [size, Bitmap.scanned, if_neg (points.first_nonzero object size), word] at scanned
              exact List.mem_singleton.mp scanned
        rw [first]
        exact object.word_inside (by omega) (by omega)
  | unset i =>
      rcases List.mem_append.mp member with field | written
      · exact object.fields_inside access field
      · split_ifs at written with outside
        · cases written
        · have low : i / 64 = 0 := by
            have length : (Bitmap.load bm mem).len = len := points.len
            omega
          rw [low, word] at written
          rw [List.mem_singleton.mp written]
          exact object.word_inside (by omega) (by omega)

/-- A store to the second field keeps the length and the pointer. -/
theorem PointsInFront.store (points : PointsInFront bm len mem) (object : StaticObject bm len) (word : BitVec 64) :
    PointsInFront bm len (storeWord mem (bm + 8) word) := by
  have room := object.room
  unfold sizeofBitmapStatic bitmapSizeInBlock sizeofU64 at room
  constructor
  · rw [loadWord_storeWord_apart _ _ (by omega) (by omega) (by omega)]
    exact points.len
  · rw [loadWord_storeWord_apart _ _ (by omega) (by omega) (by omega)]
    exact points.pointer

theorem PointsInFront.run (points : PointsInFront bm len mem) (object : StaticObject bm len) (short : len < 64)
    (call : BitmapCall) : PointsInFront bm len (call.run undefined bm mem) := by
  have word := points.word object
  cases call with
  | findAndSet unassigned =>
      simp only [BitmapCall.run, bitmapFindAndSetIn]
      cases size : (Bitmap.load bm mem).sizeInBlock with
      | zero => exact points
      | succ steps =>
          simp only [bitmapFindAndSetFrom, if_neg (points.first_nonzero object size)]
          rw [word]
          exact points.store object _
  | unset i =>
      simp only [BitmapCall.run, bitmapUnsetIn, bitmapUnset]
      split_ifs with outside
      · exact points
      · have low : i / 64 = 0 := by
          have length : (Bitmap.load bm mem).len = len := points.len
          omega
        rw [low, word]
        exact points.store object _

/-- A pointer to the field in front of it survives the initialisation. -/
theorem PointsInFront.init (object : StaticObject bm len) (short : len < 64)
    (pointer : (loadWord mem (bm + 16)).toNat = bm + 8) : PointsInFront bm len (bitmapInitStatic bm len mem) := by
  have size : bitmapSizeInBlock len = 1 := by
    unfold bitmapSizeInBlock
    omega
  have room := object.room
  unfold sizeofBitmapStatic sizeofU64 at room
  rw [size] at room
  have kept : ∀ base, base = bm ∨ base = bm + 16 →
      loadWord (bitmapInitStatic bm len mem) base = loadWord (bitmapStaticHead bm len mem) base := by
    intro base field
    apply BitVec.eq_of_getLsbD_eq
    intro index small
    have far : ¬distance (loadWord mem (bm + 16)).toNat ((base + index / 8) % 2 ^ 64) <
        bitmapSizeInBlock len * sizeofU64 := by
      rw [size, pointer]
      unfold distance sizeofU64
      omega
    rw [object.getLsbD_init _ small, decide_eq_false far, Bool.false_or]
  constructor
  · rw [kept bm (Or.inl rfl), object.head_len, BitVec.toNat_ofNat]
    exact Nat.mod_eq_of_lt (by omega)
  · rw [kept (bm + 16) (Or.inr rfl), object.head_pointer, pointer]

/-- The bits of the inline word are those of the pointer in it. -/
theorem PointsInFront.inline_bit (points : PointsInFront bm len mem) {i : Nat} (small : i < 64) :
    Bitmap.bit ⟨len, bitmapSizeInBlock len, bitmapStaticWords bm⟩ mem i = (bm + 8).testBit (63 - i) := by
  rw [bit_inline small, BitVec.getLsbD, points.pointer]

/-- The initialisation has set all bits that the cast reads. -/
theorem StaticObject.bit_cast (object : StaticObject bm len) (short : len < 64)
    (pointer : (loadWord mem (bm + 16)).toNat = bm + 8) {i : Nat} (inside : i < len) :
    (Bitmap.load bm (bitmapInitStatic bm len mem)).bit (bitmapInitStatic bm len mem) i = true := by
  have points : PointsInFront bm len (bitmapInitStatic bm len mem) := PointsInFront.init object short pointer
  have room := object.room
  unfold sizeofBitmapStatic at room
  have word : (Bitmap.load bm (bitmapInitStatic bm len mem)).word 0 = bm + 8 := points.word object
  have index : 64 * 0 + (63 - (63 - i)) = i := by omega
  have read := @Bitmap.getLsbD_word (Bitmap.load bm (bitmapInitStatic bm len mem)) (bitmapInitStatic bm len mem) 0
    (63 - i) (by omega)
  have near : distance (loadWord mem (bm + 16)).toNat ((bm + 8 + (63 - i) / 8) % 2 ^ 64) <
      bitmapSizeInBlock len * sizeofU64 := by
    rw [pointer]
    unfold distance bitmapSizeInBlock sizeofU64
    omega
  rw [index, word, object.getLsbD_init _ (by omega), decide_eq_true near, Bool.true_or] at read
  exact read.symm

/-- A bitmap with inline words keeps to them exactly when its stale first word is a pointer that fits. -/
theorem bitmapInitStatic_safe_iff (undefined : Nat → Nat) (bm len : Nat) (mem : Memory) (object : StaticObject bm len) :
    StaticSafe undefined bm len mem ↔ StalePointerFits bm len mem := by
  constructor
  · intro safe
    have short := safe.oneWord object
    have pointer := safe.pointer_eq object
    have points : PointsInFront bm len (bitmapInitStatic bm len mem) := PointsInFront.init object short pointer
    refine ⟨short, pointer, fun i inside => ?_⟩
    rw [← points.inline_bit (by omega)]
    exact safe.free i inside
  · rintro ⟨short, pointer, ones⟩
    have points : PointsInFront bm len (bitmapInitStatic bm len mem) := PointsInFront.init object short pointer
    refine ⟨fun access member => ?_, fun i inside => ?_, fun i inside => object.bit_cast short pointer inside,
      fun calls => ?_⟩
    · rcases List.mem_append.mp member with field | filled
      · exact object.fields_inside access field
      · have size : bitmapSizeInBlock len = 1 := by
          unfold bitmapSizeInBlock
          omega
        have start : (Bitmap.load bm mem).bitmap = bm + 8 := pointer
        rw [List.mem_singleton.mp filled, start, size]
        exact object.word_inside (by omega) (by omega)
    · rw [points.inline_bit (by omega)]
      exact ones i inside
    · apply @Runs.Along.of_invariant _ _ _ (PointsInFront bm len) (fun _ _ => True) _ _ _ _ _ points
      · exact Runs.along_of_forall (fun _ _ => True.intro) calls _
      · intro call state points _
        exact points.safe object short call
      · rintro call state state' points - rfl
        exact points.run object short call

end

/-- An object in the kernel image whose stale word points to its second field. -/
def staleFits : Memory := storeWord (fun _ => 0) 0xffffffff80200010 (BitVec.ofNat 64 0xffffffff80200008)

theorem bitmapInitStatic_safe_iff_fits : StaticSafe id 0xffffffff80200000 8 staleFits := by
  have object : StaticObject 0xffffffff80200000 8 := ⟨by decide, by decide, by decide⟩
  refine (bitmapInitStatic_safe_iff id 0xffffffff80200000 8 staleFits object).mpr ⟨by decide, ?_, by decide +kernel⟩
  show (loadWord (storeWord _ 0xffffffff80200010 _) 0xffffffff80200010).toNat = _
  rw [loadWord_storeWord]
  rfl

/-- The bitmap of a process in zeroed memory is filled through the null pointer. -/
theorem bitmapInitStatic_writes_null : ¬∀ (undefined : Nat → Nat) (bm len : Nat) (mem : Memory),
    StaticObject bm len → StaticSafe undefined bm len mem := by
  intro all
  have object : StaticObject 4096 256 := ⟨by decide, by decide, by decide⟩
  have inside := (all id 4096 256 (fun _ => 0) object).init ⟨0, 40⟩ (by decide +kernel) 0 (by decide)
  revert inside
  decide

end B0s
