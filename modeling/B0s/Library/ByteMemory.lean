import Mathlib.Data.BitVec
import Mathlib.Tactic

/-
This file is a library of byte memories with 64-bit addresses, little-endian words, and single bits.
-/

namespace ByteMemory

/-- A memory holds one byte at each address, and addresses wrap at `2 ^ 64`. -/
abbrev Memory := Nat → BitVec 8

/-- The number of bytes from a base up to an address. -/
def distance (base addr : Nat) : Nat := (addr + 2 ^ 64 - base % 2 ^ 64) % 2 ^ 64

/-- A bit of memory is named by its byte and its place in the byte. -/
def bit (mem : Memory) (place : Nat × Nat) : Bool := (mem place.1).getLsbD place.2

/-- The place of one bit of the word at a base. -/
def place (base index : Nat) : Nat × Nat := ((base + index / 8) % 2 ^ 64, index % 8)

/-- The byte at an offset from a base. -/
def byteAt (mem : Memory) (base offset : Nat) : BitVec 8 := mem ((base + offset) % 2 ^ 64)

/-- The first bytes from a base form the low bytes of a word. -/
def loadBytes (mem : Memory) (base : Nat) : Nat → BitVec 64
  | 0 => 0
  | count + 1 => loadBytes mem base count ||| (byteAt mem base count).setWidth 64 <<< (8 * count)

def loadWord (mem : Memory) (base : Nat) : BitVec 64 := loadBytes mem base 8

def storeWord (mem : Memory) (base : Nat) (word : BitVec 64) : Memory := fun addr =>
  if distance base addr < 8 then word.extractLsb' (8 * distance base addr) 8 else mem addr

def fill (mem : Memory) (base : Nat) (byte : BitVec 8) (size : Nat) : Memory := fun addr =>
  if distance base addr < size then byte else mem addr

/-- A place names a byte of the address space and one of its eight bits. -/
def Valid (place : Nat × Nat) : Prop := place.1 < 2 ^ 64 ∧ place.2 < 8

theorem valid_place (base index : Nat) : Valid (place base index) :=
  ⟨Nat.mod_lt _ (by norm_num), Nat.mod_lt _ (by norm_num)⟩

theorem distance_add {base offset : Nat} (small : offset < 2 ^ 64) :
    distance base ((base + offset) % 2 ^ 64) = offset := by
  unfold distance
  omega

theorem add_distance {base addr : Nat} (small : addr < 2 ^ 64) :
    (base + distance base addr) % 2 ^ 64 = addr := by
  unfold distance
  omega

/-- Each valid place near a base is the place of one bit of the word there. -/
theorem place_of_distance {base : Nat} {spot : Nat × Nat} (valid : Valid spot) :
    place base (8 * distance base spot.1 + spot.2) = spot := by
  have small := valid.2
  have high : (8 * distance base spot.1 + spot.2) / 8 = distance base spot.1 := by omega
  have low : (8 * distance base spot.1 + spot.2) % 8 = spot.2 := by omega
  rw [place, high, low, add_distance valid.1]

theorem place_injective {base index index' : Nat} (small : index < 2 ^ 67)
    (small' : index' < 2 ^ 67) (same : place base index = place base index') : index = index' := by
  have bytes := congrArg Prod.fst same
  have bits := congrArg Prod.snd same
  have offset := @distance_add base (index / 8) (by omega)
  have offset' := @distance_add base (index' / 8) (by omega)
  simp only [place] at bytes bits
  rw [bytes, offset'] at offset
  omega

theorem getLsbD_loadBytes (mem : Memory) (base count : Nat) {index : Nat} (small : index < 64) :
    (loadBytes mem base count).getLsbD index =
      (decide (index < 8 * count) && bit mem (place base index)) := by
  induction count with
  | zero => simp [loadBytes]
  | succ count ih =>
      rw [loadBytes, BitVec.getLsbD_or, ih, BitVec.getLsbD_shiftLeft, BitVec.getLsbD_setWidth]
      by_cases before : index < 8 * count
      · have still : index < 8 * (count + 1) := by omega
        simp [before, still]
      · by_cases here : index < 8 * (count + 1)
        · have high : index / 8 = count := by omega
          have low : index % 8 = index - 8 * count := by omega
          have narrow : index - 8 * count < 64 := by omega
          simp [before, here, small, narrow, bit, place, byteAt, high, low]
        · have outside : 8 ≤ index - 8 * count := by omega
          have missing := BitVec.getLsbD_of_ge (byteAt mem base count) _ outside
          simp [before, here, missing]

theorem getLsbD_loadWord (mem : Memory) (base : Nat) {index : Nat} (small : index < 64) :
    (loadWord mem base).getLsbD index = bit mem (place base index) := by
  rw [loadWord, getLsbD_loadBytes mem base 8 small]
  simp [small]

theorem loadBytes_lt (mem : Memory) (base count : Nat) : (loadBytes mem base count).toNat < 2 ^ (8 * count) := by
  induction count with
  | zero => simp [loadBytes]
  | succ count ih =>
      rw [loadBytes, BitVec.toNat_or, BitVec.toNat_shiftLeft, BitVec.toNat_setWidth]
      apply Nat.or_lt_two_pow
      · exact lt_of_lt_of_le ih (Nat.pow_le_pow_right (by norm_num) (by omega))
      · apply lt_of_le_of_lt (Nat.mod_le _ _)
        rw [Nat.shiftLeft_eq, show 8 * (count + 1) = 8 + 8 * count by omega, pow_add]
        apply Nat.mul_lt_mul_of_pos_right _ (by positivity)
        exact lt_of_le_of_lt (Nat.mod_le _ _) (byteAt mem base count).isLt

/-- A word is zero exactly when its bytes are. -/
theorem loadWord_eq_zero_iff {mem : Memory} {base : Nat} (room : base + 8 ≤ 2 ^ 64) :
    loadWord mem base = 0 ↔ ∀ addr, base ≤ addr → addr < base + 8 → mem addr = 0 := by
  constructor
  · intro zero addr low high
    apply BitVec.eq_of_getLsbD_eq
    intro index small
    have word := @getLsbD_loadWord mem base (8 * (addr - base) + index) (by omega)
    have byte : (8 * (addr - base) + index) / 8 = addr - base := by omega
    have rest : (8 * (addr - base) + index) % 8 = index := by omega
    rw [zero, bit, place, byte, rest, show base + (addr - base) = addr by omega, Nat.mod_eq_of_lt (by omega)] at word
    simpa using word.symm
  · intro zero
    apply BitVec.eq_of_getLsbD_eq
    intro index small
    rw [getLsbD_loadWord _ _ small, bit, place, Nat.mod_eq_of_lt (by omega), zero _ (by omega) (by omega)]
    simp

/-- A stored word is read back bit by bit. -/
theorem bit_storeWord_place (mem : Memory) (base : Nat) (word : BitVec 64) {index : Nat}
    (small : index < 64) : bit (storeWord mem base word) (place base index) = word.getLsbD index := by
  have offset := @distance_add base (index / 8) (by omega)
  have inside : index / 8 < 8 := by omega
  have split : 8 * (index / 8) + index % 8 = index := by omega
  have low : index % 8 < 8 := by omega
  simp only [bit, storeWord, place, offset, if_pos inside, BitVec.getLsbD_extractLsb', low, split,
    decide_true, Bool.true_and]

theorem bit_storeWord_far (mem : Memory) (base : Nat) (word : BitVec 64) {spot : Nat × Nat}
    (far : 8 ≤ distance base spot.1) : bit (storeWord mem base word) spot = bit mem spot := by
  rw [bit, storeWord, if_neg (Nat.not_lt.mpr far), bit]

/-- A word that differs from the stored one in one bit changes one bit of memory. -/
theorem bit_storeWord_flip {mem : Memory} {base index : Nat} {word : BitVec 64} {value : Bool}
    (small : index < 64) (here : word.getLsbD index = value)
    (there : ∀ other < 64, other ≠ index → word.getLsbD other = (loadWord mem base).getLsbD other)
    {spot : Nat × Nat} (valid : Valid spot) :
    bit (storeWord mem base word) spot = if spot = place base index then value else bit mem spot := by
  by_cases near : distance base spot.1 < 8
  · have inside : 8 * distance base spot.1 + spot.2 < 64 := by
      have low := valid.2
      omega
    have named := @place_of_distance base spot valid
    rw [← named, bit_storeWord_place _ _ _ inside]
    split_ifs with same
    · rw [place_injective (by omega) (by omega) same]
      exact here
    · have different : 8 * distance base spot.1 + spot.2 ≠ index := fun equal => same (by rw [equal])
      rw [there _ inside different, getLsbD_loadWord _ _ inside]
  · have apart : spot ≠ place base index := by
      rintro rfl
      apply near
      rw [place, distance_add (by omega)]
      omega
    rw [bit_storeWord_far _ _ _ (Nat.not_lt.mp near), if_neg apart]

theorem bit_fill_place (mem : Memory) (base : Nat) {size index : Nat} (inside : index / 8 < size)
    (small : size ≤ 2 ^ 64) : bit (fill mem base (BitVec.allOnes 8) size) (place base index) = true := by
  have offset := @distance_add base (index / 8) (by omega)
  have low : index % 8 < 8 := by omega
  simp only [bit, fill, place, offset, if_pos inside, BitVec.getLsbD_allOnes, low, decide_true]

/-- A word is read from its eight bytes. -/
theorem loadWord_congr {mem mem' : Memory} {base : Nat}
    (same : ∀ offset < 8, byteAt mem' base offset = byteAt mem base offset) :
    loadWord mem' base = loadWord mem base := by
  have bytes : ∀ count ≤ 8, loadBytes mem' base count = loadBytes mem base count := by
    intro count
    induction count with
    | zero =>
        intro _
        rfl
    | succ count ih =>
        intro bound
        rw [loadBytes, loadBytes, ih (by omega), same count (by omega)]
  exact bytes 8 (le_refl 8)

theorem loadWord_storeWord (mem : Memory) (base : Nat) (word : BitVec 64) :
    loadWord (storeWord mem base word) base = word := by
  apply BitVec.eq_of_getLsbD_eq
  intro index small
  rw [getLsbD_loadWord _ _ small, bit_storeWord_place _ _ _ small]

/-- An address outside the eight bytes of a word keeps its byte. -/
theorem storeWord_outside (mem : Memory) (word : BitVec 64) {base addr : Nat} (room : base + 8 ≤ 2 ^ 64)
    (small : addr < 2 ^ 64) (outside : addr < base ∨ base + 8 ≤ addr) :
    storeWord mem base word addr = mem addr := by
  have far : ¬distance base addr < 8 := by
    unfold distance
    omega
  rw [storeWord, if_neg far]

/-- A word is read as before when a store changes other bytes. -/
theorem loadWord_storeWord_apart (mem : Memory) (word : BitVec 64) {base other : Nat}
    (room : base + 8 ≤ 2 ^ 64) (room' : other + 8 ≤ 2 ^ 64)
    (apart : other + 8 ≤ base ∨ base + 8 ≤ other) :
    loadWord (storeWord mem base word) other = loadWord mem other := by
  apply loadWord_congr
  intro offset small
  have inside : (other + offset) % 2 ^ 64 = other + offset := Nat.mod_eq_of_lt (by omega)
  rw [byteAt, byteAt, inside]
  exact storeWord_outside mem word room (by omega) (by omega)

theorem fill_outside (mem : Memory) (byte : BitVec 8) {base size addr : Nat}
    (room : base + size ≤ 2 ^ 64) (small : addr < 2 ^ 64) (outside : addr < base ∨ base + size ≤ addr) :
    fill mem base byte size addr = mem addr := by
  have far : ¬distance base addr < size := by
    unfold distance
    omega
  rw [fill, if_neg far]

/-- A word is read as before when a fill changes other bytes. -/
theorem loadWord_fill_apart (mem : Memory) (byte : BitVec 8) {base size other : Nat}
    (room : base + size ≤ 2 ^ 64) (room' : other + 8 ≤ 2 ^ 64)
    (apart : other + 8 ≤ base ∨ base + size ≤ other) :
    loadWord (fill mem base byte size) other = loadWord mem other := by
  apply loadWord_congr
  intro offset small
  have inside : (other + offset) % 2 ^ 64 = other + offset := Nat.mod_eq_of_lt (by omega)
  rw [byteAt, byteAt, inside]
  exact fill_outside mem byte room (by omega) (by omega)

/-- The words are pushed below an address, each one below the last. -/
def pushWords (mem : Memory) (top : Nat) : List (BitVec 64) → Memory
  | [] => mem
  | word :: words => pushWords (storeWord mem (top - 8) word) (top - 8) words

/-- The words lie in memory from an address on. -/
def OnStack (mem : Memory) (base : Nat) : List (BitVec 64) → Prop
  | [] => True
  | word :: words => loadWord mem base = word ∧ OnStack mem (base + 8) words

theorem onStack_append {mem : Memory} {base : Nat} {first second : List (BitVec 64)} :
    OnStack mem base (first ++ second) ↔
      OnStack mem base first ∧ OnStack mem (base + 8 * first.length) second := by
  induction first generalizing base with
  | nil => simp [OnStack]
  | cons word first ih =>
      have shifted : base + 8 + 8 * first.length = base + 8 * (first.length + 1) := by omega
      rw [List.cons_append, OnStack, OnStack, ih, List.length_cons, shifted, and_assoc]

/-- Words on a stack depend on their own bytes only. -/
theorem OnStack.transport {mem mem' : Memory} {base : Nat} {words : List (BitVec 64)}
    (stored : OnStack mem base words) (room : base + 8 * words.length ≤ 2 ^ 64)
    (same : ∀ addr, base ≤ addr → addr < base + 8 * words.length → mem' addr = mem addr) :
    OnStack mem' base words := by
  induction words generalizing base with
  | nil => trivial
  | cons word words ih =>
      rw [List.length_cons] at room same
      obtain ⟨here, rest⟩ := stored
      refine ⟨?_, ih rest (by omega) fun addr low high => same addr (by omega) (by omega)⟩
      rw [← here]
      apply loadWord_congr
      intro offset small
      have inside : (base + offset) % 2 ^ 64 = base + offset := Nat.mod_eq_of_lt (by omega)
      rw [byteAt, byteAt, inside]
      exact same _ (by omega) (by omega)

theorem pushWords_outside {mem : Memory} {top addr : Nat} {words : List (BitVec 64)}
    (room : 8 * words.length ≤ top) (bounded : top ≤ 2 ^ 64) (small : addr < 2 ^ 64)
    (outside : addr < top - 8 * words.length ∨ top ≤ addr) : pushWords mem top words addr = mem addr := by
  induction words generalizing mem top with
  | nil => rfl
  | cons word words ih =>
      rw [List.length_cons] at room outside
      rw [pushWords, ih (by omega) (by omega) (by omega), storeWord_outside _ _ (by omega) small (by omega)]

/-- The pushed words lie on the stack with the last one at its top. -/
theorem onStack_pushWords {mem : Memory} {top : Nat} {words : List (BitVec 64)}
    (room : 8 * words.length ≤ top) (bounded : top ≤ 2 ^ 64) :
    OnStack (pushWords mem top words) (top - 8 * words.length) words.reverse := by
  induction words generalizing mem top with
  | nil => trivial
  | cons word words ih =>
      rw [List.length_cons] at room
      have start : top - 8 - 8 * words.length = top - 8 * (words.length + 1) := by omega
      have stop : top - 8 * (words.length + 1) + 8 * words.reverse.length = top - 8 := by
        rw [List.length_reverse]
        omega
      have later := @ih (storeWord mem (top - 8) word) (top - 8) (by omega) (by omega)
      rw [pushWords, List.reverse_cons, onStack_append, List.length_cons, stop, ← start]
      refine ⟨later, ?_, trivial⟩
      refine Eq.trans ?_ (loadWord_storeWord mem (top - 8) word)
      apply loadWord_congr
      intro offset small
      have inside : (top - 8 + offset) % 2 ^ 64 = top - 8 + offset := Nat.mod_eq_of_lt (by omega)
      rw [byteAt, byteAt, inside]
      apply pushWords_outside
      · omega
      · omega
      · omega
      · right
        omega

end ByteMemory
