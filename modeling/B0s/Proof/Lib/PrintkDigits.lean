import Mathlib.Data.Nat.Digits.Lemmas
import B0s.Construction.Lib.Printk

/-
This file proves that `putnbr` and `putptr` print the digits of their number.
-/

namespace B0s

/-- The digits of a number begin with the lowest one, and zero has one digit. -/
def lowDigits (base nbr : Nat) : List Nat := if nbr = 0 then [0] else Nat.digits base nbr

/-- A fixed number of digits in base 16 begins with the lowest one. -/
def pointerDigits : Nat → Nat → List Nat
  | 0, _ => []
  | count + 1, ptr => ptr % 16 :: pointerDigits count (ptr / 16)

def digitChar (digit : Nat) : BitVec 8 := hexAlpha.getD digit 0

/-- Characters are printed one behind the other. -/
def emit (chars : List (BitVec 8)) (vga : Vga) : Vga := chars.foldl (fun vga ch => vgaPutchar ch vgaWhite vga) vga

theorem emit_cons (ch : BitVec 8) (chars : List (BitVec 8)) (vga : Vga) :
    emit (ch :: chars) vga = emit chars (vgaPutchar ch vgaWhite vga) := rfl

/-- The digits are read back with the highest one first. -/
def readNumeral (base : Nat) (chars : List (BitVec 8)) : Nat :=
  chars.foldl (fun value ch => value * base + hexAlpha.idxOf ch) 0

theorem lowDigits_step {base : Nat} (two : 2 ≤ base) (nbr : Nat) :
    lowDigits base nbr = nbr % base :: if nbr / base = 0 then [] else lowDigits base (nbr / base) := by
  unfold lowDigits
  by_cases zero : nbr = 0
  · rw [if_pos zero, zero, Nat.zero_mod, Nat.zero_div, if_pos rfl]
  · rw [if_neg zero, Nat.digits_def' two (Nat.pos_of_ne_zero zero)]
    split_ifs with last
    · rw [last, Nat.digits_zero]
    · rfl

theorem lowDigits_lt {base : Nat} (two : 2 ≤ base) {nbr digit : Nat} (member : digit ∈ lowDigits base nbr) :
    digit < base := by
  unfold lowDigits at member
  split_ifs at member with zero
  · obtain rfl := List.mem_singleton.mp member
    omega
  · exact Nat.digits_lt_base two member

theorem ofDigits_lowDigits (base nbr : Nat) : Nat.ofDigits base (lowDigits base nbr) = nbr := by
  unfold lowDigits
  split_ifs with zero
  · rw [zero]
    rfl
  · exact Nat.ofDigits_digits base nbr

theorem pointerDigits_length (count ptr : Nat) : (pointerDigits count ptr).length = count := by
  induction count generalizing ptr with
  | zero => rfl
  | succ count ih => rw [pointerDigits, List.length_cons, ih]

theorem pointerDigits_lt {count ptr digit : Nat} (member : digit ∈ pointerDigits count ptr) : digit < 16 := by
  induction count generalizing ptr with
  | zero => cases member
  | succ count ih =>
      rcases List.mem_cons.mp member with rfl | later
      · exact Nat.mod_lt _ (by decide)
      · exact ih later

theorem ofDigits_pointerDigits {count ptr : Nat} (small : ptr < 16 ^ count) :
    Nat.ofDigits 16 (pointerDigits count ptr) = ptr := by
  induction count generalizing ptr with
  | zero =>
      rw [Nat.pow_zero, Nat.lt_one_iff] at small
      rw [small]
      rfl
  | succ count ih =>
      have upper : ptr / 16 < 16 ^ count := Nat.div_lt_of_lt_mul (by rwa [Nat.pow_succ, Nat.mul_comm] at small)
      rw [pointerDigits, Nat.ofDigits_cons, ih upper]
      exact Nat.mod_add_div ptr 16

/-- The alphabet has another character for each digit. -/
theorem idxOf_digitChar {digit : Nat} (small : digit < 16) : hexAlpha.idxOf (digitChar digit) = digit := by
  revert digit
  decide

/-- Printed digits are read back as their number. -/
theorem readNumeral_reverse (base : Nat) {digits : List Nat} (small : ∀ digit ∈ digits, digit < 16) :
    readNumeral base (digits.reverse.map digitChar) = Nat.ofDigits base digits := by
  unfold readNumeral
  induction digits with
  | nil => rfl
  | cons digit digits ih =>
      rw [List.forall_mem_cons] at small
      rw [List.reverse_cons, List.map_append, List.foldl_append, ih small.2, Nat.ofDigits_cons, List.map_singleton,
        List.foldl_cons, List.foldl_nil, idxOf_digitChar small.1]
      ring

theorem predU8_succ {i : Nat} (small : i + 1 < 256) : predU8 (i + 1) = i := by
  unfold predU8
  omega

section
variable {base nbr i steps log : Nat} {array : Str}

/-- The array is filled from the index downwards, and the index ends below the highest digit. -/
theorem putnbrFill_spec (two : 2 ≤ base) (room : nbr < base ^ (i + 1)) (small : i < 255) (enough : i < steps) :
    ∃ array' written, putnbrFill base steps nbr i array =
        .ok (array', (i + 256 - (lowDigits base nbr).length) % 256, written) ∧
      (lowDigits base nbr).length ≤ i + 1 ∧
      (List.range' (i + 1 - (lowDigits base nbr).length) (lowDigits base nbr).length).map array' =
        (lowDigits base nbr).reverse.map digitChar ∧
      (∀ index > i, array' index = array index) ∧ ∀ index ∈ written, index ≤ i := by
  induction i generalizing nbr steps array with
  | zero =>
      obtain ⟨steps, rfl⟩ := Nat.exists_eq_succ_of_ne_zero (Nat.ne_zero_of_lt enough)
      have last : nbr / base = 0 := Nat.div_eq_of_lt (by simpa using room)
      rw [lowDigits_step two, if_pos last, putnbrFill]
      dsimp only
      rw [if_pos last]
      refine ⟨_, _, rfl, le_rfl, ?_, ?_, by simp⟩
      · simp [digitChar]
      · intro index behind
        exact Function.update_of_ne (Nat.ne_of_gt behind) _ _
  | succ i ih =>
      obtain ⟨steps, rfl⟩ := Nat.exists_eq_succ_of_ne_zero (Nat.ne_zero_of_lt enough)
      rw [lowDigits_step two, putnbrFill]
      dsimp only
      by_cases last : nbr / base = 0
      · rw [if_pos last, if_pos last]
        refine ⟨_, _, rfl, by simp, ?_, ?_, by simp⟩
        · simp [digitChar]
        · intro index behind
          exact Function.update_of_ne (Nat.ne_of_gt behind) _ _
      · rw [if_neg last, if_neg last, predU8_succ (by omega)]
        have upper : nbr / base < base ^ (i + 1) := Nat.div_lt_of_lt_mul (by rwa [Nat.pow_succ, Nat.mul_comm] at room)
        obtain ⟨array', written, ran, length, filled, kept, below⟩ := @ih (nbr / base) steps
          (Function.update array (i + 1) (hexAlpha.getD (nbr % base) 0)) upper (by omega) (by omega)
        generalize lowDigits base (nbr / base) = digits at *
        refine ⟨array', (i + 1) :: written, ?_, by rw [List.length_cons]; omega, ?_, ?_, ?_⟩
        · rw [ran, List.length_cons]
          simp only [bind, Except.bind]
          congr 4
          omega
        · have start : i + 1 + 1 - (nbr % base :: digits).length = i + 1 - digits.length := by rw [List.length_cons]; omega
          have stop : i + 1 - digits.length + 1 * digits.length = i + 1 := by omega
          have here : array' (i + 1) = digitChar (nbr % base) := by
            rw [kept (i + 1) (Nat.lt_succ_self i), Function.update_self]
            rfl
          rw [start, List.length_cons, List.range'_concat, List.map_append, filled, stop, List.reverse_cons, List.map_append,
            List.map_singleton, here, List.map_singleton]
        · intro index behind
          rw [kept index (by omega), Function.update_of_ne (by omega)]
        · intro index member
          rcases List.mem_cons.mp member with rfl | later
          · exact le_rfl
          · have bound := below index later
            omega

/-- The array is filled down to its first index. -/
theorem putptrFill_spec (small : i < 255) (enough : i < steps) (ptr : Nat) :
    ∃ array' written, putptrFill steps ptr i array = .ok (array', 255, written) ∧
      (List.range' 0 (i + 1)).map array' = (pointerDigits (i + 1) ptr).reverse.map digitChar ∧
      (∀ index > i, array' index = array index) ∧ ∀ index ∈ written, index ≤ i := by
  induction i generalizing ptr steps array with
  | zero =>
      obtain ⟨steps, rfl⟩ := Nat.exists_eq_succ_of_ne_zero (Nat.ne_zero_of_lt enough)
      have wraps : predU8 0 = 255 := by decide
      rw [putptrFill]
      dsimp only
      rw [if_pos wraps, wraps]
      refine ⟨_, _, rfl, ?_, ?_, by simp⟩
      · simp [digitChar, pointerDigits]
      · intro index behind
        exact Function.update_of_ne (Nat.ne_of_gt behind) _ _
  | succ i ih =>
      obtain ⟨steps, rfl⟩ := Nat.exists_eq_succ_of_ne_zero (Nat.ne_zero_of_lt enough)
      rw [putptrFill]
      dsimp only
      rw [predU8_succ (by omega), if_neg (by omega)]
      obtain ⟨array', written, ran, filled, kept, below⟩ := @ih steps
        (Function.update array (i + 1) (hexAlpha.getD (ptr % 16) 0)) (by omega) (by omega) (ptr / 16)
      refine ⟨array', (i + 1) :: written, ?_, ?_, ?_, ?_⟩
      · rw [ran]
        rfl
      · have here : array' (i + 1) = digitChar (ptr % 16) := by
          rw [kept (i + 1) (Nat.lt_succ_self i), Function.update_self]
          rfl
        have digits : pointerDigits (i + 1 + 1) ptr = ptr % 16 :: pointerDigits (i + 1) (ptr / 16) := rfl
        rw [List.range'_concat, List.map_append, filled, Nat.zero_add, Nat.one_mul, digits, List.reverse_cons,
          List.map_append, List.map_singleton, here, List.map_singleton]
      · intro index behind
        rw [kept index (by omega), Function.update_of_ne (by omega)]
      · intro index member
        rcases List.mem_cons.mp member with rfl | later
        · exact le_rfl
        · have bound := below index later
          omega

/-- The last loop prints the array from the index on. -/
theorem putArray_spec {left : Nat} (place : i + left = log) (small : log < 255) (positive : 0 < log) (enough : left < steps)
    (array : Str) (vga : Vga) :
    putArray array log steps i vga = .ok (emit ((List.range' i left).map array) vga) := by
  induction left generalizing i steps vga with
  | zero =>
      obtain ⟨steps, rfl⟩ := Nat.exists_eq_succ_of_ne_zero (Nat.ne_zero_of_lt enough)
      rw [putArray, if_neg (by omega)]
      rfl
  | succ left ih =>
      obtain ⟨steps, rfl⟩ := Nat.exists_eq_succ_of_ne_zero (Nat.ne_zero_of_lt enough)
      have next : u8 (i + 1) = i + 1 := Nat.mod_eq_of_lt (by omega)
      rw [putArray, if_pos (by omega), next, ih (by omega) (by omega)]
      rfl

end

/-- The table bounds the number of digits of each word. -/
theorem u64MaxLogBase_bounds {base : Nat} (two : 2 ≤ base) (sixteen : base ≤ 16) :
    0 < u64MaxLogBase base ∧ u64MaxLogBase base < 255 ∧ 2 ^ 64 ≤ base ^ u64MaxLogBase base := by
  interval_cases base <;> decide

section
variable (uninit : Str) (word : BitVec 64) (vga : Vga)

theorem putnbr_spec {base : Nat} (two : 2 ≤ base) (sixteen : base ≤ 16) :
    ∃ written, putnbr uninit word.toNat base vga =
        .ok (emit ((lowDigits base word.toNat).reverse.map digitChar) vga, written) ∧
      ∀ index ∈ written, index < u64MaxLogBase base := by
  obtain ⟨positive, small, large⟩ := u64MaxLogBase_bounds two sixteen
  unfold putnbr
  dsimp only
  generalize u64MaxLogBase base = log at *
  have last : log - 1 + 1 = log := by omega
  have room : word.toNat < base ^ (log - 1 + 1) := by
    rw [last]
    exact lt_of_lt_of_le word.isLt large
  obtain ⟨array, written, ran, length, filled, -, below⟩ := @putnbrFill_spec base word.toNat (log - 1) walkLimit uninit two
    room (by omega) (by unfold walkLimit; omega)
  rw [last] at length filled
  generalize lowDigits base word.toNat = digits at *
  have first : u8 ((log - 1 + 256 - digits.length) % 256 + 1) = log - digits.length := by
    unfold u8
    omega
  have printed := @putArray_spec (log - digits.length) walkLimit log digits.length (by omega) small positive
    (by unfold walkLimit; omega) array vga
  rw [filled] at printed
  refine ⟨written, ?_, fun index member => by have bound := below index member; omega⟩
  simp only [ran, first, printed, bind, Except.bind]

theorem putptr_spec :
    ∃ written, putptr uninit word.toNat vga =
        .ok (emit (0x30 :: 0x78 :: (pointerDigits 16 word.toNat).reverse.map digitChar) vga, written) ∧
      ∀ index ∈ written, index < u64MaxLogBase 16 := by
  have log : u64MaxLogBase 16 = 16 := by decide
  obtain ⟨array, written, ran, filled, -, below⟩ := @putptrFill_spec 15 walkLimit uninit (by omega)
    (by unfold walkLimit; omega) word.toNat
  have first : u8 (255 + 1) = 0 := by decide
  have printed := @putArray_spec 0 walkLimit 16 16 (by omega) (by omega) (by omega) (by unfold walkLimit; omega) array
    (vgaPutchar 0x78 vgaWhite (vgaPutchar 0x30 vgaWhite vga))
  rw [filled] at printed
  refine ⟨written, ?_, fun index member => by have bound := below index member; omega⟩
  rw [emit_cons, emit_cons]
  generalize (pointerDigits 16 word.toNat).reverse.map digitChar = chars at *
  unfold putptr
  dsimp only
  rw [log]
  simp only [ran, first, printed, bind, Except.bind]

/-- In every base the digits of a word are printed with the highest one first, without zeros in front, and a pointer is
printed with its 16 digits. Both are read back as the word, and only cells of the local arrays are written. -/
theorem putnbr_putptr_read_back :
    (∀ base, 2 ≤ base → base ≤ 16 → ∃ (digits : List Nat) (written : List Nat),
      putnbr uninit word.toNat base vga = .ok (emit (digits.map digitChar) vga, written) ∧
        (∀ index ∈ written, index < u64MaxLogBase base) ∧ (∀ digit ∈ digits, digit < base) ∧
        (word = 0 → digits = [0]) ∧ (word ≠ 0 → ∃ digit rest, digits = digit :: rest ∧ digit ≠ 0) ∧
        readNumeral base (digits.map digitChar) = word.toNat) ∧
    ∃ (digits : List Nat) (written : List Nat),
      putptr uninit word.toNat vga = .ok (emit (0x30 :: 0x78 :: digits.map digitChar) vga, written) ∧
        (∀ index ∈ written, index < u64MaxLogBase 16) ∧ digits.length = 16 ∧ (∀ digit ∈ digits, digit < 16) ∧
        readNumeral 16 (digits.map digitChar) = word.toNat := by
  constructor
  · intro base two sixteen
    obtain ⟨written, ran, below⟩ := putnbr_spec uninit word vga two sixteen
    have small : ∀ digit ∈ lowDigits base word.toNat, digit < base := fun digit member => lowDigits_lt two member
    refine ⟨_, written, ran, below, ?_, ?_, ?_, ?_⟩
    · intro digit member
      exact small digit (List.mem_reverse.mp member)
    · rintro rfl
      rfl
    · intro nonzero
      have positive : word.toNat ≠ 0 := fun zero => nonzero (BitVec.eq_of_toNat_eq zero)
      have filled : Nat.digits base word.toNat ≠ [] := Nat.digits_ne_nil_iff_ne_zero.mpr positive
      refine ⟨_, (Nat.digits base word.toNat).dropLast.reverse, ?_, Nat.getLast_digit_ne_zero base positive⟩
      rw [lowDigits, if_neg positive, ← List.reverse_concat, List.dropLast_append_getLast filled]
    · rw [readNumeral_reverse base fun digit member => by have bound := small digit member; omega, ofDigits_lowDigits]
  · obtain ⟨written, ran, below⟩ := putptr_spec uninit word vga
    refine ⟨_, written, ran, below, ?_, ?_, ?_⟩
    · rw [List.length_reverse, pointerDigits_length]
    · intro digit member
      exact pointerDigits_lt (List.mem_reverse.mp member)
    · rw [readNumeral_reverse 16 fun digit member => pointerDigits_lt member]
      exact ofDigits_pointerDigits (lt_of_lt_of_le word.isLt (by decide))

end

end B0s
