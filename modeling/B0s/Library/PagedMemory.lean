import B0s.Library.ByteMemory

/-
This file is a library of byte memories that are read and written through a translation of addresses.
-/

namespace ByteMemory

/-- A translation leads from the mapped virtual addresses to the physical bytes behind them. -/
abbrev Translation := Nat → Option Nat

/-- The bytes that a translation shows. An address without a byte shows zero, and no access reads it. -/
def seen (translation : Translation) (mem : Memory) : Memory := fun addr =>
  match translation addr with
  | some byte => mem byte
  | none => 0

/-- Every byte of a range is mapped. -/
def Translates (translation : Translation) (base size : Nat) : Prop :=
  ∀ index < size, (translation ((base + index) % 2 ^ 64)).isSome

instance (translation : Translation) (base size : Nat) : Decidable (Translates translation base size) :=
  inferInstanceAs (Decidable (∀ index < size, _))

/-- The bytes of a range go where the translation leads. -/
def putBytes (translation : Translation) (base size : Nat) (bytes mem : Memory) : Memory := fun byte =>
  match (List.range size).find? fun index => translation ((base + index) % 2 ^ 64) = some byte with
  | some index => bytes ((base + index) % 2 ^ 64)
  | none => mem byte

/-- The translation leads each address of an area to its place. -/
def Places (translation : Translation) (place : Nat → Nat) (area : Nat → Prop) : Prop :=
  ∀ addr, area addr → translation addr = some (place addr)

/-- The places of an area hold the bytes of a virtual memory. -/
def Shows (place : Nat → Nat) (area : Nat → Prop) (mem shown : Memory) : Prop :=
  ∀ addr, area addr → mem (place addr) = shown addr

/-- The places of an area keep its addresses apart. -/
def PlacedApart (place : Nat → Nat) (area : Nat → Prop) : Prop :=
  ∀ addr other, area addr → area other → place addr = place other → addr = other

section
variable {translation : Translation} {place : Nat → Nat} {area whole : Nat → Prop} {mem bytes : Memory}
  {base size addr : Nat}

theorem Places.mono (places : Places translation place whole) (inside : ∀ addr, area addr → whole addr) :
    Places translation place area := fun addr here => places addr (inside addr here)

/-- A placed area shows the bytes at its places. -/
theorem Places.seen (places : Places translation place area) (here : area addr) :
    seen translation mem addr = mem (place addr) := by
  simp only [ByteMemory.seen, places addr here]

theorem Places.translates (places : Places translation place area) (room : base + size ≤ 2 ^ 64)
    (inside : ∀ addr, base ≤ addr → addr < base + size → area addr) : Translates translation base size := by
  intro index small
  rw [Nat.mod_eq_of_lt (by omega), places _ (inside _ (by omega) (by omega))]
  rfl

/-- The range gets its bytes, and all other places keep theirs. -/
theorem Places.putBytes (places : Places translation place area) (apart : PlacedApart place whole)
    (room : base + size ≤ 2 ^ 64) (inside : ∀ addr, base ≤ addr → addr < base + size → area addr)
    (part : ∀ addr, area addr → whole addr) (here : whole addr) :
    putBytes translation base size bytes mem (place addr) =
      if base ≤ addr ∧ addr < base + size then bytes addr else mem (place addr) := by
  have leads : ∀ index < size, (translation ((base + index) % 2 ^ 64) = some (place addr) ↔ base + index = addr) := by
    intro index small
    have covered := inside (base + index) (by omega) (by omega)
    rw [Nat.mod_eq_of_lt (by omega), places _ covered, Option.some.injEq]
    exact ⟨fun same => apart _ _ (part _ covered) here same, fun same => by rw [same]⟩
  unfold ByteMemory.putBytes
  cases found : (List.range size).find? fun index => translation ((base + index) % 2 ^ 64) = some (place addr) with
  | some index =>
      have small := List.mem_range.mp (List.mem_of_find?_eq_some found)
      have named := (leads index small).mp (by simpa using List.find?_some found)
      dsimp only
      rw [if_pos (by omega), Nat.mod_eq_of_lt (by omega), named]
  | none =>
      have outside : ¬(base ≤ addr ∧ addr < base + size) := by
        rintro ⟨low, high⟩
        have missed := List.find?_eq_none.mp found (addr - base) (List.mem_range.mpr (by omega))
        apply missed
        rw [decide_eq_true_iff, leads _ (by omega)]
        omega
      dsimp only
      rw [if_neg outside]

/-- Bytes that are put in a placed range are shown there. -/
theorem Shows.putBytes {shown shown' : Memory} (shows : Shows place whole mem shown)
    (places : Places translation place area) (apart : PlacedApart place whole) (room : base + size ≤ 2 ^ 64)
    (inside : ∀ addr, base ≤ addr → addr < base + size → area addr) (part : ∀ addr, area addr → whole addr)
    (put : ∀ addr, base ≤ addr → addr < base + size → bytes addr = shown' addr)
    (kept : ∀ addr, whole addr → addr < base ∨ base + size ≤ addr → shown' addr = shown addr) :
    Shows place whole (putBytes translation base size bytes mem) shown' := by
  intro addr here
  rw [places.putBytes apart room inside part here]
  split_ifs with range
  · exact put addr range.1 range.2
  · rw [shows addr here, kept addr here (by omega)]

/-- A placed word is read as it is shown. -/
theorem Shows.loadWord {shown : Memory} (shows : Shows place whole mem shown) (places : Places translation place area)
    (room : base + 8 ≤ 2 ^ 64) (inside : ∀ addr, base ≤ addr → addr < base + 8 → area addr)
    (part : ∀ addr, area addr → whole addr) :
    loadWord (ByteMemory.seen translation mem) base = loadWord shown base := by
  apply loadWord_congr
  intro offset small
  have here : (base + offset) % 2 ^ 64 = base + offset := Nat.mod_eq_of_lt (by omega)
  have covered := inside (base + offset) (by omega) (by omega)
  rw [byteAt, byteAt, here, places.seen covered, shows _ (part _ covered)]

end

end ByteMemory
