import B0s.Library.ByteMemory

/-
This file is a library of memories that differ only in an area, as before and after a call, or as two runs do.
-/

namespace ByteMemory

/-- Some low bytes of a word are stored. -/
def storeBytes (mem : Memory) (base count : Nat) (word : BitVec 64) : Memory := fun addr =>
  if distance base addr < count then word.extractLsb' (8 * distance base addr) 8 else mem addr

/-- Bytes are stored one behind the other. -/
def copyBytes (mem : Memory) (base : Nat) : List (BitVec 8) → Memory
  | [] => mem
  | byte :: bytes => copyBytes (Function.update mem (base % 2 ^ 64) byte) (base + 1) bytes

/-- Outside an area two memories have the same bytes. -/
def DifferIn (area : Nat → Prop) (mem mem' : Memory) : Prop :=
  ∀ addr < 2 ^ 64, ¬area addr → mem' addr = mem addr

/-- An address lies in a range. -/
def Within (base size addr : Nat) : Prop := base ≤ addr ∧ addr < base + size

/-- Two ranges are apart. -/
def Apart (base size other size' : Nat) : Prop := base + size ≤ other ∨ other + size' ≤ base

/-- A range lies outside an area. -/
def Spared (area : Nat → Prop) (base size : Nat) : Prop := ∀ offset < size, ¬area (base + offset)

/-- An address is near a base exactly when it lies in the range from it on. -/
theorem distance_lt_iff {base count addr : Nat} (room : base + count ≤ 2 ^ 64) (small : addr < 2 ^ 64) :
    distance base addr < count ↔ Within base count addr := by
  unfold distance Within
  omega

section
variable {area area' : Nat → Prop} {mem mem' mem'' : Memory} {base count : Nat}

theorem DifferIn.refl (area : Nat → Prop) (mem : Memory) : DifferIn area mem mem := fun _ _ _ => rfl

theorem DifferIn.symm (differ : DifferIn area mem mem') : DifferIn area mem' mem :=
  fun addr small outside => (differ addr small outside).symm

theorem DifferIn.trans (first : DifferIn area mem mem') (second : DifferIn area mem' mem'') :
    DifferIn area mem mem'' :=
  fun addr small outside => (second addr small outside).trans (first addr small outside)

theorem DifferIn.mono (differ : DifferIn area mem mem') (wider : ∀ addr < 2 ^ 64, area addr → area' addr) :
    DifferIn area' mem mem' :=
  fun addr small outside => differ addr small fun inside => outside (wider addr small inside)

/-- The same store in both memories keeps their difference. -/
theorem DifferIn.storeBytes (differ : DifferIn area mem mem') (base count : Nat) (word : BitVec 64) :
    DifferIn area (storeBytes mem base count word) (storeBytes mem' base count word) := by
  intro addr small outside
  unfold ByteMemory.storeBytes
  split_ifs with near
  · rfl
  · exact differ addr small outside

theorem DifferIn.storeWord (differ : DifferIn area mem mem') (base : Nat) (word : BitVec 64) :
    DifferIn area (storeWord mem base word) (storeWord mem' base word) :=
  differ.storeBytes base 8 word

theorem DifferIn.fill (differ : DifferIn area mem mem') (base : Nat) (byte : BitVec 8) (size : Nat) :
    DifferIn area (fill mem base byte size) (fill mem' base byte size) := by
  intro addr small outside
  unfold ByteMemory.fill
  split_ifs with near
  · rfl
  · exact differ addr small outside

theorem DifferIn.update (differ : DifferIn area mem mem') (place : Nat) (byte : BitVec 8) :
    DifferIn area (Function.update mem place byte) (Function.update mem' place byte) := by
  intro addr small outside
  by_cases same : addr = place
  · subst same
    rw [Function.update_self, Function.update_self]
  · rw [Function.update_of_ne same, Function.update_of_ne same]
    exact differ addr small outside

theorem DifferIn.copyBytes (differ : DifferIn area mem mem') (base : Nat) (bytes : List (BitVec 8)) :
    DifferIn area (copyBytes mem base bytes) (copyBytes mem' base bytes) := by
  induction bytes generalizing mem mem' base with
  | nil => exact differ
  | cons byte bytes ih => exact ih (differ.update _ byte) (base + 1)

/-- A store in the area keeps to the area. -/
theorem DifferIn.store_inside (differ : DifferIn area mem mem') (word : BitVec 64) (room : base + count ≤ 2 ^ 64)
    (inside : ∀ addr, Within base count addr → area addr) : DifferIn area mem (ByteMemory.storeBytes mem' base count word) := by
  intro addr small outside
  have far : ¬distance base addr < count := fun near => outside (inside addr ((distance_lt_iff room small).mp near))
  rw [ByteMemory.storeBytes, if_neg far]
  exact differ addr small outside

theorem DifferIn.fill_near (differ : DifferIn area mem mem') (byte : BitVec 8)
    (inside : ∀ addr < 2 ^ 64, distance base addr < count → area addr) :
    DifferIn area mem (ByteMemory.fill mem' base byte count) := by
  intro addr small outside
  have far : ¬distance base addr < count := fun near => outside (inside addr small near)
  rw [ByteMemory.fill, if_neg far]
  exact differ addr small outside

theorem DifferIn.fill_inside (differ : DifferIn area mem mem') (byte : BitVec 8) (room : base + count ≤ 2 ^ 64)
    (inside : ∀ addr, Within base count addr → area addr) : DifferIn area mem (ByteMemory.fill mem' base byte count) :=
  differ.fill_near byte fun addr small near => inside addr ((distance_lt_iff room small).mp near)

theorem DifferIn.update_inside (differ : DifferIn area mem mem') {place : Nat} (byte : BitVec 8) (inside : area place) :
    DifferIn area mem (Function.update mem' place byte) := by
  intro addr small outside
  have other : addr ≠ place := fun same => outside (same ▸ inside)
  rw [Function.update_of_ne other]
  exact differ addr small outside

theorem DifferIn.copy_inside (differ : DifferIn area mem mem') {bytes : List (BitVec 8)}
    (room : base + bytes.length ≤ 2 ^ 64) (inside : ∀ addr, Within base bytes.length addr → area addr) :
    DifferIn area mem (ByteMemory.copyBytes mem' base bytes) := by
  induction bytes generalizing mem' base with
  | nil => exact differ
  | cons byte bytes ih =>
      rw [List.length_cons] at room inside
      have place : base % 2 ^ 64 = base := Nat.mod_eq_of_lt (by omega)
      apply ih
      · apply differ.update_inside
        rw [place]
        exact inside base ⟨le_rfl, by omega⟩
      · omega
      · rintro addr ⟨low, high⟩
        exact inside addr ⟨by omega, by omega⟩

/-- The bytes stand where they were copied to. -/
theorem copyBytes_inside {bytes : List (BitVec 8)} (room : base + bytes.length ≤ 2 ^ 64) {index : Nat}
    (inside : index < bytes.length) : ByteMemory.copyBytes mem base bytes (base + index) = bytes[index] := by
  induction bytes generalizing mem base index with
  | nil => cases inside
  | cons byte bytes ih =>
      rw [List.length_cons] at room inside
      have place : base % 2 ^ 64 = base := Nat.mod_eq_of_lt (by omega)
      rw [ByteMemory.copyBytes, place]
      cases index with
      | zero =>
          have later := (DifferIn.refl (Within (base + 1) bytes.length) (Function.update mem base byte)).copy_inside
            (by omega : base + 1 + bytes.length ≤ 2 ^ 64) (fun _ inside => inside) base (by omega)
          have outside : ¬Within (base + 1) bytes.length base := fun ⟨low, _⟩ => Nat.not_succ_le_self base low
          exact (later outside).trans (Function.update_self base byte mem)
      | succ index =>
          have rest := @ih (Function.update mem base byte) (base + 1) (by omega) index (by omega)
          have next : base + (index + 1) = base + 1 + index := by omega
          rw [next, rest, List.getElem_cons_succ]

/-- Bytes outside the area are read alike. -/
theorem DifferIn.loadBytes (differ : DifferIn area mem mem') (room : base + count ≤ 2 ^ 64)
    (spared : Spared area base count) : loadBytes mem' base count = loadBytes mem base count := by
  induction count with
  | zero => rfl
  | succ count ih =>
      have inside : (base + count) % 2 ^ 64 = base + count := Nat.mod_eq_of_lt (by omega)
      have byte : mem' (base + count) = mem (base + count) := differ _ (by omega) (spared count (Nat.lt_succ_self count))
      rw [ByteMemory.loadBytes, ByteMemory.loadBytes,
        ih (by omega) (fun offset less => spared offset (Nat.lt_succ_of_lt less)), byteAt, byteAt, inside, byte]

theorem DifferIn.loadWord (differ : DifferIn area mem mem') (room : base + 8 ≤ 2 ^ 64) (spared : Spared area base 8) :
    loadWord mem' base = loadWord mem base :=
  differ.loadBytes room spared

end

end ByteMemory
