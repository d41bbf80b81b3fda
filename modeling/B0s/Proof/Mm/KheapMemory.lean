import B0s.Construction.Mm.Kheap

/-
This file proves how stores to aligned words change the loads and the bytes of memory.
-/

namespace B0s
open ByteMemory

/-- An aligned word lies below the end of the address space. -/
structure Word (addr : Nat) : Prop where
  aligned : addr % 8 = 0
  room : addr + 8 ≤ 2 ^ 64

/-- Two memories agree outside the words of a list. -/
def Agrees (words : List Nat) (mem mem' : Memory) : Prop :=
  ∀ addr < 2 ^ 64, (∀ word ∈ words, addr < word ∨ word + 8 ≤ addr) → mem' addr = mem addr

theorem Agrees.refl (mem : Memory) : Agrees [] mem mem := fun _ _ _ => rfl

section
variable {words : List Nat} {mem mem' : Memory} {addr value : Nat}

theorem Agrees.storeU64 (agrees : Agrees words mem mem') (word : Word addr) :
    Agrees (addr :: words) mem (storeU64 addr value mem') := by
  intro other small outside
  have here := outside addr List.mem_cons_self
  rw [B0s.storeU64, storeWord_outside _ _ word.room small here]
  exact agrees other small fun word member => outside word (List.mem_cons_of_mem _ member)

theorem Agrees.storeU8 (agrees : Agrees words mem mem') (word : Word addr) :
    Agrees (addr :: words) mem (storeU8 addr value mem') := by
  intro other small outside
  have room := word.room
  have here := outside addr List.mem_cons_self
  have inside : u64 addr = addr := by
    unfold u64
    omega
  rw [B0s.storeU8, inside, Function.update_of_ne (by omega)]
  exact agrees other small fun word member => outside word (List.mem_cons_of_mem _ member)

theorem Agrees.mono {words' : List Nat} (agrees : Agrees words mem mem')
    (subset : ∀ word ∈ words, word ∈ words') : Agrees words' mem mem' := by
  intro other small outside
  exact agrees other small fun word member => outside word (subset word member)

theorem Agrees.trans {words' : List Nat} {mem'' : Memory} (first : Agrees words mem mem')
    (second : Agrees words' mem' mem'') : Agrees (words ++ words') mem mem'' := by
  intro other small outside
  rw [second other small fun word member => outside word (List.mem_append_right _ member),
    first other small fun word member => outside word (List.mem_append_left _ member)]

/-- A word outside the list is loaded as before. -/
theorem Agrees.loadU64 (agrees : Agrees words mem mem') (aligned : ∀ word ∈ words, word % 8 = 0)
    (word : Word addr) (outside : addr ∉ words) : loadU64 mem' addr = loadU64 mem addr := by
  have same : loadWord mem' addr = loadWord mem addr := by
    apply loadWord_congr
    intro offset small
    have room := word.room
    have inside : (addr + offset) % 2 ^ 64 = addr + offset := Nat.mod_eq_of_lt (by omega)
    rw [byteAt, byteAt, inside]
    apply agrees _ (by omega)
    intro other member
    have first := aligned other member
    have second := word.aligned
    have different : other ≠ addr := fun equal => outside (equal ▸ member)
    omega
  rw [B0s.loadU64, B0s.loadU64, same]

theorem Agrees.loadU8 (agrees : Agrees words mem mem') (aligned : ∀ word ∈ words, word % 8 = 0)
    (word : Word addr) (outside : addr ∉ words) : loadU8 mem' addr = loadU8 mem addr := by
  have room := word.room
  have inside : u64 addr = addr := by
    unfold u64
    omega
  have same : mem' addr = mem addr := by
    apply agrees _ (by omega)
    intro other member
    have first := aligned other member
    have second := word.aligned
    have different : other ≠ addr := fun equal => outside (equal ▸ member)
    omega
  rw [B0s.loadU8, B0s.loadU8, inside, same]

theorem loadU64_storeU64 (small : value < 2 ^ 64) : loadU64 (storeU64 addr value mem) addr = value := by
  rw [loadU64, storeU64, loadWord_storeWord, BitVec.toNat_ofNat, Nat.mod_eq_of_lt small]

theorem loadU64_lt (mem : Memory) (addr : Nat) : loadU64 mem addr < 2 ^ 64 := BitVec.isLt _

theorem loadU64_storeU64_ne {other : Nat} (aligned : addr % 8 = 0) (room : addr + 8 ≤ 2 ^ 64)
    (aligned' : other % 8 = 0) (room' : other + 8 ≤ 2 ^ 64) (different : other ≠ addr) :
    loadU64 (storeU64 addr value mem) other = loadU64 mem other := by
  apply ((Agrees.refl mem).storeU64 ⟨aligned, room⟩).loadU64 _ ⟨aligned', room'⟩
  · simpa using different
  · simpa using aligned

theorem loadU64_storeU8_ne {other : Nat} (aligned : addr % 8 = 0) (room : addr + 8 ≤ 2 ^ 64)
    (aligned' : other % 8 = 0) (room' : other + 8 ≤ 2 ^ 64) (different : other ≠ addr) :
    loadU64 (storeU8 addr value mem) other = loadU64 mem other := by
  apply ((Agrees.refl mem).storeU8 ⟨aligned, room⟩).loadU64 _ ⟨aligned', room'⟩
  · simpa using different
  · simpa using aligned

theorem loadU8_storeU64_ne {other : Nat} (aligned : addr % 8 = 0) (room : addr + 8 ≤ 2 ^ 64)
    (aligned' : other % 8 = 0) (room' : other + 8 ≤ 2 ^ 64) (different : other ≠ addr) :
    loadU8 (storeU64 addr value mem) other = loadU8 mem other := by
  apply ((Agrees.refl mem).storeU64 ⟨aligned, room⟩).loadU8 _ ⟨aligned', room'⟩
  · simpa using different
  · simpa using aligned

/-- This store is made unless its base is null. -/
def storeUnlessNull (base addr value : Nat) (mem : Memory) : Memory :=
  if base ≠ NULL then storeU64 addr value mem else mem

theorem Agrees.storeUnlessNull (agrees : Agrees words mem mem') {base : Nat}
    (word : base ≠ NULL → Word addr) :
    Agrees (addr :: words) mem (storeUnlessNull base addr value mem') := by
  unfold B0s.storeUnlessNull
  split_ifs with nonnull
  · exact agrees.storeU64 (word nonnull)
  · exact agrees.mono fun word member => List.mem_cons_of_mem _ member

theorem loadU64_storeUnlessNull_ne {base other : Nat} (word : base ≠ NULL → Word addr)
    (aligned' : other % 8 = 0) (room' : other + 8 ≤ 2 ^ 64) (different : base ≠ NULL → other ≠ addr) :
    loadU64 (storeUnlessNull base addr value mem) other = loadU64 mem other := by
  unfold storeUnlessNull
  split_ifs with nonnull
  · exact loadU64_storeU64_ne (word nonnull).aligned (word nonnull).room aligned' room' (different nonnull)
  · rfl

theorem loadU8_storeUnlessNull_ne {base other : Nat} (word : base ≠ NULL → Word addr)
    (aligned' : other % 8 = 0) (room' : other + 8 ≤ 2 ^ 64) (different : base ≠ NULL → other ≠ addr) :
    loadU8 (storeUnlessNull base addr value mem) other = loadU8 mem other := by
  unfold storeUnlessNull
  split_ifs with nonnull
  · exact loadU8_storeU64_ne (word nonnull).aligned (word nonnull).room aligned' room' (different nonnull)
  · rfl

theorem loadU8_storeU8 (small : value < 256) : loadU8 (storeU8 addr value mem) addr = value := by
  rw [loadU8, storeU8, Function.update_self, BitVec.toNat_ofNat, Nat.mod_eq_of_lt small]

end

end B0s
