import B0s.Library.WordBits
import B0s.Construction.Lib.Word

/-
This file proves that the masks of the arithmetic macros round to pages, and that narrow words are small.
-/

namespace B0s
open ByteMemory

theorem subU64_eq {left right : Nat} (small : left < 2 ^ 64) (order : right ≤ left) :
    subU64 left right = left - right := by
  unfold subU64
  omega

theorem loadU32_lt (mem : Memory) (addr : Nat) : loadU32 mem addr < 2 ^ 32 :=
  loadBytes_lt mem addr 4

theorem pageAddr_eq {addr : Nat} (bounded : addr < 2 ^ 64) :
    pageAddr addr = addr / pageSizeInBytes * pageSizeInBytes :=
  WordBits.and_high_mask (by decide : 12 ≤ 64) bounded

theorem pageAddr_lt (addr : Nat) : pageAddr addr < 2 ^ 64 := by
  have bound : pageAddr addr ≤ 2 ^ 64 - 4096 := Nat.and_le_right
  omega

theorem pageAddr_mod (addr : Nat) : pageAddr addr = addr % 2 ^ 64 / pageSizeInBytes * pageSizeInBytes := by
  have reduced : pageAddr addr = pageAddr (addr % 2 ^ 64) := by
    have masked := @Nat.and_mod_two_pow addr (2 ^ 64 - 4096) 64
    have small := Nat.mod_eq_of_lt (pageAddr_lt addr)
    unfold pageAddr at small ⊢
    rw [small] at masked
    exact masked
  rw [reduced, pageAddr_eq (Nat.mod_lt _ (by decide))]

theorem pageAddr_aligned (addr : Nat) : pageAddr addr % pageSizeInBytes = 0 := by
  rw [pageAddr_mod]
  exact Nat.mul_mod_left _ _

/-- The `ROUNDUP` of the byte before an end is the first page boundary at or behind the end. -/
theorem roundUp_pred (stop : Nat) :
    roundUp (subU64 stop 1) pageSizeInBytes =
      (stop + 4095) % 2 ^ 64 / pageSizeInBytes * pageSizeInBytes := by
  have bounded : u64 (subU64 stop 1 + pageSizeInBytes) < 2 ^ 64 := Nat.mod_lt _ (by decide)
  have masked := WordBits.and_high_mask (by decide : 12 ≤ 64) bounded
  have reduced : u64 (subU64 stop 1 + pageSizeInBytes) = (stop + 4095) % 2 ^ 64 := by
    unfold u64 subU64 pageSizeInBytes
    omega
  rw [roundUp, ← reduced]
  exact masked

end B0s
