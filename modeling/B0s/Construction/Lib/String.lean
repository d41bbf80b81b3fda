import B0s.Library.MemoryFrame
import B0s.Construction.Machine

/-
This file models the functions of `string.h` on bytes that are read by their index.
-/

namespace B0s
open ByteMemory

/-- These are the bytes from a `char *` on. -/
abbrev Str := Nat → BitVec 8

/-- A pointer leads to bytes of the memory. -/
def bytesAt (mem : Memory) (ptr : Nat) : Str := fun i => mem (u64 (ptr + i))

/-- The first null character of a string stands at its length. -/
structure Str.Terminated (str : Str) (len : Nat) : Prop where
  chars : ∀ index < len, str index ≠ 0
  null : str len = 0
  small : len < 2 ^ 64

/-- The loop of `strlen` ends at the null character, or when the maximum is used up. -/
def strlenFrom (str : Str) : Nat → Nat → Nat
  | 0, i => i
  | max + 1, i => if str i = 0 then i else strlenFrom str max (i + 1)

def strlen (str : Str) (max : Nat) : Nat := strlenFrom str max 0

def memcpy (dst : Nat) (src : Str) (n : Nat) (mem : Memory) : Memory := copyBytes mem dst ((List.range n).map src)

/-- The loop of `memcmp` compares the last bytes first. -/
def memcmp (a b : Str) : Nat → Nat
  | 0 => 0
  | size + 1 => if a size ≠ b size then 1 else memcmp a b size

/-- The loop of `strcpy` copies a byte before it tests the next one. The read indices are listed. -/
def strcpyFrom (src : Str) : Nat → Nat → Str → Outcome (Str × List Nat)
  | 0, _, _ => .error .diverges
  | steps + 1, i, dst => do
      let dst := Function.update dst i (src i)
      let next := u64 (i + 1)
      if src next = 0 then .ok (dst, [i, next])
      else do
        let (dst, reads) ← strcpyFrom src steps next dst
        .ok (dst, i :: next :: reads)

def strcpy (dst src : Str) : Outcome (Str × List Nat) := strcpyFrom src walkLimit 0 dst

end B0s
