import B0s.Library.MemoryFrame
import B0s.Construction.Machine

/-
This file models the accesses to the words of the memory that are narrower than a `u64`.
-/

namespace B0s
open ByteMemory

/-- The low bytes of a word are loaded and stored. -/
def loadU16 (mem : Memory) (addr : Nat) : Nat := (loadBytes mem addr 2).toNat

def loadU32 (mem : Memory) (addr : Nat) : Nat := (loadBytes mem addr 4).toNat

def storeU16 (addr value : Nat) (mem : Memory) : Memory := storeBytes mem addr 2 (BitVec.ofNat 64 value)

def storeU32 (addr value : Nat) (mem : Memory) : Memory := storeBytes mem addr 4 (BitVec.ofNat 64 value)

end B0s
