import Mathlib.Data.Nat.Bitwise
import Mathlib.Tactic

/-
This file fixes the machine words, the arithmetic macros, and the ways a kernel call can end.
-/

namespace B0s

/-- A pointer is an address, and the null pointer is the address zero. -/
def NULL : Nat := 0

/-- A `u64` value is reduced modulo its width. -/
def u64 (value : Nat) : Nat := value % 2 ^ 64

/-- A `u64` difference wraps around zero. -/
def subU64 (left right : Nat) : Nat := (left + 2 ^ 64 - right) % 2 ^ 64

/-- The expression `1 << count` has type `int`, so its sign extends to `u64` at 31 and the language
leaves it undefined from 32 on. -/
def intShift (undefined : Nat → Nat) (count : Nat) : Nat :=
  if count < 31 then 2 ^ count
  else if count = 31 then 2 ^ 64 - 2 ^ 31
  else u64 (undefined count)

/-- The complement of a `u64` value flips all its bits. -/
def notU64 (value : Nat) : Nat := 2 ^ 64 - 1 - value

def pageSizeInBytes : Nat := 4096

/-- This is the `PAGE_ADDR` macro for pages of 4096 bytes. -/
def pageAddr (addr : Nat) : Nat := addr &&& (2 ^ 64 - 4096)

/-- This is the `ROUNDUP` macro, which always adds the size before it masks. -/
def roundUp (number size : Nat) : Nat := u64 (number + size) &&& (2 ^ 64 - size)

/-- Each panic of the source has its own name. -/
inductive Panic where
  | vmmInsertRangeOverlapsNext (vaStop nextStart : Nat)
  | vmmInsertRangeOverlapsPrev (vaStart prevStop : Nat)
  | vmmRemoveRangeNotMatched (vaStart vaStop : Nat)
  | vmmRemoveRangeNotContiguous
  | vmmAllocBetweenOverwrite (va : Nat)
  | vmmAllocAtOverwrite (va : Nat)
  | vmmMapOverwrite (va : Nat)
  | vmmFreeNotMapped (va : Nat)
  | vmmCopyRegionsCorrupted
  | mmuCopyPagesOverwrite
  | pageFault
  | mmuTestKernelMappingDiffers (addr old new : Nat)
  | mmuTestCompareMappingStart
  | mmuTestCompareMappingStop
  | mmuTestCompareMappingFlags
  | mmuTestCompareMappingAddress
  | mmuTestCompareMappingCount
  | vmmInitContiguousMapped (va pa : Nat)
  | vmmInitDirectMappingDam
  | vmmInitDirectMappingMapped (va pa : Nat)
  | kheapInitFailed
  | kmallocImpossible
  | pmapInsertOverlap
  | pmapInitNotBigEnough
  | pmmXallocNoMemory
  | pmmFreeNotFreeable (page : Nat)
  | pmmFreeBadPage (page : Nat)
  | processExhaustedPids
  | blockFreeUnknownPointer
  | acpiInvalidRsdp
  | acpiInvalidRsdt
  | acpiInvalidMadt
  deriving DecidableEq, Repr

/-- A call that does not return panics, follows the null pointer, or walks a list forever. -/
inductive Fault where
  | panic (reason : Panic)
  | nullAccess
  | diverges
  deriving DecidableEq, Repr

/-- A kernel call returns a value or faults. -/
abbrev Outcome (A : Type) := Except Fault A

/-- The call returns no value because it panics. -/
def Outcome.Panics {A : Type} (outcome : Outcome A) : Prop :=
  ∃ reason, outcome = .error (.panic reason)

/-- The call returns a value. -/
def Outcome.Returns {A : Type} (outcome : Outcome A) : Prop :=
  ∃ value, outcome = .ok value

@[simp] theorem Outcome.panics_panic {A : Type} (reason : Panic) :
    Outcome.Panics (.error (.panic reason) : Outcome A) :=
  ⟨reason, rfl⟩

theorem Outcome.ok_bind {A B : Type} (value : A) (next : A → Outcome B) :
    ((.ok value : Outcome A) >>= next) = next value := rfl

theorem Outcome.error_bind {A B : Type} (fault : Fault) (next : A → Outcome B) :
    ((.error fault : Outcome A) >>= next) = .error fault := rfl

/-- A sequence of two calls returns exactly when both return. -/
theorem Outcome.bind_eq_ok {A B : Type} {call : Outcome A} {next : A → Outcome B} {value : B} :
    (call >>= next) = .ok value ↔ ∃ middle, call = .ok middle ∧ next middle = .ok value := by
  cases call with
  | error fault => simp [bind, Except.bind]
  | ok middle => simp [bind, Except.bind]

/-- A sequence of two calls faults exactly when one of them does. -/
theorem Outcome.bind_eq_error {A B : Type} {call : Outcome A} {next : A → Outcome B} {fault : Fault} :
    (call >>= next) = .error fault ↔
      call = .error fault ∨ ∃ middle, call = .ok middle ∧ next middle = .error fault := by
  cases call with
  | error reason => simp [bind, Except.bind]
  | ok middle => simp [bind, Except.bind]

/-- A call whose value is mapped returns exactly when it returns. -/
theorem Outcome.map_eq_ok {A B : Type} {call : Outcome A} {f : A → B} {value : B} :
    Except.map f call = .ok value ↔ ∃ middle, call = .ok middle ∧ f middle = value := by
  cases call with
  | error fault => simp [Except.map]
  | ok middle => simp [Except.map]

/-- A walk that takes more steps than there are addresses never ends. -/
def walkLimit : Nat := 2 ^ 64

end B0s
