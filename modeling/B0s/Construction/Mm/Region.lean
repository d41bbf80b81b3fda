import B0s.Construction.Mm.Allocator

/-
This file models the region lists of `vmm.c` as linked records in kernel memory.
-/

namespace B0s

structure VmmRegion where
  vaStart : Nat
  vaStop : Nat
  next : Nat
  prev : Nat
  flags : Nat
  deriving DecidableEq, Repr

structure VmmSpace where
  pageDirectory : Nat
  region : Nat
  deriving DecidableEq, Repr

/-- Kernel memory holds the records, the words of the direct mapping, and the allocators. -/
structure Kernel (σ : Type) where
  region : Nat → VmmRegion
  space : Nat → VmmSpace
  word : Nat → Nat
  env : σ

namespace Kernel

variable {σ : Type}

/-- Zeroed memory holds no record. -/
def zeroed (env : σ) : Kernel σ :=
  ⟨fun _ => ⟨0, 0, 0, 0, 0⟩, fun _ => ⟨0, 0⟩, fun _ => 0, env⟩

/-- Write one region record. -/
def setRegion (kernel : Kernel σ) (ptr : Nat) (record : VmmRegion) : Kernel σ :=
  { kernel with region := Function.update kernel.region ptr record }

/-- Write the first-region pointer of a space. -/
def setHead (kernel : Kernel σ) (space head : Nat) : Kernel σ :=
  { kernel with
    space := Function.update kernel.space space { kernel.space space with region := head } }

/-- Write the `next` pointer of a region. -/
def setNext (kernel : Kernel σ) (ptr next : Nat) : Kernel σ :=
  kernel.setRegion ptr { kernel.region ptr with next := next }

/-- Write the `prev` pointer of a region. -/
def setPrev (kernel : Kernel σ) (ptr prev : Nat) : Kernel σ :=
  kernel.setRegion ptr { kernel.region ptr with prev := prev }

/-- Write the `va_start` field of a region. -/
def setStart (kernel : Kernel σ) (ptr : Nat) (vaStart : Nat) : Kernel σ :=
  kernel.setRegion ptr { kernel.region ptr with vaStart := vaStart }

/-- Write the `va_stop` field of a region. -/
def setStop (kernel : Kernel σ) (ptr : Nat) (vaStop : Nat) : Kernel σ :=
  kernel.setRegion ptr { kernel.region ptr with vaStop := vaStop }

@[simp] theorem setHead_region (kernel : Kernel σ) (space head : Nat) :
    (kernel.setHead space head).region = kernel.region := rfl

theorem setNext_region (kernel : Kernel σ) (ptr next other : Nat) :
    (kernel.setNext ptr next).region other =
      if other = ptr then { kernel.region ptr with next := next } else kernel.region other := by
  simp only [setNext, setRegion, Function.update_apply]

theorem setPrev_region (kernel : Kernel σ) (ptr prev other : Nat) :
    (kernel.setPrev ptr prev).region other =
      if other = ptr then { kernel.region ptr with prev := prev } else kernel.region other := by
  simp only [setPrev, setRegion, Function.update_apply]

end Kernel

section
variable {σ : Type} (objects : ObjectCalls σ)

/-- The part of `vmm_create_region` behind the allocation of its record. -/
def linkRegion (space vaStart vaStop flags : Nat) (prev next region : Nat) (kernel : Kernel σ) : Kernel σ :=
  let kernel := if prev = NULL then kernel.setHead space region else kernel
  let kernel := kernel.setRegion region ⟨vaStart, vaStop, next, prev, flags⟩
  let kernel := if prev ≠ NULL then kernel.setNext prev region else kernel
  if next ≠ NULL then kernel.setPrev next region else kernel

def vmmCreateRegion (space vaStart vaStop flags : Nat) (prev next : Nat)
    (kernel : Kernel σ) : Outcome (Nat × Kernel σ) := do
  let (region, env) ← objects.blockAlloc .vmmRegion kernel.env
  .ok (region, linkRegion space vaStart vaStop flags prev next region { kernel with env := env })

/-- The part of `vmm_remove_region` in front of the release of its record. -/
def unlinkRegion (space region : Nat) (kernel : Kernel σ) : Kernel σ :=
  if (kernel.region region).prev = NULL ∧ (kernel.region region).next = NULL then
    kernel.setHead space NULL
  else
    let kernel := if (kernel.space space).region = region then
      kernel.setHead space (kernel.region region).next else kernel
    let kernel := if (kernel.region region).prev ≠ NULL then
      kernel.setNext (kernel.region region).prev (kernel.region region).next else kernel
    if (kernel.region region).next ≠ NULL then
      kernel.setPrev (kernel.region region).next (kernel.region region).prev else kernel

def vmmRemoveRegion (space region : Nat) (kernel : Kernel σ) : Outcome (Kernel σ) := do
  let kernel := unlinkRegion space region kernel
  let env ← objects.blockFree .vmmRegion region kernel.env
  .ok { kernel with env := env }

def vmmInsertRange (space prev next vaStart vaStop flags : Nat) (kernel : Kernel σ) :
    Outcome (Nat × Kernel σ) :=
  if next ≠ NULL ∧ vaStop > (kernel.region next).vaStart then
    .error (.panic (.vmmInsertRangeOverlapsNext vaStop (kernel.region next).vaStart))
  else if prev ≠ NULL ∧ vaStart < (kernel.region prev).vaStop then
    .error (.panic (.vmmInsertRangeOverlapsPrev vaStart (kernel.region prev).vaStop))
  else
    let connectedWithPrev : Prop := prev ≠ NULL ∧ vaStart = (kernel.region prev).vaStop ∧
      flags = (kernel.region prev).flags
    let connectedWithNext : Prop := next ≠ NULL ∧ vaStop = (kernel.region next).vaStart ∧
      (kernel.region next).flags = flags
    if connectedWithPrev ∧ connectedWithNext then do
      let kernel ← vmmRemoveRegion objects space next (kernel.setStop prev (kernel.region next).vaStop)
      .ok (prev, kernel)
    else if connectedWithPrev then .ok (prev, kernel.setStop prev vaStop)
    else if connectedWithNext then .ok (next, kernel.setStart next vaStart)
    else vmmCreateRegion objects space vaStart vaStop flags prev next kernel

/-- The search loop of `vmm_add_range` advances `prev` and `cur` until the range fits before `cur`. -/
def vmmAddRangeSearch (kernel : Kernel σ) (vaStart vaStop : Nat) :
    Nat → Nat → Nat → Outcome (Nat × Nat)
  | 0, _, _ => .error .diverges
  | steps + 1, prev, cur =>
      if cur = NULL then .ok (prev, cur)
      else if (prev = NULL ∨ vaStart > (kernel.region prev).vaStart) ∧
          vaStop < (kernel.region cur).vaStop then .ok (prev, cur)
      else vmmAddRangeSearch kernel vaStart vaStop steps cur (kernel.region cur).next

/-- The assertions on alignment and on `va_start != va_stop` are compiled only in debug builds. -/
def vmmAddRange (space vaStart vaStop flags : Nat) (kernel : Kernel σ) :
    Outcome (Nat × Kernel σ) :=
  if (kernel.space space).region = NULL then
    vmmCreateRegion objects space vaStart vaStop flags NULL NULL kernel
  else do
    let (prev, cur) ←
      vmmAddRangeSearch kernel vaStart vaStop walkLimit NULL (kernel.space space).region
    vmmInsertRange objects space prev cur vaStart vaStop flags kernel

/-- The search loop of `vmm_remove_range` finds the region that holds `va_start`. -/
def vmmRemoveRangeSearch (kernel : Kernel σ) (vaStart : Nat) : Nat → Nat → Outcome Nat
  | 0, _ => .error .diverges
  | steps + 1, region =>
      if region = NULL then .ok region
      else if vaStart ≥ (kernel.region region).vaStart ∧
          vaStart < (kernel.region region).vaStop then .ok region
      else vmmRemoveRangeSearch kernel vaStart steps (kernel.region region).next

def vmmRemoveRange (space vaStart vaStop : Nat) (kernel : Kernel σ) :
    Outcome (Kernel σ) := do
  let region ← vmmRemoveRangeSearch kernel vaStart walkLimit (kernel.space space).region
  if region = NULL then .error (.panic (.vmmRemoveRangeNotMatched vaStart vaStop))
  else if vaStop > (kernel.region region).vaStop then .error (.panic .vmmRemoveRangeNotContiguous)
  else if (kernel.region region).vaStart = vaStart ∧ (kernel.region region).vaStop = vaStop then
    vmmRemoveRegion objects space region kernel
  else if (kernel.region region).vaStart = vaStart then .ok (kernel.setStart region vaStop)
  else if (kernel.region region).vaStop = vaStop then .ok (kernel.setStop region vaStart)
  else do
    let flags := (kernel.region region).flags
    let regionVaStart := (kernel.region region).vaStart
    let regionVaStop := (kernel.region region).vaStop
    let kernel ← vmmRemoveRegion objects space region kernel
    let (_, kernel) ← vmmAddRange objects space regionVaStart vaStart flags kernel
    let (_, kernel) ← vmmAddRange objects space vaStop regionVaStop flags kernel
    .ok kernel

end

end B0s
