import B0s.Proof.Mm.RegionRange

/-
This file proves the region invariant over every run of range calls.
-/

namespace B0s
open DoublyLinked RangeMap

variable {σ : Type}

/-- A client of the region list adds or removes one range of pages. -/
inductive RangeCall where
  | add (vaStart vaStop flags : Nat)
  | remove (vaStart vaStop : Nat)
  deriving DecidableEq, Repr

/-- The bounds of a window are page-aligned addresses in ascending order. -/
structure PageWindow (vaStart vaStop : Nat) : Prop where
  alignedStart : vaStart % pageSizeInBytes = 0
  alignedStop : vaStop % pageSizeInBytes = 0
  ascending : vaStart < vaStop
  addressable : vaStop < 2 ^ 64

def RangeCall.Valid : RangeCall → Prop
  | .add vaStart vaStop _ => PageWindow vaStart vaStop
  | .remove vaStart vaStop => PageWindow vaStart vaStop

def RangeCall.run (objects : ObjectAllocator σ) (space : Nat) :
    RangeCall → Kernel σ → Outcome (Kernel σ)
  | .add vaStart vaStop flags, kernel =>
      (vmmAddRange objects space vaStart vaStop flags kernel).map Prod.snd
  | .remove vaStart vaStop, kernel => vmmRemoveRange objects space vaStart vaStop kernel

/-- A run performs its calls in order and stops at the first fault. -/
def runRangeCalls (objects : ObjectAllocator σ) (space : Nat) :
    List RangeCall → Kernel σ → Outcome (Kernel σ)
  | [], kernel => .ok kernel
  | call :: calls, kernel => call.run objects space kernel >>= runRangeCalls objects space calls

/-- The reference map sets the window of an addition and clears the window of a removal. -/
def RangeCall.reference : RangeCall → (Nat → Option Nat) → Nat → Option Nat
  | .add vaStart vaStop flags, map, va => if vaStart ≤ va ∧ va < vaStop then some flags else map va
  | .remove vaStart vaStop, map, va => if vaStart ≤ va ∧ va < vaStop then none else map va

def referenceMap (calls : List RangeCall) (map : Nat → Option Nat) : Nat → Option Nat :=
  calls.foldl (fun map call => call.reference map) map

/-- The space holds a canonical list of regions that denotes the map. -/
structure SpaceDenotes (objects : ObjectAllocator σ) (kernel : Kernel σ) (space : Nat)
    (ptrs : List Nat) (map : Nat → Option Nat) : Prop where
  listed : SpaceList objects kernel space ptrs
  canonical : Canonical (kernel.ranges ptrs)
  bounded : kernel.Bounded ptrs
  denotes : ∀ va flags, Denotes (kernel.ranges ptrs) va flags ↔ map va = some flags

/-- A space without regions denotes the empty map. -/
theorem spaceDenotes_empty (objects : ObjectAllocator σ) {kernel : Kernel σ} {space : Nat}
    (empty : (kernel.space space).region = NULL) :
    SpaceDenotes objects kernel space [] fun _ => none where
  listed := ⟨empty, trivial, List.nodup_nil, by simp⟩
  canonical := canonical_nil
  bounded va flags denoted := absurd denoted (denotes_nil va flags)
  denotes va flags := by simp

section
variable {objects : ObjectAllocator σ} {kernel : Kernel σ} {space : Nat} {ptrs : List Nat}
  {map : Nat → Option Nat}

/-- Adding a range panics exactly when it meets a region, and otherwise sets its window. -/
theorem SpaceDenotes.add (held : SpaceDenotes objects kernel space ptrs map)
    {vaStart vaStop : Nat} (window : PageWindow vaStart vaStop) (flags : Nat) :
    (¬kernel.Vacant ptrs vaStart vaStop ∧
      Outcome.Panics (vmmAddRange objects space vaStart vaStop flags kernel)) ∨
    (kernel.Vacant ptrs vaStart vaStop ∧ ∃ region kernel' ptrs',
      vmmAddRange objects space vaStart vaStop flags kernel = .ok (region, kernel') ∧
      SpaceDenotes objects kernel' space ptrs'
        (RangeCall.reference (.add vaStart vaStop flags) map)) := by
  by_cases vacant : kernel.Vacant ptrs vaStart vaStop
  · right
    refine ⟨vacant, ?_⟩
    obtain ⟨region, kernel', ptrs', ranges, added, relisted, -, inserts⟩ :=
      vmmAddRange_vacant held.listed held.canonical held.bounded window.ascending flags vacant
    have denotes := inserts.denotes held.canonical window.ascending
    have canonical := inserts.canonical held.canonical window.ascending
    rw [← relisted.ranges_eq] at denotes canonical
    have empty := (held.canonical.vacant_iff window.ascending).mp vacant
    refine ⟨region, kernel', ptrs', added, relisted.listed, canonical, ?_, ?_⟩
    · intro va flags' denoted
      rcases (denotes va flags').mp denoted with ⟨inside, -⟩ | old
      · have below : va < vaStop := inside.2
        have limit := window.addressable
        omega
      · exact held.bounded va flags' old
    · intro va flags'
      rw [denotes, held.denotes]
      simp only [RangeCall.reference]
      split_ifs with inside
      · have none : ∀ flags', map va ≠ some flags' := fun flags' present =>
          empty va inside.1 inside.2 flags' ((held.denotes va flags').mpr present)
        simp [Range.Contains, inside, none]
      · have outside : ¬(Range.Contains (⟨vaStart, vaStop, flags⟩ : Range Nat Nat) va) := inside
        simp [outside]
  · left
    exact ⟨vacant, vmmAddRange_occupied held.listed held.canonical held.bounded window.ascending
      flags vacant⟩

/-- Removing a window panics exactly when no single region contains it, and otherwise clears it. -/
theorem SpaceDenotes.remove (held : SpaceDenotes objects kernel space ptrs map)
    {vaStart vaStop : Nat} (window : PageWindow vaStart vaStop) :
    ((¬∃ range ∈ kernel.ranges ptrs, range.start ≤ vaStart ∧ vaStop ≤ range.stop) ∧
      Outcome.Panics (vmmRemoveRange objects space vaStart vaStop kernel)) ∨
    ((∃ range ∈ kernel.ranges ptrs, range.start ≤ vaStart ∧ vaStop ≤ range.stop) ∧
      ∃ kernel' ptrs', vmmRemoveRange objects space vaStart vaStop kernel = .ok kernel' ∧
        SpaceDenotes objects kernel' space ptrs'
          (RangeCall.reference (.remove vaStart vaStop) map)) := by
  by_cases contained : ∃ range ∈ kernel.ranges ptrs, range.start ≤ vaStart ∧ vaStop ≤ range.stop
  · right
    refine ⟨contained, ?_⟩
    obtain ⟨kernel', ptrs', ranges, removed, relisted, canonical, denotes⟩ :=
      vmmRemoveRange_contained held.listed held.canonical held.bounded window.ascending contained
    rw [← relisted.ranges_eq] at canonical denotes
    refine ⟨kernel', ptrs', removed, relisted.listed, canonical, ?_, ?_⟩
    · intro va flags denoted
      exact held.bounded va flags ((denotes va flags).mp denoted).1
    · intro va flags
      rw [denotes, held.denotes]
      simp only [RangeCall.reference]
      split_ifs with inside
      · simp [inside]
      · simp [inside]
  · left
    exact ⟨contained, vmmRemoveRange_uncontained held.listed held.canonical held.bounded contained⟩

/-- A call that returns keeps the representation of the reference map. -/
theorem SpaceDenotes.step (held : SpaceDenotes objects kernel space ptrs map) {call : RangeCall}
    (valid : call.Valid) {kernel' : Kernel σ}
    (reached : call.run objects space kernel = .ok kernel') :
    ∃ ptrs', SpaceDenotes objects kernel' space ptrs' (call.reference map) := by
  cases call with
  | add vaStart vaStop flags =>
      rcases held.add valid flags with ⟨-, reason, panics⟩ | ⟨-, region, next, ptrs', added, held'⟩
      · simp [RangeCall.run, panics, Except.map] at reached
      · simp only [RangeCall.run, added, Except.map, Except.ok.injEq] at reached
        exact ⟨ptrs', reached ▸ held'⟩
  | remove vaStart vaStop =>
      rcases held.remove valid with ⟨-, reason, panics⟩ | ⟨-, next, ptrs', removed, held'⟩
      · simp [RangeCall.run, panics] at reached
      · simp only [RangeCall.run, removed, Except.ok.injEq] at reached
        exact ⟨ptrs', reached ▸ held'⟩

/-- A run that returns keeps the representation of the reference map. -/
theorem SpaceDenotes.run {calls : List RangeCall}
    (held : SpaceDenotes objects kernel space ptrs map) (valid : ∀ call ∈ calls, call.Valid)
    {kernel' : Kernel σ} (reached : runRangeCalls objects space calls kernel = .ok kernel') :
    ∃ ptrs', SpaceDenotes objects kernel' space ptrs' (referenceMap calls map) := by
  induction calls generalizing kernel ptrs map with
  | nil =>
      obtain rfl : kernel = kernel' := by simpa [runRangeCalls] using reached
      exact ⟨ptrs, held⟩
  | cons call calls ih =>
      obtain ⟨middle, first, rest⟩ := Outcome.bind_eq_ok.mp reached
      obtain ⟨ptrs', held'⟩ := held.step (valid call (by simp)) first
      exact ih held' (fun other member => valid other (by simp [member])) rest

end

/-- Every state that a run of valid calls reaches from an empty space holds a canonical list that
denotes the reference map, and the next call panics exactly on an overlap or an uncontained window. -/
theorem rangeCalls_refine_map (objects : ObjectAllocator σ) (space : Nat)
    (kernel kernel' : Kernel σ) (empty : (kernel.space space).region = NULL)
    (calls : List RangeCall) (valid : ∀ call ∈ calls, call.Valid)
    (reached : runRangeCalls objects space calls kernel = .ok kernel') :
    ∃ ptrs, SpaceList objects kernel' space ptrs ∧ Canonical (kernel'.ranges ptrs) ∧
      (∀ va flags, Denotes (kernel'.ranges ptrs) va flags ↔
        referenceMap calls (fun _ => none) va = some flags) ∧
      (∀ vaStart vaStop flags, PageWindow vaStart vaStop →
        (Outcome.Panics (vmmAddRange objects space vaStart vaStop flags kernel') ↔
          ∃ range ∈ kernel'.ranges ptrs, range.Meets vaStart vaStop) ∧
        (Outcome.Returns (vmmAddRange objects space vaStart vaStop flags kernel') ↔
          ¬∃ range ∈ kernel'.ranges ptrs, range.Meets vaStart vaStop)) ∧
      (∀ vaStart vaStop, PageWindow vaStart vaStop →
        (Outcome.Panics (vmmRemoveRange objects space vaStart vaStop kernel') ↔
          ¬∃ range ∈ kernel'.ranges ptrs, range.start ≤ vaStart ∧ vaStop ≤ range.stop) ∧
        (Outcome.Returns (vmmRemoveRange objects space vaStart vaStop kernel') ↔
          ∃ range ∈ kernel'.ranges ptrs, range.start ≤ vaStart ∧ vaStop ≤ range.stop)) := by
  obtain ⟨ptrs, held⟩ := (spaceDenotes_empty objects empty).run valid reached
  refine ⟨ptrs, held.listed, held.canonical, held.denotes, ?_, ?_⟩
  · intro vaStart vaStop flags window
    rcases held.add window flags with ⟨occupied, reason, panics⟩ | ⟨vacant, region, next, -, added, -⟩
    · have meets : ∃ range ∈ kernel'.ranges ptrs, range.Meets vaStart vaStop := by
        simpa [Kernel.Vacant] using occupied
      simp [panics, meets, Outcome.Panics, Outcome.Returns]
    · have apart : ¬∃ range ∈ kernel'.ranges ptrs, range.Meets vaStart vaStop := by
        simpa [Kernel.Vacant] using vacant
      simp [added, apart, Outcome.Panics, Outcome.Returns]
  · intro vaStart vaStop window
    rcases held.remove window with ⟨uncontained, reason, panics⟩ | ⟨contained, next, -, removed, -⟩
    · simp [panics, uncontained, Outcome.Panics, Outcome.Returns]
    · simp [removed, contained, Outcome.Panics, Outcome.Returns]

/-- These calls fill a gap between two regions and open it again. -/
def gapCalls : List RangeCall :=
  [.add 4096 8192 3, .add 12288 16384 3, .add 8192 12288 3, .remove 8192 12288]

/-- After the gap is open again, an addition across it meets the last region. -/
theorem rangeCalls_refine_map_gap :
    let objects := (ledgerAllocator 0 (by decide)).toObjectAllocator
    ∃ kernel' ptrs, runRangeCalls objects 1 gapCalls (.zeroed ⟨[], []⟩) = .ok kernel' ∧
      SpaceList objects kernel' 1 ptrs ∧ Canonical (kernel'.ranges ptrs) ∧
      Denotes (kernel'.ranges ptrs) 4096 3 ∧ ¬Denotes (kernel'.ranges ptrs) 8192 3 ∧
      Outcome.Panics (vmmAddRange objects 1 8192 16384 3 kernel') := by
  intro objects
  have valid : ∀ call ∈ gapCalls, call.Valid := by
    simp only [gapCalls, List.forall_mem_cons]
    refine ⟨?_, ?_, ?_, ?_, by simp⟩ <;>
      exact ⟨by decide, by decide, by decide, by decide⟩
  have returns : (runRangeCalls (ledgerAllocator 0 (by decide)).toObjectAllocator 1 gapCalls
      (.zeroed ⟨[], []⟩)).isOk = true := by decide +kernel
  cases result : runRangeCalls objects 1 gapCalls (.zeroed ⟨[], []⟩) with
  | error fault =>
      rw [result] at returns
      cases returns
  | ok kernel' =>
      obtain ⟨ptrs, listed, canonical, denotes, adds, -⟩ :=
        rangeCalls_refine_map objects 1 _ kernel' rfl gapCalls valid result
      have first : Denotes (kernel'.ranges ptrs) 4096 3 := (denotes 4096 3).mpr (by decide)
      have last : Denotes (kernel'.ranges ptrs) 12288 3 := (denotes 12288 3).mpr (by decide)
      have gap : ¬Denotes (kernel'.ranges ptrs) 8192 3 := fun denoted =>
        absurd ((denotes 8192 3).mp denoted) (by decide)
      refine ⟨kernel', ptrs, rfl, listed, canonical, first, gap, ?_⟩
      have window : PageWindow 8192 16384 := ⟨by decide, by decide, by decide, by decide⟩
      apply (adds 8192 16384 3 window).1.mpr
      obtain ⟨range, member, ⟨low, high⟩, -⟩ := last
      exact ⟨range, member, by omega, by omega⟩

end B0s
