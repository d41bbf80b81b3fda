import B0s.Proof.Mm.SpaceCall

/-
This file proves that regions and page tables stay coherent over every run of calls on spaces.
-/

namespace B0s
open DoublyLinked RangeMap

variable {σ : Type}

/-- A client creates address spaces and changes their mappings. -/
inductive SpaceCall where
  | create (vaStart vaStop : Nat)
  | allocBetween (space lowerVa upperVa sizeInPages flags : Nat)
  | allocAt (space va sizeInPages flags : Nat)
  | map (space va pa flags : Nat)
  | free (space va sizeInPages : Nat)
  deriving DecidableEq, Repr

def SpaceCall.run (calls : KernelCalls σ) : SpaceCall → Kernel σ → Outcome (Nat × Kernel σ)
  | .create vaStart vaStop, kernel => vmmCreateSpace calls vaStart vaStop kernel
  | .allocBetween space lowerVa upperVa sizeInPages flags, kernel =>
      vmmAllocBetween calls space lowerVa upperVa sizeInPages flags kernel
  | .allocAt space va sizeInPages flags, kernel => vmmAllocAt calls space va sizeInPages flags kernel
  | .map space va pa flags, kernel => vmmMap calls space va pa flags kernel
  | .free space va sizeInPages, kernel =>
      (vmmFree calls space va sizeInPages kernel).map fun kernel => (NULL, kernel)

/-- A run performs its calls in order, lists the returned pointers, and stops at the first fault. -/
def runSpaceCalls (calls : KernelCalls σ) :
    List SpaceCall → Kernel σ → Outcome (List Nat × Kernel σ)
  | [], kernel => .ok ([], kernel)
  | call :: rest, kernel => do
      let (result, kernel) ← call.run calls kernel
      let (results, kernel) ← runSpaceCalls calls rest kernel
      .ok (result :: results, kernel)

/-- The windows of a call are aligned, lie in one canonical half, and belong to a created space. -/
def SpaceCall.Valid (managed : Nat → Prop) (created : List Nat) (result : Nat) : SpaceCall → Prop
  | .create _ _ => True
  | .allocBetween space lowerVa _ sizeInPages flags => space ∈ created ∧
      BetweenRequest lowerVa sizeInPages flags ∧
      (result ≠ NULL → HalfWindow result (result + sizeInPages * pageSizeInBytes))
  | .allocAt space va sizeInPages flags => space ∈ created ∧
      HalfWindow va (va + sizeInPages * pageSizeInBytes) ∧ PageFlags flags
  | .map space va pa flags => space ∈ created ∧ HalfWindow va (va + pageSizeInBytes) ∧
      PageFlags flags ∧ pa % pageSizeInBytes = 0 ∧ pa < 2 ^ 64 ∧ ¬managed pa
  | .free space va sizeInPages => space ∈ created ∧
      HalfWindow va (va + sizeInPages * pageSizeInBytes)

def SpaceCall.created (result : Nat) (created : List Nat) : SpaceCall → List Nat
  | .create _ _ => result :: created
  | _ => created

def createdSpaces : List Nat → List SpaceCall → List Nat → List Nat
  | created, call :: calls, result :: results =>
      createdSpaces (call.created result created) calls results
  | created, _, _ => created

/-- Each call of a valid run is valid for the spaces created by then. -/
def ValidSpaceRun (managed : Nat → Prop) : List Nat → List SpaceCall → List Nat → Prop
  | created, call :: calls, result :: results =>
      call.Valid managed created result ∧
        ValidSpaceRun managed (call.created result created) calls results
  | _, _, _ => True

section
variable {alloc : KernelAllocator σ} {created : List Nat} {lists : Nat → List Nat}
  {kernel kernel' : Kernel σ}

theorem Coherent.none (alloc : KernelAllocator σ) (lists : Nat → List Nat) (kernel : Kernel σ) :
    Coherent alloc (· ∈ []) lists kernel := by
  refine ⟨⟨⟨⟨?_⟩, ?_⟩, ?_, ?_⟩, ?_, ?_, ?_, ?_, ?_⟩
  · intro key key' path path' table belongs
    cases belongs
  · rintro table ⟨key, path, belongs, -⟩
    cases belongs
  all_goals
    intros
    contradiction

/-- A valid call that returns keeps all spaces coherent. -/
theorem Coherent.step {call : SpaceCall} {result : Nat}
    (coherent : Coherent alloc (· ∈ created) lists kernel) (valid : call.Valid alloc.managed created result)
    (done : call.run alloc.calls kernel = .ok (result, kernel')) :
    ∃ lists', Coherent alloc (· ∈ call.created result created) lists' kernel' := by
  cases call with
  | create vaStart vaStop =>
      have returned : vmmCreateSpace alloc vaStart vaStop kernel = .ok (result, kernel') := done
      have started := (vmmCreateSpace_coherent coherent returned).2
      have same : (fun other => other ∈ created ∨ other = result) = (· ∈ result :: created) := by
        funext other
        simp [or_comm]
      rw [same] at started
      exact ⟨_, started⟩
  | allocBetween space lowerVa upperVa sizeInPages flags =>
      exact vmmAllocBetween_coherent coherent valid.1 valid.2.1 done valid.2.2
  | allocAt space va sizeInPages flags =>
      exact vmmAllocAt_coherent coherent valid.1 valid.2.1 valid.2.2 done
  | map space va pa flags =>
      obtain ⟨belongs, window, flagged, aligned, bounded, unmanaged⟩ := valid
      exact vmmMap_coherent coherent belongs window flagged aligned bounded unmanaged done
  | free space va sizeInPages =>
      cases freed : vmmFree alloc space va sizeInPages kernel with
      | error fault => simp [SpaceCall.run, freed, Except.map] at done
      | ok final =>
          simp only [SpaceCall.run, freed, Except.map, Except.ok.injEq, Prod.mk.injEq] at done
          obtain ⟨-, rfl⟩ := done
          exact vmmFree_coherent coherent valid.1 valid.2 freed

/-- A valid run that returns keeps all spaces coherent. -/
theorem Coherent.run {calls : List SpaceCall} {results : List Nat}
    (coherent : Coherent alloc (· ∈ created) lists kernel)
    (valid : ValidSpaceRun alloc.managed created calls results)
    (done : runSpaceCalls alloc.calls calls kernel = .ok (results, kernel')) :
    ∃ lists', Coherent alloc (· ∈ createdSpaces created calls results) lists' kernel' := by
  induction calls generalizing created lists kernel results with
  | nil =>
      obtain ⟨rfl, rfl⟩ := Prod.mk.inj (Except.ok.inj done)
      exact ⟨lists, coherent⟩
  | cons call calls ih =>
      obtain ⟨⟨result, middle⟩, first, done⟩ := Outcome.bind_eq_ok.mp done
      obtain ⟨⟨rest, final⟩, others, done⟩ := Outcome.bind_eq_ok.mp done
      obtain ⟨rfl, rfl⟩ := Prod.mk.inj (Except.ok.inj done)
      obtain ⟨lists', coherent'⟩ := coherent.step valid.1 first
      exact ih coherent' valid.2 others

end

/-- After every run a page has a leaf entry exactly when a region of its space holds it, with the
flags of that region, and two pages never share a frame of the frame allocator. -/
theorem spaceCalls_coherent (alloc : KernelAllocator σ) (kernel kernel' : Kernel σ)
    (calls : List SpaceCall) (results : List Nat) (valid : ValidSpaceRun alloc.managed [] calls results)
    (reached : runSpaceCalls alloc.calls calls kernel = .ok (results, kernel')) :
    (∀ space ∈ createdSpaces [] calls results, ∃ ptrs,
      SpaceList alloc.toObjectAllocator kernel' space ptrs ∧ Canonical (kernel'.ranges ptrs) ∧
      (∀ va flags, Denotes (kernel'.ranges ptrs) va flags ↔
        Denotes (kernel'.ranges ptrs) (pageOf va) flags) ∧
      ∀ va, CanonicalPage va →
        (mmuLeaf space va kernel' ≠ 0 ↔ ∃ flags, Denotes (kernel'.ranges ptrs) va flags) ∧
        ∀ flags, Denotes (kernel'.ranges ptrs) va flags →
          mmuLeaf space va kernel' % pageSizeInBytes = flags) ∧
    ∀ space ∈ createdSpaces [] calls results, ∀ space' ∈ createdSpaces [] calls results, ∀ va va',
      CanonicalPage va → CanonicalPage va' → ¬(space = space' ∧ va = va') →
      mmuLeaf space va kernel' ≠ 0 → mmuLeaf space' va' kernel' ≠ 0 →
      alloc.managed (pageAddr (mmuLeaf space va kernel')) →
      pageAddr (mmuLeaf space va kernel') ≠ pageAddr (mmuLeaf space' va' kernel') := by
  obtain ⟨lists, coherent⟩ := (Coherent.none alloc (fun _ => []) kernel).run valid reached
  refine ⟨?_, ?_⟩
  · intro space belongs
    have pages := coherent.pages belongs
    refine ⟨lists space, coherent.listed belongs, pages.canonical, pages.whole, ?_⟩
    intro va page
    refine ⟨⟨?_, ?_⟩, ?_⟩
    · intro mapped
      exact ⟨_, (coherent.mapped belongs page).mpr ⟨mapped, rfl⟩⟩
    · rintro ⟨flags, denoted⟩
      exact ((coherent.mapped belongs page).mp denoted).1
    · intro flags denoted
      exact ((coherent.mapped belongs page).mp denoted).2
  · intro space belongs space' belongs' va va' page page' different mapped mapped' managed same
    exact different (coherent.backing.unshared belongs belongs' page page' mapped mapped' managed same)

end B0s
