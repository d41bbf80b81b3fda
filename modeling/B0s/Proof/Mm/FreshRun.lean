import B0s.Proof.Mm.BlockRun
import B0s.Proof.Mm.NotedCalls
import B0s.Proof.Mm.SpaceRun

/-
This file proves that spaces stay coherent over every run whose allocators hand out nothing that is in use.
-/

namespace B0s
open DoublyLinked RangeMap Stopping

variable {σ τ : Type}

section
variable {stop : Fault} {R : σ → τ → Prop} {calls : KernelCalls σ} {calls' : KernelCalls τ}
  {kernel : Kernel σ} {other : Kernel τ}

theorem spaceCall_follows (follow : CallsFollow stop R calls calls') (like : kernel.Like R other) (call : SpaceCall) :
    Follows stop (Answers (Kernel.Like R)) (call.run calls kernel) (call.run calls' other) := by
  cases call with
  | create vaStart vaStop => exact vmmCreateSpace_follows follow like vaStart vaStop
  | allocBetween space lowerVa upperVa sizeInPages flags =>
      exact vmmAllocBetween_follows follow like space lowerVa upperVa sizeInPages flags
  | allocAt space va sizeInPages flags => exact vmmAllocAt_follows follow like space va sizeInPages flags
  | map space va pa flags => exact vmmMap_follows follow like space va pa flags
  | free space va sizeInPages =>
      exact (vmmFree_follows follow like space va sizeInPages).map fun _ _ like => .mk NULL _ _ like

/-- The runs follow each other. -/
theorem runSpaceCalls_follows (follow : CallsFollow stop R calls calls') (like : kernel.Like R other)
    (run : List SpaceCall) :
    Follows stop (Answers (Kernel.Like R)) (runSpaceCalls calls run kernel) (runSpaceCalls calls' run other) := by
  induction run generalizing kernel other with
  | nil => exact .returns (.mk [] _ _ like)
  | cons call rest ih =>
      refine (spaceCall_follows follow like call).bind ?_
      rintro _ _ ⟨result, middle, middle', like⟩
      refine (ih like).bind ?_
      rintro _ _ ⟨results, final, final', like⟩
      exact .returns (.mk (result :: results) _ _ like)

end

/-- The space links the listed records in both directions. -/
structure SpaceLinks (kernel : Kernel σ) (space : Nat) (ptrs : List Nat) : Prop where
  head : (kernel.space space).region = ptrs.headD NULL
  linked : Segment (fun ptr => (kernel.region ptr).next) (fun ptr => (kernel.region ptr).prev) NULL ptrs NULL
  distinct : ptrs.Nodup
  nonnull : ∀ ptr ∈ ptrs, ptr ≠ NULL

/-- In each space a page has a leaf entry exactly when a region holds it, with the flags of that region, and
two pages never share a frame of the frame allocator. -/
structure SpacesAgree (managed : Nat → Prop) (created : List Nat) (kernel : Kernel σ) : Prop where
  regions : ∀ space ∈ created, ∃ ptrs, SpaceLinks kernel space ptrs ∧ Canonical (kernel.ranges ptrs) ∧
    (∀ va flags, Denotes (kernel.ranges ptrs) va flags ↔ Denotes (kernel.ranges ptrs) (pageOf va) flags) ∧
    ∀ va, CanonicalPage va →
      (mmuLeaf space va kernel ≠ 0 ↔ ∃ flags, Denotes (kernel.ranges ptrs) va flags) ∧
      ∀ flags, Denotes (kernel.ranges ptrs) va flags → mmuLeaf space va kernel % pageSizeInBytes = flags
  unshared : ∀ space ∈ created, ∀ space' ∈ created, ∀ va va', CanonicalPage va → CanonicalPage va' →
    ¬(space = space' ∧ va = va') → mmuLeaf space va kernel ≠ 0 → mmuLeaf space' va' kernel ≠ 0 →
    managed (pageAddr (mmuLeaf space va kernel)) →
    pageAddr (mmuLeaf space va kernel) ≠ pageAddr (mmuLeaf space' va' kernel)

/-- During the run no allocator fails, and each answer is a record or a frame that is not in use. -/
def FreshRun (calls : KernelCalls σ) (managed : Nat → Prop) [DecidablePred managed] (stop : Fault) (run : List SpaceCall)
    (kernel : Kernel σ) : Prop :=
  runSpaceCalls (calls.checked managed stop) run (kernel.noting [] []) ≠ .error stop

/-- The allocators of a run that gets fresh answers obey the contract. -/
theorem FreshRun.contract {calls : KernelCalls σ} {managed : Nat → Prop} [DecidablePred managed] {stop : Fault}
    {run : List SpaceCall} {kernel kernel' : Kernel σ} {results : List Nat} (fresh : FreshRun calls managed stop run kernel)
    (reached : runSpaceCalls calls run kernel = .ok (results, kernel')) :
    ∃ final : Kernel (Noted σ), runSpaceCalls (calls.noted managed stop).calls run (kernel.noting [] []) =
      .ok (results, final) ∧ final.withEnv kernel'.env = kernel' := by
  have real := runSpaceCalls_follows (@KernelCalls.checked_follows _ calls managed _ stop)
    (kernel.noting_like [] []) run
  obtain ⟨_, checked, ⟨_, final, _, env, related⟩⟩ := real.of_ok_right fresh reached
  have lawful := runSpaceCalls_follows (@KernelCalls.checked_noted _ calls managed _ stop)
    (Kernel.Like.refl (kernel.noting [] [])) run
  obtain ⟨_, noted, ⟨_, _, _, like⟩⟩ := lawful.of_ok checked
  obtain rfl := like.eq
  exact ⟨final, noted, rfl⟩

/-- Each noted record of the type is a live object of its blocks. -/
def RecordsLive (type : StructType) (records : List (StructType × Nat)) (live : List Nat) : Prop :=
  ∀ ptr, (type, ptr) ∈ records → ptr ∈ live

section
variable {pages : Vmm.BlockPages σ} {type : StructType} {blocks blocks' : Vmm.Blocks σ} {live bs : List Nat} {ptr : Nat}
  {undefined unassigned : Nat → Nat} {managed : Nat → Prop} [DecidablePred managed] {stop : Fault}
  {records : List (StructType × Nat)} {frames : List Nat}

/-- Under the condition of the blocks, `block_alloc` answers as the contract says. -/
theorem Vmm.Blocks.Holds.noted_blockAlloc (holds : blocks.Holds pages type live bs) (owned : RecordsLive type records live)
    (safe : Vmm.BlockState.Safe pages type (.blockAlloc unassigned) ⟨blocks, live⟩)
    (returned : Vmm.blockAlloc pages unassigned type blocks = .ok (ptr, blocks')) :
    ((Vmm.kernelCalls pages undefined unassigned).noted managed stop).blockAlloc type ⟨blocks, records, frames⟩ =
        (ptr, ⟨blocks', (type, ptr) :: records, frames⟩) ∧
      (∃ bs', blocks'.Holds pages type (ptr :: live) bs') ∧ RecordsLive type ((type, ptr) :: records) (ptr :: live) := by
  obtain ⟨bs', holds'⟩ := @Vmm.Blocks.Holds.step _ _ _ _ _ _ holds (.blockAlloc unassigned) ⟨blocks', ptr :: live⟩
    trivial safe ⟨ptr, blocks', returned, rfl⟩
  have unused : ptr ≠ NULL ∧ (type, ptr) ∉ records := by
    refine ⟨?_, fun noted => (List.nodup_cons.mp holds'.nodup).1 (owned ptr noted)⟩
    obtain ⟨b, member, i, inside, rfl⟩ := holds'.placed ptr (by simp)
    have nonnull := (holds'.page b member).nonnull
    have bounds := Vmm.object_bounds type b inside
    unfold NULL at nonnull ⊢
    omega
  refine ⟨?_, ⟨bs', holds'⟩, ?_⟩
  · change (Vmm.kernelCalls pages undefined unassigned).takeRecord managed stop type ⟨blocks, records, frames⟩ = _
    have answer : (Vmm.kernelCalls pages undefined unassigned).blockAlloc type blocks = .ok (ptr, blocks') := returned
    simp only [KernelCalls.takeRecord, KernelCalls.checked, answer, if_pos unused]
  · intro other listed
    rcases List.mem_cons.mp listed with same | old
    · obtain rfl := (Prod.mk.inj same).2
      exact List.mem_cons_self
    · exact List.mem_cons_of_mem _ (owned other old)

/-- Under the condition of the blocks, `block_free` releases the record that it is given and no other one. -/
theorem Vmm.Blocks.Holds.noted_blockFree (holds : blocks.Holds pages type live bs) (owned : RecordsLive type records live)
    (listed : ptr ∈ live) (safe : Vmm.BlockState.Safe pages type (.blockFree undefined ptr) ⟨blocks, live⟩)
    (returned : Vmm.blockFree pages undefined ptr type blocks = .ok blocks') :
    ((Vmm.kernelCalls pages undefined unassigned).noted managed stop).blockFree type ptr ⟨blocks, records, frames⟩ =
        ⟨blocks', records.filter (· ≠ (type, ptr)), frames⟩ ∧
      (∃ bs', blocks'.Holds pages type (live.erase ptr) bs') ∧
      RecordsLive type (records.filter (· ≠ (type, ptr))) (live.erase ptr) := by
  obtain ⟨bs', holds'⟩ := @Vmm.Blocks.Holds.step _ _ _ _ _ _ holds (.blockFree undefined ptr) ⟨blocks', live.erase ptr⟩
    listed safe ⟨blocks', returned, rfl⟩
  refine ⟨?_, ⟨bs', holds'⟩, ?_⟩
  · change (Vmm.kernelCalls pages undefined unassigned).returnRecord managed stop type ptr ⟨blocks, records, frames⟩ = _
    have answer : (Vmm.kernelCalls pages undefined unassigned).blockFree type ptr blocks = .ok blocks' := returned
    simp only [KernelCalls.returnRecord, KernelCalls.checked, answer]
  · intro other kept
    obtain ⟨noted, different⟩ := List.mem_filter.mp kept
    have apart : other ≠ ptr := by
      rintro rfl
      simp at different
    exact (List.mem_erase_of_ne apart).mpr (owned other noted)

end

section
variable {managed : Nat → Prop} {created : List Nat} {run : List SpaceCall}

/-- Calls on the spaces of a list are valid in every order. -/
theorem validSpaceRun_of_forall
    (valid : ∀ call ∈ run, ∀ result, call.Valid managed created result ∧ call.created result created = created)
    (results : List Nat) : ValidSpaceRun managed created run results ∧ createdSpaces created run results = created := by
  induction run generalizing results with
  | nil => cases results <;> exact ⟨trivial, rfl⟩
  | cons call rest ih =>
      cases results with
      | nil => exact ⟨trivial, rfl⟩
      | cons result results =>
          obtain ⟨here, same⟩ := valid call (by simp) result
          have later := ih (fun other member => valid other (by simp [member])) results
          rw [ValidSpaceRun, createdSpaces, same]
          exact ⟨⟨here, later.1⟩, later.2⟩

end

/-- The object allocator of these calls works on clear pages, and undefined shifts give zero. -/
def clearCalls : KernelCalls (Vmm.Blocks (List Nat)) := Vmm.kernelCalls (Vmm.topPages 0) (fun _ => 0) fun _ => 0

/-- The kernel before its first call. -/
def clearKernel : Kernel (Vmm.Blocks (List Nat)) := .zeroed Vmm.noBlocks

/-- The frames of these calls. -/
abbrev LowFrame (frame : Nat) : Prop := frame < 0x1000000

/-- The first record of a space. -/
def firstSpace : Nat := Vmm.object .vmmSpace (dmP2V 0x1000) 0

/-- The records of the regions. -/
def regionRecord (index : Nat) : Nat := Vmm.object .vmmRegion (dmP2V 0x3000) index

/-- The regions of a new space take records in order, and the last one is released. -/
def releasedRun (count : Nat) (rest : List SpaceCall) : List SpaceCall :=
  .create 0 0 :: ((List.range count).map (fun i => .allocAt firstSpace (0x10000 + i * 0x2000) 1 7) ++
    .free firstSpace (0x10000 + (count - 1) * 0x2000) 1 :: rest)

/-- One more region behind the others. -/
def lastRegion : SpaceCall := .allocAt firstSpace 0x100000 1 7

theorem releasedRun_valid {count : Nat} (positive : 0 < count) (small : count ≤ 100) {rest : List SpaceCall}
    (last : ∀ call ∈ rest, call = lastRegion) (results : List Nat) :
    ValidSpaceRun LowFrame [] (releasedRun count rest) (firstSpace :: results) ∧
      createdSpaces [] (releasedRun count rest) (firstSpace :: results) = [firstSpace] := by
  have window : ∀ i < 100, HalfWindow (0x10000 + i * 0x2000) (0x10000 + i * 0x2000 + 1 * pageSizeInBytes) := by
    intro i bound
    refine ⟨?_, ?_, ?_, ?_, ?_⟩
    all_goals
      unfold pageSizeInBytes
      omega
  have all : ∀ call ∈ (List.range count).map (fun i => SpaceCall.allocAt firstSpace (0x10000 + i * 0x2000) 1 7) ++
      .free firstSpace (0x10000 + (count - 1) * 0x2000) 1 :: rest, ∀ result,
      call.Valid LowFrame [firstSpace] result ∧ call.created result [firstSpace] = [firstSpace] := by
    intro call member result
    rcases List.mem_append.mp member with mapped | late
    · obtain ⟨i, inside, rfl⟩ := List.mem_map.mp mapped
      have bound := List.mem_range.mp inside
      exact ⟨⟨by simp, window i (by omega), ⟨by decide, by decide⟩⟩, rfl⟩
    · rcases List.mem_cons.mp late with rfl | more
      · exact ⟨⟨by simp, window (count - 1) (by omega)⟩, rfl⟩
      · obtain rfl := last call more
        exact ⟨⟨by simp, by decide, ⟨by decide, by decide⟩⟩, rfl⟩
  obtain ⟨valid, created⟩ := validSpaceRun_of_forall all results
  exact ⟨⟨trivial, valid⟩, created⟩

end B0s
