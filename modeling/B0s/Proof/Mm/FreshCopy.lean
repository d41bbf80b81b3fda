import B0s.Proof.Mm.FreshRegion
import B0s.Proof.Mm.SpaceCopy

/-
This file proves that a space is copied over any allocators that hand out nothing that is in use.
-/

namespace B0s
open DoublyLinked RangeMap Stopping

variable {σ : Type}

/-- A new space is made, and the regions of the source are copied into it. -/
def copyIntoNew (calls : KernelCalls σ) (src vaStart vaStop : Nat) (kernel : Kernel σ) : Outcome (Nat × Kernel σ) :=
  vmmCreateSpace calls vaStart vaStop kernel >>= fun made =>
    (vmmCopyRegions calls made.1 src made.2).map fun kernel => (made.1, kernel)

/-- The destination has the regions of the source, every page of them translates alike in both spaces, and the source
keeps its regions and mappings. -/
structure CopiesRegions (ptrs : List Nat) (created kernel' : Kernel σ) (dst src : Nat) : Prop where
  list : ∃ copies, SpaceLinks kernel' dst copies ∧ kernel'.ranges copies = created.ranges ptrs
  translates : ∀ range ∈ created.ranges ptrs, ∀ va, WindowPage range.start range.stop va →
    mmuTranslate4k (kernel'.root dst) va kernel' = mmuTranslate4k (kernel'.root src) va kernel'
  source : SpaceLinks kernel' src ptrs
  records : ∀ ptr ∈ ptrs, kernel'.region ptr = created.region ptr
  mappings : ∀ va, CanonicalPage va → mmuLeaf src va kernel' = mmuLeaf src va created

theorem copyIntoNew_follows {τ : Type} {stop : Fault} {R : σ → τ → Prop} {calls : KernelCalls σ} {calls' : KernelCalls τ}
    {kernel : Kernel σ} {other : Kernel τ} (follow : CallsFollow stop R calls calls') (like : kernel.Like R other)
    (src vaStart vaStop : Nat) :
    Follows stop (Answers (Kernel.Like R)) (copyIntoNew calls src vaStart vaStop kernel)
      (copyIntoNew calls' src vaStart vaStop other) := by
  refine (vmmCreateSpace_follows follow like vaStart vaStop).bind ?_
  rintro _ _ ⟨dst, created, created', like⟩
  exact (vmmCopyRegions_follows follow like dst src).map fun _ _ like => .mk dst _ _ like

section
variable {calls : KernelCalls σ} {managed : Nat → Prop} [DecidablePred managed] {stop : Fault} {kernel : Kernel σ}
  {member : Nat → Prop} {records : List (StructType × Nat)} {frames ptrs : List Nat} {src vaStart vaStop : Nat}

/-- Under the contract a copy that does not run out of frames copies the regions. -/
theorem CopySource.copies {noted : Kernel (Noted σ)} (source : CopySource (calls.noted managed stop) member noted src ptrs)
    (runs : copyIntoNew (calls.noted managed stop).calls src vaStart vaStop noted ≠ .error stop) :
    ∃ dst created final, vmmCreateSpace (calls.noted managed stop).calls vaStart vaStop noted = .ok (dst, created) ∧
      vmmCopyRegions (calls.noted managed stop).calls dst src created = .ok final ∧
      CopiesRegions ptrs created final dst src := by
  rcases creates : vmmCreateSpace (calls.noted managed stop).calls vaStart vaStop noted with fault | ⟨dst, created⟩
  · obtain ⟨env, exhausted⟩ := vmmCreateSpace_fault creates
    obtain rfl := KernelCalls.checked_pmmXalloc_fault exhausted
    exact absurd (by rw [copyIntoNew, creates]; rfl) runs
  · have remain : ∀ fault env, vmmCopyRegions (calls.noted managed stop) dst src created = .error fault →
        (calls.noted managed stop).pmmXalloc env ≠ .error fault := by
      intro fault env failed exhausted
      obtain rfl := KernelCalls.checked_pmmXalloc_fault exhausted
      refine runs ?_
      rw [copyIntoNew, creates, Outcome.ok_bind, failed]
      rfl
    obtain ⟨final, copies, done, listed, ranges, translates, kept, same, mappings⟩ :=
      vmmCopyRegions_copies source creates remain
    refine ⟨dst, created, final, rfl, done, ⟨copies, ?_, ranges⟩, translates, ?_, same, mappings⟩
    · exact ⟨listed.head, listed.linked, listed.distinct, fun ptr inside => (listed.live ptr inside).1⟩
    · exact ⟨kept.head, kept.linked, kept.distinct, fun ptr inside => (kept.live ptr inside).1⟩

end

/-- A list whose first record leads to the end has one record. -/
theorem SpaceLinks.eq_singleton {kernel : Kernel σ} {space ptr : Nat} {ptrs : List Nat} (linked : SpaceLinks kernel space ptrs)
    (head : (kernel.space space).region = ptr) (nonnull : ptr ≠ NULL) (last : (kernel.region ptr).next = NULL) :
    ptrs = [ptr] := by
  obtain rfl := head
  have alone : Segment (fun ptr => (kernel.region ptr).next) (fun ptr => (kernel.region ptr).prev)
      (kernel.region (kernel.space space).region).prev [(kernel.space space).region] NULL := ⟨rfl, last, trivial⟩
  exact linked.linked.unique alone linked.head.symm (fun null => linked.nonnull NULL null rfl)
    (by simpa using nonnull.symm)

/-- The first records of the source, and those of its copy. -/
def copyFacts : Option (Option Nat × Bool × List Nat × Option (List Nat)) :=
  (runSpaceCalls (clearCalls.checked LowFrame .diverges) (releasedRun 33 []) (clearKernel.noting [] [])).toOption.map
    fun final =>
      let kernel := final.2.withEnv final.2.env.env
      (final.1.head?, lowRegions 33 kernel, [(kernel.space firstSpace).region, (kernel.region (regionRecord 0)).next],
        (copyIntoNew (clearCalls.checkedFrames LowFrame .diverges) firstSpace 0x1000 0x800000000000
          (kernel.noting [] final.2.env.frames)).toOption.map fun copied =>
            [(copied.2.space copied.1).region, (copied.2.region (regionRecord 0)).next])

end B0s
