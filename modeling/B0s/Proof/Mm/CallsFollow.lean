import B0s.Library.Stopping
import B0s.Construction.Mm.Vmm

/-
This file proves that the calls on spaces follow each other when the calls of their allocators do.
-/

namespace B0s
open Stopping

variable {σ τ : Type}

/-- The same records and words beside another state of the allocators. -/
def Kernel.withEnv (kernel : Kernel σ) (env : τ) : Kernel τ :=
  ⟨kernel.region, kernel.space, kernel.word, env⟩

@[simp] theorem Kernel.withEnv_space (kernel : Kernel σ) (env : τ) : (kernel.withEnv env).space = kernel.space := rfl

@[simp] theorem Kernel.withEnv_region (kernel : Kernel σ) (env : τ) : (kernel.withEnv env).region = kernel.region := rfl

/-- Two kernels differ in the related states of their allocators only. -/
inductive Kernel.Like (R : σ → τ → Prop) (kernel : Kernel σ) : Kernel τ → Prop where
  | mk (env : τ) (related : R kernel.env env) : Like R kernel (kernel.withEnv env)

/-- From related states the allocators give the same answers, until the first ones stop. -/
structure CallsFollow (stop : Fault) (R : σ → τ → Prop) (calls : KernelCalls σ) (calls' : KernelCalls τ) : Prop where
  blockAlloc : ∀ {env env'}, R env env' → ∀ type,
    Follows stop (Answers R) (calls.blockAlloc type env) (calls'.blockAlloc type env')
  blockFree : ∀ {env env'}, R env env' → ∀ type ptr,
    Follows stop R (calls.blockFree type ptr env) (calls'.blockFree type ptr env')
  pmmXalloc : ∀ {env env'}, R env env' → Follows stop (Answers R) (calls.pmmXalloc env) (calls'.pmmXalloc env')
  pmmFree : ∀ {env env'}, R env env' → ∀ page, Follows stop R (calls.pmmFree page env) (calls'.pmmFree page env')

section
variable {stop : Fault} {R : σ → τ → Prop} {calls : KernelCalls σ} {calls' : KernelCalls τ}
  {kernel : Kernel σ} {other : Kernel τ}

theorem Kernel.Like.setRegion (like : kernel.Like R other) (ptr : Nat) (record : VmmRegion) :
    (kernel.setRegion ptr record).Like R (other.setRegion ptr record) := by
  obtain ⟨env, related⟩ := like
  exact .mk env related

theorem Kernel.Like.setHead (like : kernel.Like R other) (space head : Nat) :
    (kernel.setHead space head).Like R (other.setHead space head) := by
  obtain ⟨env, related⟩ := like
  exact .mk env related

theorem Kernel.Like.setWord (like : kernel.Like R other) (addr value : Nat) :
    (kernel.setWord addr value).Like R (other.setWord addr value) := by
  obtain ⟨env, related⟩ := like
  exact .mk env related

theorem Kernel.Like.clearPage (like : kernel.Like R other) (addr : Nat) :
    (kernel.clearPage addr).Like R (other.clearPage addr) := by
  obtain ⟨env, related⟩ := like
  exact .mk env related

theorem Kernel.Like.setNext (like : kernel.Like R other) (ptr next : Nat) :
    (kernel.setNext ptr next).Like R (other.setNext ptr next) := by
  obtain ⟨env, related⟩ := like
  exact .mk env related

theorem Kernel.Like.setPrev (like : kernel.Like R other) (ptr prev : Nat) :
    (kernel.setPrev ptr prev).Like R (other.setPrev ptr prev) := by
  obtain ⟨env, related⟩ := like
  exact .mk env related

theorem Kernel.Like.ite (condition : Prop) [Decidable condition] {first second : Kernel σ} {first' second' : Kernel τ}
    (holds : first.Like R first') (fails : second.Like R second') :
    (if condition then first else second).Like R (if condition then first' else second') := by
  split_ifs
  · exact holds
  · exact fails

/-- The links of a record are written alike. -/
theorem linkRegion_like (like : kernel.Like R other) (space vaStart vaStop flags prev next region : Nat) :
    (linkRegion space vaStart vaStop flags prev next region kernel).Like R
      (linkRegion space vaStart vaStop flags prev next region other) := by
  have headed := Kernel.Like.ite (prev = NULL) (like.setHead space region) like
  have linked := headed.setRegion region ⟨vaStart, vaStop, next, prev, flags⟩
  have forward := Kernel.Like.ite (prev ≠ NULL) (linked.setNext prev region) linked
  exact .ite _ (forward.setPrev next region) forward

/-- The neighbours of a record are linked alike. -/
theorem unlinkRegion_like (like : kernel.Like R other) (space region : Nat) :
    (unlinkRegion space region kernel).Like R (unlinkRegion space region other) := by
  have forward : ∀ {first : Kernel σ} {first' : Kernel τ}, first.Like R first' →
      (if (first.region region).prev ≠ NULL then first.setNext (first.region region).prev (first.region region).next
        else first).Like R (if (first'.region region).prev ≠ NULL then
          first'.setNext (first'.region region).prev (first'.region region).next else first') := by
    rintro first _ ⟨env, related⟩
    exact .ite _ (.mk env related) (.mk env related)
  have backward : ∀ {first : Kernel σ} {first' : Kernel τ}, first.Like R first' →
      (if (first.region region).next ≠ NULL then first.setPrev (first.region region).next (first.region region).prev
        else first).Like R (if (first'.region region).next ≠ NULL then
          first'.setPrev (first'.region region).next (first'.region region).prev else first') := by
    rintro first _ ⟨env, related⟩
    exact .ite _ (.mk env related) (.mk env related)
  obtain ⟨env, related⟩ := like
  have like : kernel.Like R (kernel.withEnv env) := .mk env related
  exact .ite _ (like.setHead space NULL) (backward (forward (.ite _ (like.setHead space _) like)))

/-- A record is obtained and linked alike. -/
theorem vmmCreateRegion_follows (follow : CallsFollow stop R calls calls') (like : kernel.Like R other)
    (space vaStart vaStop flags prev next : Nat) :
    Follows stop (Answers (Kernel.Like R))
      (vmmCreateRegion calls.toObjectCalls space vaStart vaStop flags prev next kernel)
      (vmmCreateRegion calls'.toObjectCalls space vaStart vaStop flags prev next other) := by
  obtain ⟨env, related⟩ := like
  refine (follow.blockAlloc related .vmmRegion).bind ?_
  rintro _ _ ⟨region, env, env', related⟩
  exact .returns (.mk _ _ _ (linkRegion_like (.mk env' related) space vaStart vaStop flags prev next region))

theorem vmmRemoveRegion_follows (follow : CallsFollow stop R calls calls') (like : kernel.Like R other)
    (space region : Nat) :
    Follows stop (Kernel.Like R) (vmmRemoveRegion calls.toObjectCalls space region kernel)
      (vmmRemoveRegion calls'.toObjectCalls space region other) := by
  simp only [vmmRemoveRegion]
  have removed := unlinkRegion_like like space region
  generalize unlinkRegion space region kernel = middle at removed ⊢
  generalize unlinkRegion space region other = middle' at removed ⊢
  obtain ⟨env, related⟩ := removed
  refine (follow.blockFree related .vmmRegion region).bind ?_
  intro env env' related
  exact .returns (.mk env' related)

theorem vmmInsertRange_follows (follow : CallsFollow stop R calls calls') (like : kernel.Like R other)
    (space prev next vaStart vaStop flags : Nat) :
    Follows stop (Answers (Kernel.Like R))
      (vmmInsertRange calls.toObjectCalls space prev next vaStart vaStop flags kernel)
      (vmmInsertRange calls'.toObjectCalls space prev next vaStart vaStop flags other) := by
  obtain ⟨env, related⟩ := like
  have like : kernel.Like R (kernel.withEnv env) := .mk env related
  unfold vmmInsertRange
  refine .ite (.fails _) (.ite (.fails _) (.ite ?_ (.ite ?_ (.ite ?_ ?_))))
  · refine (vmmRemoveRegion_follows follow (like.setRegion prev _) space next).bind ?_
    intro middle middle' like
    exact .returns (.mk _ _ _ like)
  · exact .returns (.mk _ _ _ (like.setRegion prev _))
  · exact .returns (.mk _ _ _ (like.setRegion next _))
  · exact vmmCreateRegion_follows follow like space vaStart vaStop flags prev next

/-- The search reads the records only. -/
theorem vmmAddRangeSearch_withEnv (kernel : Kernel σ) (env : τ) (vaStart vaStop steps prev cur : Nat) :
    vmmAddRangeSearch (kernel.withEnv env) vaStart vaStop steps prev cur =
      vmmAddRangeSearch kernel vaStart vaStop steps prev cur := by
  induction steps generalizing prev cur with
  | zero => rfl
  | succ steps ih =>
      rw [vmmAddRangeSearch, vmmAddRangeSearch, ih]
      rfl

theorem vmmAddRange_follows (follow : CallsFollow stop R calls calls') (like : kernel.Like R other)
    (space vaStart vaStop flags : Nat) :
    Follows stop (Answers (Kernel.Like R)) (vmmAddRange calls.toObjectCalls space vaStart vaStop flags kernel)
      (vmmAddRange calls'.toObjectCalls space vaStart vaStop flags other) := by
  obtain ⟨env, related⟩ := like
  have like : kernel.Like R (kernel.withEnv env) := .mk env related
  unfold vmmAddRange
  refine .ite (vmmCreateRegion_follows follow like space vaStart vaStop flags NULL NULL) ?_
  rw [vmmAddRangeSearch_withEnv]
  refine (Follows.refl _).bind ?_
  rintro ⟨prev, cur⟩ _ rfl
  exact vmmInsertRange_follows follow like space prev cur vaStart vaStop flags

theorem vmmRemoveRangeSearch_withEnv (kernel : Kernel σ) (env : τ) (vaStart steps region : Nat) :
    vmmRemoveRangeSearch (kernel.withEnv env) vaStart steps region = vmmRemoveRangeSearch kernel vaStart steps region := by
  induction steps generalizing region with
  | zero => rfl
  | succ steps ih =>
      rw [vmmRemoveRangeSearch, vmmRemoveRangeSearch, ih]
      rfl

theorem vmmRemoveRange_follows (follow : CallsFollow stop R calls calls') (like : kernel.Like R other)
    (space vaStart vaStop : Nat) :
    Follows stop (Kernel.Like R) (vmmRemoveRange calls.toObjectCalls space vaStart vaStop kernel)
      (vmmRemoveRange calls'.toObjectCalls space vaStart vaStop other) := by
  obtain ⟨env, related⟩ := like
  have like : kernel.Like R (kernel.withEnv env) := .mk env related
  unfold vmmRemoveRange
  rw [vmmRemoveRangeSearch_withEnv]
  refine (Follows.refl _).bind ?_
  rintro region _ rfl
  refine .ite (.fails _) (.ite (.fails _) (.ite (vmmRemoveRegion_follows follow like space region)
    (.ite (.returns (like.setRegion region _)) (.ite (.returns (like.setRegion region _)) ?_))))
  refine (vmmRemoveRegion_follows follow like space region).bind ?_
  intro middle middle' like
  refine (vmmAddRange_follows follow like space _ vaStart _).bind ?_
  rintro _ _ ⟨low, middle, middle', like⟩
  refine (vmmAddRange_follows follow like space vaStop _ _).bind ?_
  rintro _ _ ⟨high, last, last', like⟩
  exact .returns like

/-- A table is entered alike. -/
theorem mmuEnsureTable_follows (follow : CallsFollow stop R calls calls') (like : kernel.Like R other)
    (entry permWoG : Nat) :
    Follows stop (Answers (Kernel.Like R)) (mmuEnsureTable calls.toFrameCalls entry permWoG kernel)
      (mmuEnsureTable calls'.toFrameCalls entry permWoG other) := by
  obtain ⟨env, related⟩ := like
  unfold mmuEnsureTable
  refine .ite ?_ (.returns (.mk _ _ _ (.mk env related)))
  refine (follow.pmmXalloc related).bind ?_
  rintro _ _ ⟨frame, env, env', related⟩
  exact .returns (.mk _ _ _ (.mk env' related))

theorem mmuMapPage_follows (follow : CallsFollow stop R calls calls') (like : kernel.Like R other)
    (space va pa perm : Nat) :
    Follows stop (Answers (Kernel.Like R)) (mmuMapPage calls.toFrameCalls space va pa perm kernel)
      (mmuMapPage calls'.toFrameCalls space va pa perm other) := by
  obtain ⟨env, related⟩ := like
  refine (mmuEnsureTable_follows follow (.mk env related) _ _).bind ?_
  rintro _ _ ⟨pdpt, first, first', like⟩
  refine (mmuEnsureTable_follows follow like _ _).bind ?_
  rintro _ _ ⟨pdt, second, second', like⟩
  refine (mmuEnsureTable_follows follow like _ _).bind ?_
  rintro _ _ ⟨pt, third, third', env, related⟩
  exact .returns (.mk _ _ _ (.mk env related))

theorem mmuUnmapPage_follows (follow : CallsFollow stop R calls calls') (like : kernel.Like R other) (space va : Nat) :
    Follows stop (Answers (Kernel.Like R)) (mmuUnmapPage calls.toFrameCalls space va kernel)
      (mmuUnmapPage calls'.toFrameCalls space va other) := by
  refine (mmuMapPage_follows follow like space va 0 0).bind ?_
  rintro _ _ ⟨pa, middle, middle', env, related⟩
  refine (follow.pmmFree related (pageAddr pa)).bind ?_
  intro env env' related
  exact .returns (.mk _ _ _ (.mk env' related))

theorem mmuInit_follows (follow : CallsFollow stop R calls calls') (like : kernel.Like R other) (space : Nat) :
    Follows stop (Kernel.Like R) (mmuInit calls.toFrameCalls space kernel) (mmuInit calls'.toFrameCalls space other) := by
  obtain ⟨env, related⟩ := like
  refine (follow.pmmXalloc related).bind ?_
  rintro _ _ ⟨frame, env, env', related⟩
  have rooted : Kernel.Like R { kernel with
      env := env
      space := Function.update kernel.space space { kernel.space space with pageDirectory := dmP2V frame } } _ :=
    .mk env' related
  exact .returns (rooted.clearPage (dmP2V frame))

theorem vmmCreateSpace_follows (follow : CallsFollow stop R calls calls') (like : kernel.Like R other)
    (vaStart vaStop : Nat) :
    Follows stop (Answers (Kernel.Like R)) (vmmCreateSpace calls vaStart vaStop kernel)
      (vmmCreateSpace calls' vaStart vaStop other) := by
  obtain ⟨env, related⟩ := like
  refine (follow.blockAlloc related .vmmSpace).bind ?_
  rintro _ _ ⟨space, env, env', related⟩
  refine (mmuInit_follows follow (.mk env' related) space).bind ?_
  intro middle middle' like
  exact .returns (.mk _ _ _ like)

/-- The loop backs the pages alike. -/
theorem vmmMapPages_follows (follow : CallsFollow stop R calls calls') (like : kernel.Like R other)
    (space region flags : Nat) (overwrite : Nat → Panic) (steps va : Nat) :
    Follows stop (Kernel.Like R) (vmmMapPages calls space region flags overwrite steps va kernel)
      (vmmMapPages calls' space region flags overwrite steps va other) := by
  induction steps generalizing va kernel other with
  | zero => exact .fails _
  | succ steps ih =>
      obtain ⟨env, related⟩ := like
      rw [vmmMapPages, vmmMapPages]
      refine .ite ?_ (.returns (.mk env related))
      refine (follow.pmmXalloc related).bind ?_
      rintro _ _ ⟨pa, env, env', related⟩
      refine (mmuMapPage_follows follow (.mk env' related) space va pa flags).bind ?_
      rintro _ _ ⟨old, middle, middle', like⟩
      exact .ite (.fails _) (ih like (u64 (va + pageSizeInBytes)))

theorem vmmAllocBetweenSearch_withEnv (kernel : Kernel σ) (env : τ) (lowerVa sizeInBytes padding steps va prev cur : Nat) :
    vmmAllocBetweenSearch (kernel.withEnv env) lowerVa sizeInBytes padding steps va prev cur =
      vmmAllocBetweenSearch kernel lowerVa sizeInBytes padding steps va prev cur := by
  induction steps generalizing va prev cur with
  | zero => rfl
  | succ steps ih =>
      rw [vmmAllocBetweenSearch, vmmAllocBetweenSearch, ih]
      rfl

theorem vmmAllocBetween_follows (follow : CallsFollow stop R calls calls') (like : kernel.Like R other)
    (space lowerVa upperVa sizeInPages flags : Nat) :
    Follows stop (Answers (Kernel.Like R)) (vmmAllocBetween calls space lowerVa upperVa sizeInPages flags kernel)
      (vmmAllocBetween calls' space lowerVa upperVa sizeInPages flags other) := by
  obtain ⟨env, related⟩ := like
  have like : kernel.Like R (kernel.withEnv env) := .mk env related
  unfold vmmAllocBetween
  dsimp only
  rw [vmmAllocBetweenSearch_withEnv]
  refine (Follows.refl _).bind ?_
  rintro ⟨va, prev, cur⟩ _ rfl
  refine .ite (.returns (.mk _ _ _ like)) ?_
  refine (vmmInsertRange_follows follow like space prev cur _ _ flags).bind ?_
  rintro _ _ ⟨region, middle, middle', like⟩
  refine .ite (.returns (.mk _ _ _ like)) ?_
  refine (vmmMapPages_follows follow like space region flags _ _ _).bind ?_
  intro final final' like
  exact .returns (.mk _ _ _ like)

theorem vmmAllocAt_follows (follow : CallsFollow stop R calls calls') (like : kernel.Like R other)
    (space va sizeInPages flags : Nat) :
    Follows stop (Answers (Kernel.Like R)) (vmmAllocAt calls space va sizeInPages flags kernel)
      (vmmAllocAt calls' space va sizeInPages flags other) := by
  unfold vmmAllocAt
  refine .ite (.returns (.mk _ _ _ like)) ?_
  refine (vmmAddRange_follows follow like space va _ flags).bind ?_
  rintro _ _ ⟨region, middle, middle', like⟩
  refine .ite (.returns (.mk _ _ _ like)) ?_
  refine (vmmMapPages_follows follow like space region flags _ _ _).bind ?_
  intro final final' like
  exact .returns (.mk _ _ _ like)

theorem vmmMap_follows (follow : CallsFollow stop R calls calls') (like : kernel.Like R other) (space va pa flags : Nat) :
    Follows stop (Answers (Kernel.Like R)) (vmmMap calls space va pa flags kernel)
      (vmmMap calls' space va pa flags other) := by
  refine (vmmAddRange_follows follow like space va _ flags).bind ?_
  rintro _ _ ⟨region, middle, middle', like⟩
  refine .ite (.returns (.mk _ _ _ like)) ?_
  refine (mmuMapPage_follows follow like space va pa flags).bind ?_
  rintro _ _ ⟨old, final, final', like⟩
  exact .ite (.fails _) (.returns (.mk _ _ _ like))

/-- The loop unmaps the pages alike. -/
theorem vmmUnmapPages_follows (follow : CallsFollow stop R calls calls') (like : kernel.Like R other)
    (space start vaStop steps va : Nat) :
    Follows stop (Kernel.Like R) (vmmUnmapPages calls space start vaStop steps va kernel)
      (vmmUnmapPages calls' space start vaStop steps va other) := by
  induction steps generalizing va kernel other with
  | zero => exact .fails _
  | succ steps ih =>
      rw [vmmUnmapPages, vmmUnmapPages]
      refine .ite ?_ (.returns like)
      refine (mmuUnmapPage_follows follow like space va).bind ?_
      rintro _ _ ⟨old, middle, middle', like⟩
      exact .ite (.fails _) (ih like (u64 (va + pageSizeInBytes)))

theorem vmmFree_follows (follow : CallsFollow stop R calls calls') (like : kernel.Like R other) (space va sizeInPages : Nat) :
    Follows stop (Kernel.Like R) (vmmFree calls space va sizeInPages kernel)
      (vmmFree calls' space va sizeInPages other) := by
  refine (vmmRemoveRange_follows follow like space va _).bind ?_
  intro middle middle' like
  exact vmmUnmapPages_follows follow like space va _ _ va

/-- The loop maps the frames of a region alike. -/
theorem mmuCopyPages_follows (follow : CallsFollow stop R calls calls') (like : kernel.Like R other)
    (dst src region steps va : Nat) :
    Follows stop (Kernel.Like R) (mmuCopyPages calls dst src region steps va kernel)
      (mmuCopyPages calls' dst src region steps va other) := by
  induction steps generalizing va kernel other with
  | zero => exact .fails _
  | succ steps ih =>
      obtain ⟨env, related⟩ := like
      have like : kernel.Like R (kernel.withEnv env) := .mk env related
      rw [mmuCopyPages, mmuCopyPages]
      refine .ite ?_ (.returns like)
      refine (mmuMapPage_follows follow like dst va _ _).bind ?_
      rintro _ _ ⟨old, middle, middle', like⟩
      exact .ite (.fails _) (ih like (u64 (va + pageSizeInBytes)))

/-- The loop copies the regions alike. -/
theorem vmmCopyRegionList_follows (follow : CallsFollow stop R calls calls') (like : kernel.Like R other)
    (dst src steps region : Nat) :
    Follows stop (Kernel.Like R) (vmmCopyRegionList calls dst src steps region kernel)
      (vmmCopyRegionList calls' dst src steps region other) := by
  induction steps generalizing region kernel other with
  | zero => exact .fails _
  | succ steps ih =>
      obtain ⟨env, related⟩ := like
      rw [vmmCopyRegionList, vmmCopyRegionList]
      refine .ite (.returns (.mk env related)) ?_
      refine (vmmAddRange_follows follow (.mk env related) dst _ _ _).bind ?_
      rintro _ _ ⟨copy, middle, middle', env, related⟩
      refine .ite (.fails _) ?_
      refine (mmuCopyPages_follows follow (.mk env related) dst src region _ _).bind ?_
      rintro middle _ ⟨env, related⟩
      exact ih (.mk env related) (middle.region region).next

theorem vmmCopyRegions_follows (follow : CallsFollow stop R calls calls') (like : kernel.Like R other) (dst src : Nat) :
    Follows stop (Kernel.Like R) (vmmCopyRegions calls dst src kernel) (vmmCopyRegions calls' dst src other) := by
  obtain ⟨env, related⟩ := like
  exact vmmCopyRegionList_follows follow (.mk env related) dst src walkLimit (kernel.space src).region

end

end B0s
