import B0s.Proof.Mm.BootMemory
import B0s.Proof.Multitasking.IsolationRun

/-
This file proves that the memory manager leaves alone the pages that `pmm_init` takes for its bitmaps.
-/

namespace B0s

variable {σ ρ τ : Type}

/-- The states in which these pages are held. -/
abbrev FrameAllocator.Keeping (frames : FrameAllocator τ) (reserved : List Nat) : Type :=
  { env : τ // ∀ page ∈ reserved, frames.held env page }

section
variable {frames : FrameAllocator τ} {reserved : List Nat} {env env' : frames.Keeping reserved} {frame page count : Nat}

def FrameAllocator.keepXalloc (env : frames.Keeping reserved) : Outcome (Nat × frames.Keeping reserved) :=
  match done : frames.pmmXalloc env.1 with
  | .ok taken => .ok (taken.1, ⟨taken.2, fun page member =>
      (frames.xalloc_held _ _ _ done page).mpr (Or.inl (env.2 page member))⟩)
  | .error fault => .error fault

/-- A release of a reserved page is left out: `Kernel.Avoids` says that no page of the memory manager is one. -/
def FrameAllocator.keepFree (page : Nat) (env : frames.Keeping reserved) : Outcome (frames.Keeping reserved) :=
  if kept : page ∈ reserved then .error .diverges
  else
    match done : frames.pmmFree page env.1 with
    | .ok freed => .ok ⟨freed, fun other member =>
        (frames.free_held _ _ _ done other).mpr ⟨env.2 other member, fun same => kept (same ▸ member)⟩⟩
    | .error fault => .error fault

theorem FrameAllocator.keepXalloc_eq_ok :
    FrameAllocator.keepXalloc env = .ok (frame, env') ↔ frames.pmmXalloc env.1 = .ok (frame, env'.1) := by
  unfold FrameAllocator.keepXalloc
  split
  · rename_i taken done
    constructor
    · intro same
      obtain ⟨rfl, rfl⟩ := Prod.mk.inj (Except.ok.inj same)
      exact done
    · intro same
      obtain rfl := Except.ok.inj (done.symm.trans same)
      rfl
  · rename_i fault failed
    constructor
    · intro same
      cases same
    · intro same
      cases failed.symm.trans same

theorem FrameAllocator.keepFree_eq_ok (done : FrameAllocator.keepFree page env = .ok env') :
    frames.pmmFree page env.1 = .ok env'.1 ∧ page ∉ reserved := by
  unfold FrameAllocator.keepFree at done
  split_ifs at done with kept
  split at done
  · rename_i freed returned
    obtain rfl := Except.ok.inj done
    exact ⟨returned, kept⟩
  · cases done

/-- The allocator keeps the reserved pages for itself. -/
def FrameAllocator.reserve (frames : FrameAllocator τ) (reserved : List Nat) :
    FrameAllocator (frames.Keeping reserved) where
  managed := frames.managed
  held env page := frames.held env.1 page ∧ page ∉ reserved
  pmmXalloc := FrameAllocator.keepXalloc
  pmmFree := FrameAllocator.keepFree
  xalloc_aligned _ _ _ done := frames.xalloc_aligned _ _ _ (FrameAllocator.keepXalloc_eq_ok.mp done)
  held_managed _ _ held := frames.held_managed _ _ held.1
  xalloc_fresh _ _ _ done held := frames.xalloc_fresh _ _ _ (FrameAllocator.keepXalloc_eq_ok.mp done) held.1
  xalloc_held := by
    intro env frame env' done other
    have returned := FrameAllocator.keepXalloc_eq_ok.mp done
    have fresh : frame ∉ reserved := fun member => frames.xalloc_fresh _ _ _ returned (env.2 frame member)
    rw [frames.xalloc_held _ _ _ returned]
    constructor
    · rintro ⟨held | rfl, apart⟩
      · exact Or.inl ⟨held, apart⟩
      · exact Or.inr rfl
    · rintro (⟨held, apart⟩ | rfl)
      · exact ⟨Or.inl held, apart⟩
      · exact ⟨Or.inr rfl, fresh⟩
  free_held := by
    intro env page env' done other
    rw [frames.free_held _ _ _ (FrameAllocator.keepFree_eq_ok done).1]
    exact and_right_comm

/-- Reserved pages do not count. -/
theorem FrameAllocator.Lasts.reserve (lasts : frames.Lasts count env.1) : (frames.reserve reserved).Lasts count env := by
  induction count generalizing env with
  | zero => trivial
  | succ count ih =>
      obtain ⟨⟨frame, final⟩, returned, rest⟩ := lasts
      have held : ∀ page ∈ reserved, frames.held final page := fun page member =>
        (frames.xalloc_held _ _ _ returned page).mpr (Or.inl (env.2 page member))
      have done : FrameAllocator.keepXalloc env = .ok (frame, ⟨final, held⟩) :=
        FrameAllocator.keepXalloc_eq_ok.mpr returned
      exact ⟨_, done, ih rest⟩

end

/-- No page table, no page of a process and no page of the kernel heap lies on the physical page. -/
structure Kernel.Avoids (kernel : Kernel σ) (kspace : Nat) (users : List Nat) (page : Nat) : Prop where
  table : ¬kernel.IsTable (· ∈ kspace :: users) (dmP2V page)
  mapped : ∀ {space va}, OwnPage kspace users space va → CanonicalPage va → mmuLeaf space va kernel ≠ 0 →
    kernel.frame space va ≠ page

/-- Isolated spaces avoid every page that the allocator does not hold for them. -/
theorem Isolated.avoids {alloc : KernelAllocator σ} {kspace top : Nat} {users : List Nat} {lists : Nat → List Nat}
    {kernel : Kernel σ} {page : Nat} (isolated : Isolated alloc kspace top users lists kernel)
    (spared : ¬alloc.held kernel.env page) (bounded : page < 2 ^ 64) : kernel.Avoids kspace users page where
  table := by
    intro reached
    obtain ⟨frame, held, -, small, same⟩ := isolated.coexist.pages.tables.backed _ reached
    exact spared (dmP2V_injective bounded small same ▸ held)
  mapped := by
    rintro space va own canonical present rfl
    exact spared (isolated.coexist.pages.owned own canonical present).1

/-- The frames of `pmm.c` without the pages that `pmm_init` takes. -/
noncomputable def bootFrames (undefined garbage : Nat → Nat) (pages : List Nat) (pmm : Pmm) :
    FrameAllocator ((pmmFrames undefined garbage pmm.pmap).Keeping (pages.filter (· ≠ NULL))) :=
  (pmmFrames undefined garbage pmm.pmap).reserve (pages.filter (· ≠ NULL))

end B0s
