import B0s.Construction.Machine

/-
This file names the calls of the memory manager to its record and frame allocators, and what it relies on from them.
-/

namespace B0s

/-- The object allocator hands out records of these types. -/
inductive StructType where
  | vmmRegion
  | vmmSpace
  deriving DecidableEq, Repr

/-- The calls of the object allocator return a record, take one back, or fault. -/
structure ObjectCalls (σ : Type) where
  blockAlloc : StructType → σ → Outcome (Nat × σ)
  blockFree : StructType → Nat → σ → Outcome σ

/-- The calls of the frame allocator return a frame, take one back, or fault. -/
structure FrameCalls (σ : Type) where
  pmmXalloc : σ → Outcome (Nat × σ)
  pmmFree : Nat → σ → Outcome σ

/-- The memory manager calls both allocators, which share one state. -/
structure KernelCalls (σ : Type) extends ObjectCalls σ, FrameCalls σ

/-- The object allocator never returns a record in use. -/
structure ObjectAllocator (σ : Type) where
  live : σ → StructType → Nat → Prop
  blockAlloc : StructType → σ → Nat × σ
  blockFree : StructType → Nat → σ → σ
  live_ne_null : ∀ env type ptr, live env type ptr → ptr ≠ NULL
  alloc_fresh : ∀ type env, ¬live env type (blockAlloc type env).1
  alloc_live : ∀ type env type' ptr, live (blockAlloc type env).2 type' ptr ↔
    live env type' ptr ∨ type' = type ∧ ptr = (blockAlloc type env).1
  free_live : ∀ type ptr env, live env type ptr → ∀ type' other,
    live (blockFree type ptr env) type' other ↔ live env type' other ∧ ¬(type' = type ∧ other = ptr)

/-- The frame allocator returns aligned frames that nobody holds. -/
structure FrameAllocator (σ : Type) extends FrameCalls σ where
  managed : Nat → Prop
  held : σ → Nat → Prop
  xalloc_aligned : ∀ env frame env', pmmXalloc env = .ok (frame, env') →
    frame % pageSizeInBytes = 0 ∧ frame < 2 ^ 64
  held_managed : ∀ env frame, held env frame → managed frame
  xalloc_fresh : ∀ env frame env', pmmXalloc env = .ok (frame, env') → ¬held env frame
  xalloc_held : ∀ env frame env', pmmXalloc env = .ok (frame, env') →
    ∀ other, held env' other ↔ held env other ∨ other = frame
  free_held : ∀ env page env', pmmFree page env = .ok env' →
    ∀ other, held env' other ↔ held env other ∧ other ≠ page

/-- The two allocators of the memory manager share one state and keep each other's resources. -/
structure KernelAllocator (σ : Type) extends ObjectAllocator σ, FrameAllocator σ where
  alloc_held : ∀ type env frame, held (blockAlloc type env).2 frame ↔ held env frame
  blockFree_held : ∀ type ptr env frame, held (blockFree type ptr env) frame ↔ held env frame
  xalloc_live : ∀ env frame env', pmmXalloc env = .ok (frame, env') →
    ∀ type ptr, live env' type ptr ↔ live env type ptr
  pmmFree_live : ∀ env page env', pmmFree page env = .ok env' →
    ∀ type ptr, live env' type ptr ↔ live env type ptr

/-- An allocator that obeys the contract always returns. -/
@[reducible] def ObjectAllocator.calls {σ : Type} (objects : ObjectAllocator σ) : ObjectCalls σ where
  blockAlloc type env := .ok (objects.blockAlloc type env)
  blockFree type ptr env := .ok (objects.blockFree type ptr env)

@[reducible] def KernelAllocator.calls {σ : Type} (alloc : KernelAllocator σ) : KernelCalls σ where
  toObjectCalls := alloc.toObjectAllocator.calls
  toFrameCalls := alloc.toFrameAllocator.toFrameCalls

instance {σ : Type} : CoeOut (ObjectAllocator σ) (ObjectCalls σ) := ⟨ObjectAllocator.calls⟩

instance {σ : Type} : CoeOut (FrameAllocator σ) (FrameCalls σ) := ⟨FrameAllocator.toFrameCalls⟩

instance {σ : Type} : CoeOut (KernelAllocator σ) (KernelCalls σ) := ⟨KernelAllocator.calls⟩

/-- The ledger lists the records and the frames in use. -/
structure Ledger where
  records : List (StructType × Nat)
  frames : List Nat
  deriving DecidableEq, Repr

/-- The largest listed number bounds every listed number. -/
theorem le_foldr_max {numbers : List Nat} {number : Nat} (member : number ∈ numbers) :
    number ≤ numbers.foldr max 0 := by
  induction numbers with
  | nil => simp at member
  | cons head rest ih =>
      rcases List.mem_cons.mp member with rfl | inside
      · simp
      · have bound := ih inside
        simp only [List.foldr_cons]
        omega

/-- This allocator numbers records and frames upward from the largest one in use. -/
def ledgerAllocator (pages : Nat) (bounded : pages ≤ 2 ^ 52) : KernelAllocator Ledger where
  live env type ptr := ptr ≠ NULL ∧ (type, ptr) ∈ env.records
  blockAlloc type env :=
    let ptr := (env.records.map Prod.snd).foldr max 0 + 1
    (ptr, { env with records := (type, ptr) :: env.records })
  blockFree type ptr env := { env with records := env.records.filter (· ≠ (type, ptr)) }
  managed frame := ∃ index < pages, frame = index * pageSizeInBytes
  held env frame := ∃ index ∈ env.frames, index < pages ∧ frame = index * pageSizeInBytes
  pmmXalloc env :=
    let index := env.frames.foldr max 0 + 1
    if index < pages then
      .ok (index * pageSizeInBytes, { env with frames := index :: env.frames })
    else .error (.panic .pmmXallocNoMemory)
  pmmFree page env :=
    if page % pageSizeInBytes = 0 ∧ page < pages * pageSizeInBytes then
      .ok { env with frames := env.frames.filter (· ≠ page / pageSizeInBytes) }
    else .error (.panic (.pmmFreeBadPage page))
  live_ne_null _ _ _ alive := alive.1
  alloc_fresh type env alive := by
    have member : (env.records.map Prod.snd).foldr max 0 + 1 ∈ env.records.map Prod.snd :=
      List.mem_map.mpr ⟨_, alive.2, rfl⟩
    have bound := le_foldr_max member
    omega
  alloc_live type env type' ptr := by
    simp only [List.mem_cons, Prod.mk.injEq]
    constructor
    · rintro ⟨nonnull, new | old⟩
      · exact Or.inr new
      · exact Or.inl ⟨nonnull, old⟩
    · rintro (old | new)
      · exact ⟨old.1, Or.inr old.2⟩
      · refine ⟨?_, Or.inl new⟩
        rw [new.2]
        exact Nat.succ_ne_zero _
  free_live type ptr env _ type' other := by
    simp only [List.mem_filter, ne_eq, Prod.mk.injEq, decide_eq_true_eq]
    tauto
  xalloc_aligned env frame env' returned := by
    simp only at returned
    split_ifs at returned with room
    obtain ⟨rfl, -⟩ := Prod.mk.inj (Except.ok.inj returned)
    unfold pageSizeInBytes
    omega
  held_managed env frame held := by
    obtain ⟨index, -, inside, same⟩ := held
    exact ⟨index, inside, same⟩
  xalloc_fresh env frame env' returned := by
    simp only at returned
    split_ifs at returned with room
    obtain ⟨rfl, -⟩ := Prod.mk.inj (Except.ok.inj returned)
    rintro ⟨index, member, -, same⟩
    have bound := le_foldr_max member
    unfold pageSizeInBytes at same
    omega
  xalloc_held env frame env' returned other := by
    simp only at returned
    split_ifs at returned with room
    obtain ⟨rfl, rfl⟩ := Prod.mk.inj (Except.ok.inj returned)
    simp only [List.mem_cons]
    constructor
    · rintro ⟨index, rfl | old, inside, rfl⟩
      · exact Or.inr rfl
      · exact Or.inl ⟨index, old, inside, rfl⟩
    · rintro (⟨index, old, inside, rfl⟩ | rfl)
      · exact ⟨index, Or.inr old, inside, rfl⟩
      · exact ⟨_, Or.inl rfl, room, rfl⟩
  free_held env page env' returned other := by
    split_ifs at returned with valid
    obtain rfl := Except.ok.inj returned
    simp only [List.mem_filter, ne_eq, decide_eq_true_eq]
    unfold pageSizeInBytes at *
    constructor
    · rintro ⟨index, ⟨member, different⟩, inside, rfl⟩
      exact ⟨⟨index, member, inside, rfl⟩, by omega⟩
    · rintro ⟨⟨index, member, inside, rfl⟩, different⟩
      exact ⟨index, ⟨member, by omega⟩, inside, rfl⟩
  alloc_held _ _ _ := Iff.rfl
  blockFree_held _ _ _ _ := Iff.rfl
  xalloc_live env frame env' returned type ptr := by
    simp only at returned
    split_ifs at returned with room
    obtain ⟨rfl, rfl⟩ := Prod.mk.inj (Except.ok.inj returned)
    exact Iff.rfl
  pmmFree_live env page env' returned type ptr := by
    split_ifs at returned with valid
    obtain rfl := Except.ok.inj returned
    exact Iff.rfl

end B0s
