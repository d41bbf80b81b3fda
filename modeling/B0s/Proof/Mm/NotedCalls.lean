import B0s.Proof.Mm.CallsFollow

/-
This file notes what the allocators hand out, and stops at an answer that is in use already.
-/

namespace B0s
open Stopping

variable {σ : Type}

/-- The state of the allocators stands beside the records and the frames that the memory manager uses. -/
structure Noted (σ : Type) where
  env : σ
  records : List (StructType × Nat)
  frames : List Nat

/-- The records and the frames in use are noted beside the kernel. -/
def Kernel.noting (kernel : Kernel σ) (records : List (StructType × Nat)) (frames : List Nat) : Kernel (Noted σ) :=
  kernel.withEnv ⟨kernel.env, records, frames⟩

theorem Kernel.noting_like (kernel : Kernel σ) (records : List (StructType × Nat)) (frames : List Nat) :
    (kernel.noting records frames).Like (fun noted env => noted.env = env) kernel := .mk kernel.env rfl

theorem Kernel.Like.refl (kernel : Kernel σ) : kernel.Like Eq kernel := .mk kernel.env rfl

theorem Kernel.Like.eq {kernel other : Kernel σ} (like : kernel.Like Eq other) : kernel = other := by
  obtain ⟨_, rfl⟩ := like
  rfl

namespace KernelCalls

section
variable (calls : KernelCalls σ) (managed : Nat → Prop) [DecidablePred managed] (stop : Fault)

/-- A checked call stops with the fault when its allocator fails, and when the answer is in use. -/
def checked : KernelCalls (Noted σ) where
  blockAlloc type noted :=
    match calls.blockAlloc type noted.env with
    | .ok (ptr, env) =>
        if ptr ≠ NULL ∧ (type, ptr) ∉ noted.records then
          .ok (ptr, ⟨env, (type, ptr) :: noted.records, noted.frames⟩)
        else .error stop
    | .error _ => .error stop
  blockFree type ptr noted :=
    match calls.blockFree type ptr noted.env with
    | .ok env => .ok ⟨env, noted.records.filter (· ≠ (type, ptr)), noted.frames⟩
    | .error _ => .error stop
  pmmXalloc noted :=
    match calls.pmmXalloc noted.env with
    | .ok (frame, env) =>
        if frame % pageSizeInBytes = 0 ∧ frame < 2 ^ 64 ∧ managed frame ∧ frame ∉ noted.frames then
          .ok (frame, ⟨env, noted.records, frame :: noted.frames⟩)
        else .error stop
    | .error _ => .error stop
  pmmFree page noted :=
    match calls.pmmFree page noted.env with
    | .ok env => .ok ⟨env, noted.records, noted.frames.filter (· ≠ page)⟩
    | .error _ => .error stop

/-- These calls check the frames and accept every record. -/
def checkedFrames : KernelCalls (Noted σ) :=
  { calls.checked managed stop with
    blockAlloc := fun type noted => (calls.blockAlloc type noted.env).map fun answer =>
      (answer.1, ⟨answer.2, (type, answer.1) :: noted.records, noted.frames⟩) }

/-- A record is obtained from the checked calls, or made up where they stop. -/
def takeRecord (type : StructType) (noted : Noted σ) : Nat × Noted σ :=
  match (calls.checked managed stop).blockAlloc type noted with
  | .ok answer => answer
  | .error _ =>
      let ptr := (noted.records.map Prod.snd).foldr max 0 + 1
      (ptr, { noted with records := (type, ptr) :: noted.records })

def returnRecord (type : StructType) (ptr : Nat) (noted : Noted σ) : Noted σ :=
  match (calls.checked managed stop).blockFree type ptr noted with
  | .ok noted => noted
  | .error _ => { noted with records := noted.records.filter (· ≠ (type, ptr)) }

end

section
variable {calls : KernelCalls σ} {managed : Nat → Prop} [DecidablePred managed] {stop : Fault}

/-- The obtained record was not in use, and it is the one that is noted. -/
theorem takeRecord_spec (type : StructType) (noted : Noted σ) :
    ((calls.takeRecord managed stop type noted).1 ≠ NULL ∧
      (type, (calls.takeRecord managed stop type noted).1) ∉ noted.records) ∧
    (calls.takeRecord managed stop type noted).2.records =
      (type, (calls.takeRecord managed stop type noted).1) :: noted.records ∧
    (calls.takeRecord managed stop type noted).2.frames = noted.frames := by
  have madeUp : (noted.records.map Prod.snd).foldr max 0 + 1 ≠ NULL ∧
      (type, (noted.records.map Prod.snd).foldr max 0 + 1) ∉ noted.records := by
    refine ⟨Nat.succ_ne_zero _, fun listed => ?_⟩
    have number : (noted.records.map Prod.snd).foldr max 0 + 1 ∈ noted.records.map Prod.snd :=
      List.mem_map.mpr ⟨_, listed, rfl⟩
    have bound := le_foldr_max number
    omega
  generalize taken : calls.takeRecord managed stop type noted = answer
  rcases called : calls.blockAlloc type noted.env with fault | ⟨fresh, env⟩
  · simp only [takeRecord, checked, called] at taken
    obtain rfl := taken
    exact ⟨madeUp, rfl, rfl⟩
  · simp only [takeRecord, checked, called] at taken
    by_cases unused : fresh ≠ NULL ∧ (type, fresh) ∉ noted.records
    · rw [if_pos unused] at taken
      obtain rfl := taken
      exact ⟨unused, rfl, rfl⟩
    · rw [if_neg unused] at taken
      obtain rfl := taken
      exact ⟨madeUp, rfl, rfl⟩

theorem returnRecord_spec (type : StructType) (ptr : Nat) (noted : Noted σ) :
    (calls.returnRecord managed stop type ptr noted).records = noted.records.filter (· ≠ (type, ptr)) ∧
      (calls.returnRecord managed stop type ptr noted).frames = noted.frames := by
  simp only [returnRecord, checked]
  rcases calls.blockFree type ptr noted.env with fault | env
  · exact ⟨rfl, rfl⟩
  · exact ⟨rfl, rfl⟩

/-- A checked frame is aligned, belongs to the frame allocator, and was not in use. -/
theorem checked_pmmXalloc {noted noted' : Noted σ} {frame : Nat}
    (returned : (calls.checked managed stop).pmmXalloc noted = .ok (frame, noted')) :
    (frame % pageSizeInBytes = 0 ∧ frame < 2 ^ 64 ∧ managed frame ∧ frame ∉ noted.frames) ∧
      noted'.records = noted.records ∧ noted'.frames = frame :: noted.frames := by
  rcases called : calls.pmmXalloc noted.env with fault | ⟨fresh, env⟩
  · simp only [checked, called, reduceCtorEq] at returned
  · simp only [checked, called] at returned
    split_ifs at returned with unused
    obtain ⟨rfl, rfl⟩ := Prod.mk.inj (Except.ok.inj returned)
    exact ⟨unused, rfl, rfl⟩

theorem checked_pmmFree {noted noted' : Noted σ} {page : Nat}
    (returned : (calls.checked managed stop).pmmFree page noted = .ok noted') :
    noted'.records = noted.records ∧ noted'.frames = noted.frames.filter (· ≠ page) := by
  rcases called : calls.pmmFree page noted.env with fault | env
  · simp only [checked, called, reduceCtorEq] at returned
  · simp only [checked, called] at returned
    obtain rfl := Except.ok.inj returned
    exact ⟨rfl, rfl⟩

end

/-- An allocator that obeys the contract answers like the checked calls wherever they do not stop. -/
def noted (calls : KernelCalls σ) (managed : Nat → Prop) [DecidablePred managed] (stop : Fault) :
    KernelAllocator (Noted σ) where
  live noted type ptr := ptr ≠ NULL ∧ (type, ptr) ∈ noted.records
  blockAlloc := calls.takeRecord managed stop
  blockFree := calls.returnRecord managed stop
  managed := managed
  held noted frame := frame ∈ noted.frames ∧ managed frame
  pmmXalloc := (calls.checked managed stop).pmmXalloc
  pmmFree := (calls.checked managed stop).pmmFree
  live_ne_null _ _ _ alive := alive.1
  alloc_fresh type noted alive := (takeRecord_spec type noted).1.2 alive.2
  alloc_live type noted type' ptr := by
    obtain ⟨⟨nonnull, -⟩, records, -⟩ := @takeRecord_spec _ calls managed _ stop type noted
    rw [records, List.mem_cons, Prod.mk.injEq]
    constructor
    · rintro ⟨present, new | old⟩
      · exact Or.inr new
      · exact Or.inl ⟨present, old⟩
    · rintro (⟨present, old⟩ | ⟨rfl, rfl⟩)
      · exact ⟨present, Or.inr old⟩
      · exact ⟨nonnull, Or.inl ⟨rfl, rfl⟩⟩
  free_live type ptr noted _ type' other := by
    rw [(returnRecord_spec type ptr noted).1, List.mem_filter, decide_eq_true_iff, ne_eq, ne_eq, Prod.mk.injEq, and_assoc]
  xalloc_aligned noted frame noted' returned := by
    obtain ⟨⟨aligned, bounded, -⟩, -⟩ := checked_pmmXalloc returned
    exact ⟨aligned, bounded⟩
  held_managed _ _ held := held.2
  xalloc_fresh noted frame noted' returned held := (checked_pmmXalloc returned).1.2.2.2 held.1
  xalloc_held noted frame noted' returned other := by
    obtain ⟨⟨-, -, belongs, -⟩, -, frames⟩ := checked_pmmXalloc returned
    rw [frames, List.mem_cons]
    constructor
    · rintro ⟨rfl | old, owned⟩
      · exact Or.inr rfl
      · exact Or.inl ⟨old, owned⟩
    · rintro (⟨old, owned⟩ | rfl)
      · exact ⟨Or.inr old, owned⟩
      · exact ⟨Or.inl rfl, belongs⟩
  free_held noted page noted' returned other := by
    rw [(checked_pmmFree returned).2, List.mem_filter, decide_eq_true_iff, ne_eq, and_right_comm]
  alloc_held type noted frame := by
    rw [(takeRecord_spec type noted).2.2]
  blockFree_held type ptr noted frame := by
    rw [(returnRecord_spec type ptr noted).2]
  xalloc_live noted frame noted' returned type ptr := by
    rw [(checked_pmmXalloc returned).2.1]
  pmmFree_live noted page noted' returned type ptr := by
    rw [(checked_pmmFree returned).1]

variable {calls : KernelCalls σ} {managed : Nat → Prop} [DecidablePred managed] {stop : Fault}

/-- The checked calls give the answers of the allocators. -/
theorem checked_follows :
    CallsFollow stop (fun noted env => noted.env = env) (calls.checked managed stop) calls := by
  refine ⟨?_, ?_, ?_, ?_⟩
  · rintro noted _ rfl type
    simp only [checked]
    rcases calls.blockAlloc type noted.env with fault | ⟨ptr, env⟩
    · exact .stops _
    · dsimp only
      split_ifs
      · exact .returns (.mk ptr _ _ rfl)
      · exact .stops _
  · rintro noted _ rfl type ptr
    simp only [checked]
    rcases calls.blockFree type ptr noted.env with fault | env
    · exact .stops _
    · exact .returns rfl
  · rintro noted _ rfl
    simp only [checked]
    rcases calls.pmmXalloc noted.env with fault | ⟨frame, env⟩
    · exact .stops _
    · dsimp only
      split_ifs
      · exact .returns (.mk frame _ _ rfl)
      · exact .stops _
  · rintro noted _ rfl page
    simp only [checked]
    rcases calls.pmmFree page noted.env with fault | env
    · exact .stops _
    · exact .returns rfl

theorem checkedFrames_follows :
    CallsFollow stop (fun noted env => noted.env = env) (calls.checkedFrames managed stop) calls := by
  have follow := @checked_follows _ calls managed _ stop
  refine ⟨?_, follow.blockFree, follow.pmmXalloc, follow.pmmFree⟩
  rintro noted _ rfl type
  simp only [checkedFrames]
  rcases calls.blockAlloc type noted.env with fault | ⟨ptr, env⟩
  · exact .fails fault
  · exact .returns (.mk ptr _ _ rfl)

/-- The checks of frames do not depend on the noted records. -/
theorem checkedFrames_records :
    CallsFollow stop (fun noted noted' => noted.env = noted'.env ∧ noted.frames = noted'.frames)
      (calls.checkedFrames managed stop) (calls.checkedFrames managed stop) := by
  refine ⟨?_, ?_, ?_, ?_⟩
  · rintro ⟨env, records, frames⟩ ⟨_, records', _⟩ ⟨rfl, rfl⟩ type
    simp only [checkedFrames]
    rcases calls.blockAlloc type env with fault | ⟨ptr, env⟩
    · exact .fails fault
    · exact .returns (.mk ptr _ _ ⟨rfl, rfl⟩)
  · rintro ⟨env, records, frames⟩ ⟨_, records', _⟩ ⟨rfl, rfl⟩ type ptr
    simp only [checkedFrames, checked]
    rcases calls.blockFree type ptr env with fault | env
    · exact .fails stop
    · exact .returns ⟨rfl, rfl⟩
  · rintro ⟨env, records, frames⟩ ⟨_, records', _⟩ ⟨rfl, rfl⟩
    simp only [checkedFrames, checked]
    rcases calls.pmmXalloc env with fault | ⟨frame, env⟩
    · exact .fails stop
    · exact .ite (.returns (.mk frame _ _ ⟨rfl, rfl⟩)) (.fails stop)
  · rintro ⟨env, records, frames⟩ ⟨_, records', _⟩ ⟨rfl, rfl⟩ page
    simp only [checkedFrames, checked]
    rcases calls.pmmFree page env with fault | env
    · exact .fails stop
    · exact .returns ⟨rfl, rfl⟩

/-- A record that is not in use passes the check. -/
theorem checked_blockAlloc {type : StructType} {noted : Noted σ} {ptr : Nat} {env : σ}
    (returned : calls.blockAlloc type noted.env = .ok (ptr, env)) (unused : ptr ≠ NULL ∧ (type, ptr) ∉ noted.records) :
    (calls.checked managed stop).blockAlloc type noted = (calls.checkedFrames managed stop).blockAlloc type noted := by
  simp only [checked, checkedFrames, returned, if_pos unused, Except.map]

/-- A checked call fails in one way only. -/
theorem checked_blockAlloc_fault {type : StructType} {noted : Noted σ} {fault : Fault}
    (failed : (calls.checked managed stop).blockAlloc type noted = .error fault) : stop = fault := by
  rcases called : calls.blockAlloc type noted.env with other | ⟨ptr, env⟩
  · simp only [checked, called] at failed
    exact Except.error.inj failed
  · simp only [checked, called] at failed
    split_ifs at failed
    exact Except.error.inj failed

theorem checked_blockFree_fault {type : StructType} {ptr : Nat} {noted : Noted σ} {fault : Fault}
    (failed : (calls.checked managed stop).blockFree type ptr noted = .error fault) : stop = fault := by
  rcases called : calls.blockFree type ptr noted.env with other | env
  · simp only [checked, called] at failed
    exact Except.error.inj failed
  · simp only [checked, called, reduceCtorEq] at failed

theorem checked_pmmXalloc_fault {noted : Noted σ} {fault : Fault}
    (failed : (calls.checked managed stop).pmmXalloc noted = .error fault) : stop = fault := by
  rcases called : calls.pmmXalloc noted.env with other | ⟨frame, env⟩
  · simp only [checked, called] at failed
    exact Except.error.inj failed
  · simp only [checked, called] at failed
    split_ifs at failed
    exact Except.error.inj failed

/-- The contract holds of the answers of the checked calls. -/
theorem checked_noted :
    CallsFollow stop Eq (calls.checked managed stop) (calls.noted managed stop).calls := by
  refine ⟨?_, ?_, ?_, ?_⟩
  · rintro noted _ rfl type
    change Follows stop _ _ (.ok (calls.takeRecord managed stop type noted))
    rw [takeRecord]
    rcases returned : (calls.checked managed stop).blockAlloc type noted with fault | ⟨ptr, noted'⟩
    · obtain rfl := checked_blockAlloc_fault returned
      exact .stops _
    · exact .returns (.mk ptr _ _ rfl)
  · rintro noted _ rfl type ptr
    change Follows stop _ _ (.ok (calls.returnRecord managed stop type ptr noted))
    rw [returnRecord]
    rcases returned : (calls.checked managed stop).blockFree type ptr noted with fault | noted'
    · obtain rfl := checked_blockFree_fault returned
      exact .stops _
    · exact .returns rfl
  · rintro noted _ rfl
    change Follows stop _ ((calls.checked managed stop).pmmXalloc noted) ((calls.checked managed stop).pmmXalloc noted)
    rcases (calls.checked managed stop).pmmXalloc noted with fault | ⟨frame, noted'⟩
    · exact .fails fault
    · exact .returns (.mk frame _ _ rfl)
  · rintro noted _ rfl page
    exact .refl _

end KernelCalls

end B0s
