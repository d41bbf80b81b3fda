import B0s.Proof.Mm.KheapRecord
import B0s.Proof.Multitasking.IsolationRun

/-
This file runs the kernel heap over the pages of the kernel space, between calls that create processes and map their pages.
-/

namespace B0s
open ByteMemory DoublyLinked RangeMap

variable {σ : Type}

/-- The recorded ranges lie apart in the heap, and the kernel space maps their pages. -/
structure RecordMapped (kspace : Nat) (ranges : List (Nat × Nat)) (kernel : Kernel σ) : Prop where
  apart : ranges.Pairwise fun first second =>
    first.1 + first.2 * pageSizeInBytes ≤ second.1 ∨ second.1 + second.2 * pageSizeInBytes ≤ first.1
  window : ∀ range ∈ ranges, HalfWindow range.1 (range.1 + range.2 * pageSizeInBytes) ∧
    kernelHeapStart ≤ range.1 ∧ range.1 + range.2 * pageSizeInBytes ≤ kernelHeapStop
  mapped : ∀ range ∈ ranges, ∀ {va}, WindowPage range.1 (range.1 + range.2 * pageSizeInBytes) va →
    mmuLeaf kspace va kernel ≠ 0 ∧ mmuLeaf kspace va kernel % pageSizeInBytes = pageKernelRw

/-- The pages of the ranges that stay on record keep their entries. -/
def KeepsPages (kspace : Nat) (ranges ranges' : List (Nat × Nat)) (kernel kernel' : Kernel σ) : Prop :=
  ∀ range ∈ ranges, range ∈ ranges' → ∀ {va}, WindowPage range.1 (range.1 + range.2 * pageSizeInBytes) va →
    mmuLeaf kspace va kernel' = mmuLeaf kspace va kernel

section
variable {kspace va pages : Nat} {ranges : List (Nat × Nat)} {kernel kernel' : Kernel σ} {users : List Nat}

/-- Aligned windows that meet have a page in common. -/
theorem HalfWindow.common {start stop start' stop' : Nat} (window : HalfWindow start stop) (window' : HalfWindow start' stop')
    (meets : ¬(stop ≤ start' ∨ stop' ≤ start)) : ∃ va, WindowPage start stop va ∧ WindowPage start' stop' va := by
  obtain ⟨first, second⟩ := not_or.mp meets
  have nonempty := window.nonempty
  have nonempty' := window'.nonempty
  rcases le_total start start' with order | order
  · exact ⟨start', ⟨order, by omega, window'.alignedStart⟩, ⟨le_rfl, nonempty', window'.alignedStart⟩⟩
  · exact ⟨start, ⟨le_rfl, nonempty, window.alignedStart⟩, ⟨order, by omega, window.alignedStart⟩⟩

/-- The page of a byte of a window lies in the window. -/
theorem HalfWindow.page {start stop addr : Nat} (window : HalfWindow start stop) (low : start ≤ addr) (high : addr < stop) :
    WindowPage start stop (pageOf addr) := by
  have alignedStart := window.alignedStart
  unfold pageSizeInBytes at alignedStart
  refine ⟨?_, ?_, Nat.mul_mod_left _ _⟩
  · unfold pageOf pageSizeInBytes
    omega
  · unfold pageOf pageSizeInBytes
    omega

/-- Pages that a call fills are fresh for the record. -/
theorem RecordMapped.fresh (record : RecordMapped kspace ranges kernel)
    (window : HalfWindow va (va + pages * pageSizeInBytes))
    (changed : LeavesChanged (· ∈ kspace :: users) (Fills pageKernelRw) kernel kernel' kspace va
      (va + pages * pageSizeInBytes)) : FreshRange ranges va pages := by
  refine ⟨window.alignedStart, window.addressable, fun range member => ?_⟩
  by_contra meets
  obtain ⟨page, inside, inside'⟩ := window.common (record.window range member).1 meets
  exact (record.mapped range member inside').1 (changed.inside inside).1

/-- New pages of the heap are recorded. -/
theorem RecordMapped.grow (record : RecordMapped kspace ranges kernel)
    (window : HalfWindow va (va + pages * pageSizeInBytes))
    (own : kernelHeapStart ≤ va ∧ va + pages * pageSizeInBytes ≤ kernelHeapStop)
    (changed : LeavesChanged (· ∈ kspace :: users) (Fills pageKernelRw) kernel kernel' kspace va
      (va + pages * pageSizeInBytes)) :
    RecordMapped kspace ((va, pages) :: ranges) kernel' ∧ KeepsPages kspace ranges ((va, pages) :: ranges) kernel kernel' := by
  have fresh := record.fresh window changed
  have kept : KeepsPages kspace ranges ((va, pages) :: ranges) kernel kernel' := by
    intro range member _ page inside
    have whole := (record.window range member).1
    apply changed.outside List.mem_cons_self (whole.span.pages page inside.lower inside.upper inside.aligned)
    rintro ⟨-, lower, upper⟩
    have lower' := inside.lower
    have upper' := inside.upper
    rcases fresh.2.2 range member with before | after
    · omega
    · omega
  refine ⟨⟨List.pairwise_cons.mpr ⟨fresh.2.2, record.apart⟩, ?_, ?_⟩, kept⟩
  · intro range member
    rcases List.mem_cons.mp member with rfl | old
    · exact ⟨window, own⟩
    · exact record.window range old
  · intro range member page inside
    rcases List.mem_cons.mp member with rfl | old
    · exact (changed.inside inside).2
    · rw [kept range old member inside]
      exact record.mapped range old inside

/-- Pages that the heap gives back leave the record. -/
theorem RecordMapped.shrink (record : RecordMapped kspace ranges kernel) (listed : (va, pages) ∈ ranges)
    (changed : LeavesChanged (· ∈ kspace :: users) Clears kernel kernel' kspace va (va + pages * pageSizeInBytes)) :
    RecordMapped kspace (ranges.erase (va, pages)) kernel' ∧
      KeepsPages kspace ranges (ranges.erase (va, pages)) kernel kernel' := by
  have sublist : (ranges.erase (va, pages)).Sublist ranges := List.erase_sublist
  have away : ∀ range ∈ ranges.erase (va, pages), va + pages * pageSizeInBytes ≤ range.1 ∨
      range.1 + range.2 * pageSizeInBytes ≤ va := by
    intro range member
    have split := (List.perm_cons_erase listed).pairwise_iff (fun different => different.symm) |>.mp record.apart
    exact (List.pairwise_cons.mp split).1 range member
  have kept : KeepsPages kspace ranges (ranges.erase (va, pages)) kernel kernel' := by
    intro range member remaining page inside
    have whole := (record.window range member).1
    apply changed.outside List.mem_cons_self (whole.span.pages page inside.lower inside.upper inside.aligned)
    rintro ⟨-, lower, upper⟩
    have lower' := inside.lower
    have upper' := inside.upper
    rcases away range remaining with before | after
    · omega
    · omega
  refine ⟨⟨record.apart.sublist sublist, fun range member => record.window range (sublist.subset member), ?_⟩, kept⟩
  intro range member page inside
  rw [kept range (sublist.subset member) member inside]
  exact record.mapped range (sublist.subset member) inside

/-- Entries of the kernel space that stay keep the record. -/
theorem RecordMapped.kept (record : RecordMapped kspace ranges kernel)
    (same : ∀ {va}, CanonicalPage va → kernelHeapStart ≤ va → mmuLeaf kspace va kernel' = mmuLeaf kspace va kernel) :
    RecordMapped kspace ranges kernel' ∧ KeepsPages kspace ranges ranges kernel kernel' := by
  have kept : KeepsPages kspace ranges ranges kernel kernel' := by
    intro range member _ page inside
    obtain ⟨whole, low, -⟩ := record.window range member
    exact same (whole.span.pages page inside.lower inside.upper inside.aligned) (low.trans inside.lower)
  refine ⟨⟨record.apart, record.window, ?_⟩, kept⟩
  intro range member page inside
  rw [kept range member member inside]
  exact record.mapped range member inside

end

/-- The heap of the kernel and the spaces of its processes share one memory manager. -/
structure KernelState (σ : Type) where
  heap : HeapState (Kernel σ)
  users : List Nat

/-- The pages that the heap gets hold arbitrary bytes. -/
inductive KernelCall where
  | heap (bytes : Memory) (call : HeapCall)
  | memory (call : MemoryCall)

def kernelCall (alloc : KernelAllocator σ) (debug : Bool) (kspace : Nat) :
    KernelCall → KernelState σ → Outcome (KernelState σ)
  | .heap bytes call, state => heapCallOver (kspacePages alloc kspace bytes) call state.heap >>= fun heap =>
      .ok { state with heap := heap }
  | .memory call, state => call.run alloc debug kspace state.heap.kheap.env >>= fun result =>
      .ok ⟨{ state.heap with kheap := { state.heap.kheap with env := result.2 } }, call.users result.1 state.users⟩

def kernelStep (alloc : KernelAllocator σ) (debug : Bool) (kspace : Nat) (call : KernelCall)
    (state state' : KernelState σ) : Prop :=
  kernelCall alloc debug kspace call state = .ok state'

/-- The pages of a request fit behind every region of the kernel space. -/
def HeapCall.Fits (top : Nat) : HeapCall → Prop
  | .kmalloc sizeInBytes => sizeInBytes + sizeofBlock < 2 ^ 64 ∧
      top + (heapPages sizeInBytes + 3) * pageSizeInBytes ≤ 2 ^ 64
  | .kfree _ => True
  | .write _ _ => True

/-- The heap alone maps and frees its pages. -/
def MemoryCall.OfUser (users : List Nat) : MemoryCall → Prop
  | .create => True
  | .allocAt _ _ _ _ => True
  | .heapAlloc _ => False
  | .free space _ _ => space ∈ users

/-- Clients use the heap as it asks for, and they map and free pages of processes. -/
def KernelState.Allows (kspace top : Nat) : KernelCall → KernelState σ → Prop
  | .heap _ call, state => state.heap.Allows call ∧ state.heap.Safe call ∧ call.Fits top
  | .memory call, state => call.Valid kspace top state.users ∧ call.OfUser state.users

/-- The heap lies on the recorded pages of the kernel space, beside isolated processes. -/
structure KernelHolds (alloc : KernelAllocator σ) (kspace top : Nat) (lists : Nat → List Nat) (ranges : List (Nat × Nat))
    (cs : List Cont) (state : KernelState σ) : Prop where
  isolated : Isolated alloc kspace top state.users lists state.heap.kheap.env
  heap : HeapState.Holds (kspacePages alloc kspace fun _ => 0).recorded (state.heap.record ranges) cs
  record : RecordMapped kspace ranges state.heap.kheap.env

section
variable {alloc : KernelAllocator σ} {debug : Bool} {kspace top n pages : Nat} {lists : Nat → List Nat}
  {ranges ranges' : List (Nat × Nat)} {cs : List Cont} {users : List Nat} {kernel kernel' : Kernel σ} {bytes : Memory}
  {state state' : KernelState σ} {fault : Fault}

theorem OwnWindow.heap {start stop : Nat} (own : OwnWindow kspace users kspace start stop) (foreign : kspace ∉ users) :
    kernelHeapStart ≤ start ∧ stop ≤ kernelHeapStop :=
  (own.resolve_left fun user => foreign user.1).2

/-- The pages that the heap gets are fresh for its record. -/
theorem Isolated.freshPages (isolated : Isolated alloc kspace top users lists kernel)
    (record : RecordMapped kspace ranges kernel) (positive : 0 < pages)
    (room : top + (pages + 3) * pageSizeInBytes ≤ 2 ^ 64) :
    FreshPages (kspacePages alloc kspace bytes) kernel ranges pages := by
  intro va got kernel' obtained nonnull
  rcases isolated.heapAlloc positive room (kspacePages_eq_ok.mp obtained).1 with
    ⟨null, -⟩ | ⟨lists', window, -, -, changed⟩
  · exact absurd null nonnull
  · exact record.fresh window changed

/-- An allocation keeps the spaces isolated and records its pages. -/
theorem Isolated.grows (isolated : Isolated alloc kspace top users lists kernel)
    (record : RecordMapped kspace ranges kernel) (room : top + (heapPages n + 3) * pageSizeInBytes ≤ 2 ^ 64)
    (grows : GrowsBy (kspacePages alloc kspace bytes) n kernel kernel' ranges ranges') :
    ranges ⊆ ranges' ∧ KeepsPages kspace ranges ranges' kernel kernel' ∧ RecordMapped kspace ranges' kernel' ∧
      ∃ lists', Isolated alloc kspace top users lists' kernel' := by
  have unchanged : KeepsPages kspace ranges ranges kernel kernel := fun _ _ _ _ _ => rfl
  rcases grows with ⟨rfl, rfl⟩ | ⟨va, got, obtained, rfl⟩
  · exact ⟨List.Subset.refl _, unchanged, record, lists, isolated⟩
  · have few : 5 ≤ heapPages n := le_max_left _ _
    rcases isolated.heapAlloc (by omega) room (kspacePages_eq_ok.mp obtained).1 with
      ⟨rfl, rfl⟩ | ⟨lists', window, own, isolated', changed⟩
    · rw [if_pos rfl]
      exact ⟨List.Subset.refl _, unchanged, record, lists, isolated⟩
    · have heap := own.heap isolated.foreign
      have nonnull : va ≠ NULL := by
        rintro rfl
        exact absurd heap.1 (by decide)
      obtain ⟨record', kept⟩ := record.grow window heap changed
      rw [if_neg nonnull]
      exact ⟨List.subset_cons_self _ _, kept, record', lists', isolated'⟩

/-- A free of the heap keeps the spaces isolated and gives up its pages. -/
theorem Isolated.shrinks (isolated : Isolated alloc kspace top users lists kernel)
    (record : RecordMapped kspace ranges kernel)
    (shrinks : ShrinksBy (kspacePages alloc kspace bytes) kernel kernel' ranges ranges') :
    ranges' ⊆ ranges ∧ KeepsPages kspace ranges ranges' kernel kernel' ∧ RecordMapped kspace ranges' kernel' ∧
      ∃ lists', Isolated alloc kspace top users lists' kernel' := by
  rcases shrinks with ⟨rfl, rfl⟩ | ⟨va, pages, listed, freed, rfl⟩
  · exact ⟨List.Subset.refl _, fun _ _ _ _ _ => rfl, record, lists, isolated⟩
  · obtain ⟨window, own⟩ := record.window _ listed
    obtain ⟨lists', isolated', changed⟩ := isolated.free window (Or.inr ⟨rfl, own⟩) freed
    obtain ⟨record', kept⟩ := record.shrink listed changed
    exact ⟨List.erase_subset, kept, record', lists', isolated'⟩

/-- A call of the heap is one on its record, and it keeps the spaces isolated. -/
theorem KernelHolds.callHeap {call : HeapCall} {heap' : HeapState (Kernel σ)}
    (holds : KernelHolds alloc kspace top lists ranges cs state) (allowed : state.heap.Allows call)
    (safe : state.heap.Safe call) (fits : call.Fits top)
    (done : heapCallOver (kspacePages alloc kspace bytes) call state.heap = .ok heap') :
    ∃ lists' ranges' cs', heapStep (kspacePages alloc kspace bytes).recorded call (state.heap.record ranges)
        (heap'.record ranges') ∧
      KernelHolds alloc kspace top lists' ranges' cs' ⟨heap', state.users⟩ ∧ (ranges ⊆ ranges' ∨ ranges' ⊆ ranges) ∧
      KeepsPages kspace ranges ranges' state.heap.kheap.env heap'.kheap.env := by
  obtain ⟨isolated, heap, record⟩ := holds
  have recorded : HeapState.Holds (kspacePages alloc kspace bytes).recorded (state.heap.record ranges) cs := heap.resourced
  have allowed' : (state.heap.record ranges).Allows call := by cases call <;> exact allowed
  have safe' : (state.heap.record ranges).Safe call := by cases call <;> exact safe
  have finish : ∀ {ranges'}, heapStep (kspacePages alloc kspace bytes).recorded call (state.heap.record ranges)
        (heap'.record ranges') → (ranges ⊆ ranges' ∨ ranges' ⊆ ranges) →
      KeepsPages kspace ranges ranges' state.heap.kheap.env heap'.kheap.env →
      RecordMapped kspace ranges' heap'.kheap.env →
      (∃ lists', Isolated alloc kspace top state.users lists' heap'.kheap.env) →
      ∃ lists' ranges' cs', heapStep (kspacePages alloc kspace bytes).recorded call (state.heap.record ranges)
          (heap'.record ranges') ∧
        KernelHolds alloc kspace top lists' ranges' cs' ⟨heap', state.users⟩ ∧ (ranges ⊆ ranges' ∨ ranges' ⊆ ranges) ∧
        KeepsPages kspace ranges ranges' state.heap.kheap.env heap'.kheap.env := by
    rintro ranges' steps order kept record' ⟨lists', isolated'⟩
    obtain ⟨cs', heap'⟩ := recorded.step allowed' safe' steps
    exact ⟨lists', ranges', cs', steps, ⟨isolated', heap'.resourced, record'⟩, order, kept⟩
  cases call with
  | kmalloc n =>
      obtain ⟨⟨ptr, kheap'⟩, returned, rest⟩ := Outcome.bind_eq_ok.mp done
      have few : 5 ≤ heapPages n := le_max_left _ _
      obtain ⟨ranges', returned', grows⟩ :=
        kmalloc_recorded (isolated.freshPages record (by omega) fits.2) returned
      have env : heap'.kheap = kheap' := by
        dsimp only at rest
        split_ifs at rest <;> exact (congrArg HeapState.kheap (Except.ok.inj rest)).symm
      have steps : heapStep (kspacePages alloc kspace bytes).recorded (.kmalloc n) (state.heap.record ranges)
          (heap'.record ranges') := by
        rw [heapStep, heapCall_over, heapCallOver, HeapState.record, returned', Outcome.ok_bind]
        dsimp only at rest ⊢
        split_ifs at rest ⊢ with null <;> rw [← Except.ok.inj rest] <;> rfl
      rw [← env] at grows
      obtain ⟨order, kept, record', isolated'⟩ := isolated.grows record fits.2 grows
      exact finish steps (Or.inl order) kept record' isolated'
  | kfree ptr =>
      obtain ⟨kheap', returned, rest⟩ := Outcome.bind_eq_ok.mp done
      obtain rfl := Except.ok.inj rest
      obtain ⟨final, cs', steps, -, -, -⟩ := recorded.kfree allowed' safe'
      obtain ⟨recorded', returned', same⟩ := Outcome.bind_eq_ok.mp steps
      rcases kfree_recorded returned' with ⟨kheap'', ranges', freed, rfl, shrinks⟩ | ⟨fault, va, pages, failed, -, -⟩
      · obtain rfl := Except.ok.inj (returned.symm.trans freed)
        obtain ⟨order, kept, record', isolated'⟩ := isolated.shrinks record shrinks
        exact finish (steps.trans (congrArg Except.ok (Except.ok.inj same).symm)) (Or.inr order) kept record' isolated'
      · rw [failed] at returned
        cases returned
  | write addr byte =>
      obtain rfl := Except.ok.inj done
      exact @finish ranges rfl (Or.inl (List.Subset.refl _)) (fun _ _ _ _ _ => rfl) record ⟨lists, isolated⟩

/-- A call on processes changes no entry of the kernel space. -/
theorem Isolated.step_kernel {call : MemoryCall} {result : Nat} (isolated : Isolated alloc kspace top users lists kernel)
    (valid : call.Valid kspace top users) (ofUser : call.OfUser users)
    (done : call.run alloc debug kspace kernel = .ok (result, kernel')) {va : Nat} (page : CanonicalPage va) :
    mmuLeaf kspace va kernel' = mmuLeaf kspace va kernel := by
  have outside : ∀ {change : Nat → Nat → Prop} {space start stop : Nat}, space ∈ users →
      LeavesChanged (· ∈ kspace :: users) change kernel kernel' space start stop →
      mmuLeaf kspace va kernel' = mmuLeaf kspace va kernel := by
    intro change space start stop user changed
    apply changed.outside List.mem_cons_self page
    rintro ⟨same, -⟩
    exact isolated.foreign (same ▸ user)
  cases call with
  | create =>
      rcases isolated.create debug with ⟨fault, env, failed, -⟩ | ⟨space, final, lists', created, -, added⟩
      · simp only [MemoryCall.run, failed, Except.map] at done
        cases done
      · simp only [MemoryCall.run, created, Except.map, Except.ok.injEq, Prod.mk.injEq] at done
        rw [← done.2]
        exact added.kept List.mem_cons_self page
  | allocAt space va' sizeInPages flags =>
      obtain ⟨user, window, lower, flagged⟩ := valid
      rcases isolated.allocAt user window lower flagged done with rfl | ⟨lists', -, changed⟩
      · rfl
      · exact outside user changed
  | heapAlloc sizeInPages => exact ofUser.elim
  | free space va' sizeInPages =>
      obtain ⟨final, freed, same⟩ := Outcome.map_eq_ok.mp done
      obtain rfl : final = kernel' := (Prod.mk.inj same).2
      obtain ⟨lists', -, changed⟩ := isolated.free valid.1 valid.2 freed
      exact outside ofUser changed

/-- A call of the kernel keeps the heap on recorded pages beside isolated processes. -/
theorem KernelHolds.step {call : KernelCall} (holds : KernelHolds alloc kspace top lists ranges cs state)
    (allowed : state.Allows kspace top call) (steps : kernelStep alloc debug kspace call state state') :
    ∃ lists' ranges' cs', KernelHolds alloc kspace top lists' ranges' cs' state' ∧ (ranges ⊆ ranges' ∨ ranges' ⊆ ranges) ∧
      KeepsPages kspace ranges ranges' state.heap.kheap.env state'.heap.kheap.env := by
  cases call with
  | heap bytes call =>
      obtain ⟨heap', done, rest⟩ := Outcome.bind_eq_ok.mp steps
      obtain rfl := Except.ok.inj rest
      obtain ⟨lists', ranges', cs', -, kept⟩ := holds.callHeap allowed.1 allowed.2.1 allowed.2.2 done
      exact ⟨lists', ranges', cs', kept⟩
  | memory call =>
      obtain ⟨⟨result, kernel'⟩, done, rest⟩ := Outcome.bind_eq_ok.mp steps
      obtain rfl := Except.ok.inj rest
      obtain ⟨⟨lists', isolated'⟩, -⟩ := holds.isolated.step allowed.1 done
      obtain ⟨record', kept⟩ := holds.record.kept fun page _ =>
        holds.isolated.step_kernel allowed.1 allowed.2 done page
      obtain ⟨⟨heap, links, fits, blocks, apart, inside⟩, pointers, sizes⟩ := holds.heap
      exact ⟨lists', ranges, cs, ⟨isolated', ⟨⟨heap, links, fits, blocks, apart, inside⟩, pointers, sizes⟩, record'⟩,
        Or.inl (List.Subset.refl _), kept⟩

/-- A byte of a live payload lies on a page of a recorded range. -/
theorem KernelHolds.page (holds : KernelHolds alloc kspace top lists ranges cs state) {entry : Nat × Nat}
    (live : entry ∈ state.heap.live) {addr : Nat} (low : entry.1 ≤ addr) (high : addr < entry.1 + entry.2) :
    ∃ range ∈ ranges, WindowPage range.1 (range.1 + range.2 * pageSizeInBytes) (pageOf addr) ∧
      kernelHeapStart ≤ addr ∧ addr < kernelHeapStop := by
  obtain ⟨range, listed, -, starts, ends⟩ := holds.heap.sound.inside entry live
  obtain ⟨window, lower, upper⟩ := holds.record.window range listed
  exact ⟨range, listed, window.page (starts.trans low) (high.trans_le ends), (lower.trans starts).trans low,
    (high.trans_le ends).trans_le upper⟩

end

/-- The byte lies in the kernel heap, on a page that only the kernel may access, and its held frame backs no page table and
no other page of the heap or of a process. -/
structure HeapByte (alloc : KernelAllocator σ) (kspace : Nat) (users : List Nat) (kernel : Kernel σ) (addr : Nat) :
    Prop where
  low : kernelHeapStart ≤ addr
  high : addr < kernelHeapStop
  present : pageAccess (kernel.root kspace) (pageOf addr) kernel = .ok ()
  flags : mmuLeaf kspace (pageOf addr) kernel % pageSizeInBytes = pageKernelRw
  held : alloc.held kernel.env (kernel.frame kspace (pageOf addr))
  apart : ¬kernel.IsTable (· ∈ kspace :: users) (dmP2V (kernel.frame kspace (pageOf addr)))
  unshared : ∀ space va, OwnPage kspace users space va → CanonicalPage va → mmuLeaf space va kernel ≠ 0 →
    kernel.frame space va = kernel.frame kspace (pageOf addr) → space = kspace ∧ va = pageOf addr

/-- Live payloads are disjoint, contain no byte of a header in use, and lie on pages of the kernel heap. -/
structure KernelState.Sound (alloc : KernelAllocator σ) (kspace : Nat) (state : KernelState σ) : Prop where
  disjoint : state.heap.live.Pairwise fun first second =>
    first.1 + first.2 ≤ second.1 ∨ second.1 + second.2 ≤ first.1
  headers : ∀ entry ∈ state.heap.live, ∀ kind header, state.heap.kheap.Uses kind header →
    ∀ addr, entry.1 ≤ addr → addr < entry.1 + entry.2 → addr < header ∨ header + 40 ≤ addr
  backed : ∀ entry ∈ state.heap.live, ∀ addr, entry.1 ≤ addr → addr < entry.1 + entry.2 →
    HeapByte alloc kspace state.users state.heap.kheap.env addr

/-- A payload that stays live stays on its frames, and only a write to a byte changes the byte. -/
def KernelState.Keeps (alloc : KernelAllocator σ) (debug : Bool) (kspace : Nat) (call : KernelCall)
    (state : KernelState σ) : Prop :=
  ∀ state', kernelStep alloc debug kspace call state state' →
    ∀ entry ∈ state.heap.live, entry ∈ state'.heap.live → ∀ addr, entry.1 ≤ addr → addr < entry.1 + entry.2 →
      mmuLeaf kspace (pageOf addr) state'.heap.kheap.env = mmuLeaf kspace (pageOf addr) state.heap.kheap.env ∧
      ((∀ bytes byte, call ≠ .heap bytes (.write addr byte)) → state'.heap.kheap.mem addr = state.heap.kheap.mem addr)

section
variable {alloc : KernelAllocator σ} {debug : Bool} {kspace top : Nat} {lists : Nat → List Nat}
  {ranges : List (Nat × Nat)} {cs : List Cont} {state : KernelState σ}

theorem KernelHolds.sound (holds : KernelHolds alloc kspace top lists ranges cs state) : state.Sound alloc kspace := by
  have sound := holds.heap.sound
  refine ⟨sound.disjoint, fun entry live kind header uses => sound.headers entry live kind header uses.recorded, ?_⟩
  intro entry live addr low high
  obtain ⟨range, listed, inside, lower, upper⟩ := holds.page live low high
  have window := (holds.record.window range listed).1
  have page := window.span.pages _ inside.lower inside.upper inside.aligned
  obtain ⟨mapped, flags⟩ := holds.record.mapped range listed inside
  have odd := (holds.isolated.kernelPages page mapped).2.2.1
  have present : mmuLeaf kspace (pageOf addr) state.heap.kheap.env &&& pagePresent ≠ 0 := by
    have bit : mmuLeaf kspace (pageOf addr) state.heap.kheap.env &&& 1 = 1 := (Nat.and_one_is_mod _).trans odd
    rw [pagePresent, bit]
    decide
  obtain ⟨-, low', high'⟩ := holds.record.window range listed
  have own : OwnPage kspace state.users kspace (pageOf addr) :=
    Or.inr ⟨rfl, low'.trans inside.lower, inside.upper.trans_le high'⟩
  obtain ⟨held, apart⟩ := holds.isolated.coexist.pages.owned own page mapped
  exact ⟨lower, upper, (pageAccess_cases _ _ _).1 present, flags, held, apart, fun space va own' page' mapped' same =>
    holds.isolated.coexist.pages.unshared own' own page' page mapped' mapped same⟩

/-- An allowed call of the kernel keeps what stays live. -/
theorem KernelHolds.keeps {call : KernelCall} (holds : KernelHolds alloc kspace top lists ranges cs state)
    (allowed : state.Allows kspace top call) : state.Keeps alloc debug kspace call := by
  intro state' steps entry live live' addr low high
  obtain ⟨lists', ranges', cs', holds', order, kept⟩ := holds.step allowed steps
  have leaf : mmuLeaf kspace (pageOf addr) state'.heap.kheap.env = mmuLeaf kspace (pageOf addr) state.heap.kheap.env := by
    rcases order with grown | shrunk
    · obtain ⟨range, listed, inside, -⟩ := holds.page live low high
      exact kept range listed (grown listed) inside
    · obtain ⟨range, listed, inside, -⟩ := holds'.page live' low high
      exact kept range (shrunk listed) listed inside
  refine ⟨leaf, fun noWrite => ?_⟩
  cases call with
  | memory call =>
      obtain ⟨⟨result, kernel'⟩, -, rest⟩ := Outcome.bind_eq_ok.mp steps
      rw [← Except.ok.inj rest]
  | heap bytes call =>
      obtain ⟨heap', done, rest⟩ := Outcome.bind_eq_ok.mp steps
      obtain rfl := Except.ok.inj rest
      obtain ⟨lists', ranges', cs', steps', -⟩ := holds.callHeap allowed.1 allowed.2.1 allowed.2.2 done
      have keeps := (holds.heap.resourced : HeapState.Holds (kspacePages alloc kspace bytes).recorded _ cs).keeps
        (by cases call <;> exact allowed.1) (by cases call <;> exact allowed.2.1) _ steps'
      cases call with
      | kmalloc n => exact keeps (fun _ _ => HeapCall.noConfusion) entry live live' addr low high
      | kfree ptr => exact keeps (fun _ _ => HeapCall.noConfusion) entry live live' addr low high
      | write target byte =>
          obtain rfl := Except.ok.inj done
          have different : addr ≠ target := fun same => noWrite bytes byte (same ▸ rfl)
          exact Function.update_of_ne different _ _

/-- The pages of a request are larger than it. -/
theorem lt_heapPages {n : Nat} (small : n + sizeofBlock < 2 ^ 64) : n + sizeofBlock < heapPages n * pageSizeInBytes := by
  have request : u64 (n + sizeofBlock) = n + sizeofBlock := Nat.mod_eq_of_lt small
  have enough : (n + sizeofBlock) / pageSizeInBytes + 2 ≤ heapPages n := by
    rw [heapPages, request]
    exact le_max_right _ _
  unfold pageSizeInBytes at *
  omega

/-- The heap gets no pages when the kernel space gives none. -/
theorem kspacePages_eq_error {kernel : Kernel σ} {bytes : Memory} {pages : Nat} {fault : Fault}
    (failed : (kspacePages alloc kspace bytes).vmmAllocBetween pages kernel = .error fault) :
    vmmAllocBetween alloc kspace kernelHeapStart kernelHeapStop pages pageKernelRw kernel = .error fault := by
  unfold kspacePages at failed
  cases outcome : vmmAllocBetween alloc kspace kernelHeapStart kernelHeapStop pages pageKernelRw kernel with
  | error reason => simpa [outcome, Except.map] using failed
  | ok result => simp [outcome, Except.map] at failed

/-- An allocation faults only with the frame allocator. -/
theorem KernelHolds.kmalloc_faults {bytes : Memory} {n : Nat} {fault : Fault}
    (holds : KernelHolds alloc kspace top lists ranges cs state) (fits : HeapCall.Fits top (.kmalloc n))
    (failed : kmalloc (kspacePages alloc kspace bytes) n state.heap.kheap = .error fault) : alloc.Faults fault := by
  obtain ⟨small, room⟩ := fits
  have few : 5 ≤ heapPages n := le_max_left _ _
  have large := lt_heapPages small
  have bounded : n + 3 * pageSizeInBytes < 2 ^ 64 := by
    rw [Nat.add_mul] at room
    omega
  have list : HeapList state.heap.kheap.heap state.heap.kheap.mem cs := holds.heap.heap.list
  have exhausted := kspacePages_eq_error (list.kmalloc_fault bounded
    (holds.isolated.freshPages holds.record (by omega) room) holds.heap.heap.ranges failed)
  rcases holds.isolated.heapAlloc_cases (by omega) room with
    ⟨fault', env, refused, faults⟩ | null | ⟨ret, kernel', lists', done, -⟩
  · obtain rfl := Except.error.inj (exhausted.symm.trans refused)
    exact ⟨env, Or.inl faults⟩
  · rw [null] at exhausted
    cases exhausted
  · rw [done] at exhausted
    cases exhausted

/-- A safe free faults only with the frame allocator. -/
theorem KernelHolds.kfree_faults {bytes : Memory} {ptr : Nat} {fault : Fault}
    (holds : KernelHolds alloc kspace top lists ranges cs state) (allowed : state.heap.Allows (.kfree ptr))
    (safe : state.heap.Safe (.kfree ptr))
    (failed : kfree (kspacePages alloc kspace bytes) ptr state.heap.kheap = .error fault) : alloc.Faults fault := by
  have heap : HeapState.Holds (kspacePages alloc kspace bytes).recorded (state.heap.record ranges) cs := holds.heap.resourced
  obtain ⟨final, cs', steps, -⟩ := heap.kfree (by exact allowed) (by exact safe)
  obtain ⟨recorded, returned, -⟩ := Outcome.bind_eq_ok.mp steps
  rcases kfree_recorded returned with ⟨kheap', ranges', freed, -⟩ | ⟨fault', va, pages, failed', listed, frees⟩
  · rw [failed] at freed
    cases freed
  · obtain rfl := Except.error.inj (failed.symm.trans failed')
    obtain ⟨window, own⟩ := holds.record.window _ listed
    have mine : OwnWindow kspace state.users kspace va (va + pages * pageSizeInBytes) := Or.inr ⟨rfl, own⟩
    have refused : vmmFree alloc kspace va pages state.heap.kheap.env = .error fault := frees
    rcases holds.isolated.coexist.free_returns mine.mem window (fun page => mine.own page)
        (fun page => holds.record.mapped _ listed page) with ⟨fault', refused', faults⟩ | ⟨kernel', done⟩
    · obtain rfl := Except.error.inj (refused.symm.trans refused')
      exact faults
    · rw [done] at refused
      cases refused

/-- A call of the heap returns, unless the frame allocator faults. -/
theorem KernelHolds.heap_returns {bytes : Memory} {call : HeapCall}
    (holds : KernelHolds alloc kspace top lists ranges cs state) (allowed : state.Allows kspace top (.heap bytes call)) :
    (∃ fault, kernelCall alloc debug kspace (.heap bytes call) state = .error fault ∧ alloc.Faults fault) ∨
    ∃ state', kernelCall alloc debug kspace (.heap bytes call) state = .ok state' := by
  cases outcome : heapCallOver (kspacePages alloc kspace bytes) call state.heap with
  | ok heap' => exact Or.inr ⟨⟨heap', state.users⟩, Outcome.bind_eq_ok.mpr ⟨heap', outcome, rfl⟩⟩
  | error fault =>
      refine Or.inl ⟨fault, Outcome.bind_eq_error.mpr (Or.inl outcome), ?_⟩
      obtain ⟨allowed, safe, fits⟩ := allowed
      cases call with
      | kmalloc n =>
          rcases Outcome.bind_eq_error.mp outcome with failed | ⟨got, -, rest⟩
          · exact holds.kmalloc_faults fits failed
          · split_ifs at rest
      | kfree ptr =>
          rcases Outcome.bind_eq_error.mp outcome with failed | ⟨got, -, rest⟩
          · exact holds.kfree_faults allowed safe failed
          · cases rest
      | write addr byte => cases outcome

end

section
variable {alloc : KernelAllocator σ} {debug : Bool} {kspace sizeInPages : Nat} {layout : KernelLayout}
  {pmap : List PmmRegion} {kernel : Kernel σ} {kheap : Kheap (Kernel σ)} {mem bytes : Memory} {calls : List KernelCall}

/-- The states that the kernel reaches behind `vmm_init` and `kheap_init`. -/
def kernelStart (kheap : Kheap (Kernel σ)) : KernelState σ := ⟨⟨kheap, [], []⟩, []⟩

def KernelState.Holds (alloc : KernelAllocator σ) (kspace top : Nat) (state : KernelState σ) : Prop :=
  ∃ lists ranges cs, KernelHolds alloc kspace top lists ranges cs state

theorem KernelState.Holds.step {top : Nat} {call : KernelCall} {state state' : KernelState σ}
    (holds : state.Holds alloc kspace top) (allowed : state.Allows kspace top call)
    (steps : kernelStep alloc debug kspace call state state') : state'.Holds alloc kspace top := by
  obtain ⟨lists, ranges, cs, holds⟩ := holds
  obtain ⟨lists', ranges', cs', holds', -⟩ := holds.step allowed steps
  exact ⟨lists', ranges', cs', holds'⟩

/-- `kheap_init` gives the heap its first range. -/
theorem KernelMapped.kernelHolds (mapped : KernelMapped alloc layout pmap kspace kernel)
    (below : ∀ region ∈ pmap, region.addr + region.sizeInPages * pageSizeInBytes < directLimit)
    (room : layout.pmmVmaStop + (max kheapMinAllocInPages sizeInPages + 3) * pageSizeInBytes ≤ 2 ^ 64)
    (init : kheapInit (kspacePages alloc kspace bytes) sizeInPages ⟨NULL, mem, kernel⟩ = .ok kheap) :
    (kernelStart kheap).Holds alloc kspace layout.pmmVmaStop := by
  obtain ⟨lists, isolated⟩ := mapped.isolated below
  have empty : RecordMapped kspace [] kernel := ⟨.nil, by simp, by simp⟩
  have positive : 0 < max kheapMinAllocInPages sizeInPages := lt_max_of_lt_left (by decide)
  obtain ⟨va, got, obtained, nonnull, recorded⟩ := kheapInit_recorded (isolated.freshPages empty positive room) init
  obtain ⟨va', pages, got', holds, -⟩ := kheapInit_holds recorded
  rcases isolated.heapAlloc positive room (kspacePages_eq_ok.mp obtained).1 with
    ⟨null, -⟩ | ⟨lists', window, own, isolated', changed⟩
  · exact absurd null nonnull
  obtain ⟨record, -⟩ := empty.grow window (own.heap isolated.foreign) changed
  have heap : HeapState.Holds (kspacePages alloc kspace bytes).recorded
      ((kernelStart kheap).heap.record [(va, max kheapMinAllocInPages sizeInPages)]) [freshCont va' pages] :=
    ⟨holds, List.Perm.refl _, by simp [kernelStart, HeapState.record]⟩
  exact ⟨lists', _, _, isolated', heap.resourced, record⟩

/-- A run of allowed calls keeps the heap on recorded pages beside isolated processes. -/
theorem KernelMapped.kernelRun {final : KernelState σ} (mapped : KernelMapped alloc layout pmap kspace kernel)
    (below : ∀ region ∈ pmap, region.addr + region.sizeInPages * pageSizeInBytes < directLimit)
    (room : layout.pmmVmaStop + (max kheapMinAllocInPages sizeInPages + 3) * pageSizeInBytes ≤ 2 ^ 64)
    (init : kheapInit (kspacePages alloc kspace bytes) sizeInPages ⟨NULL, mem, kernel⟩ = .ok kheap)
    (along : Runs.Along (kernelStep alloc debug kspace) (fun call state => state.Allows kspace layout.pmmVmaStop call) calls
      (kernelStart kheap)) (path : Runs.Path (kernelStep alloc debug kspace) calls (kernelStart kheap) final) :
    final.Holds alloc kspace layout.pmmVmaStop := by
  have keeps : ∀ call (state state' : KernelState σ), state.Holds alloc kspace layout.pmmVmaStop →
      state.Allows kspace layout.pmmVmaStop call → kernelStep alloc debug kspace call state state' →
      state'.Holds alloc kspace layout.pmmVmaStop := fun _ _ _ holds => holds.step
  exact Runs.Path.keeps keeps (mapped.kernelHolds below room init) along path

/-- In every state that the kernel reaches, in any order of heap calls and calls on processes, live payloads are disjoint,
contain no header in use, and lie on kernel pages with held frames of their own; what stays live keeps its bytes and its
frames. -/
theorem kernelHeap_sound (mapped : KernelMapped alloc layout pmap kspace kernel)
    (below : ∀ region ∈ pmap, region.addr + region.sizeInPages * pageSizeInBytes < directLimit)
    (room : layout.pmmVmaStop + (max kheapMinAllocInPages sizeInPages + 3) * pageSizeInBytes ≤ 2 ^ 64)
    (init : kheapInit (kspacePages alloc kspace bytes) sizeInPages ⟨NULL, mem, kernel⟩ = .ok kheap)
    (along : Runs.Along (kernelStep alloc debug kspace) (fun call state => state.Allows kspace layout.pmmVmaStop call) calls
      (kernelStart kheap)) :
    Runs.Along (kernelStep alloc debug kspace) (fun call state => state.Keeps alloc debug kspace call) calls
        (kernelStart kheap) ∧
      ∀ final, Runs.Path (kernelStep alloc debug kspace) calls (kernelStart kheap) final → final.Sound alloc kspace := by
  have start := mapped.kernelHolds below room init
  refine ⟨Runs.Along.of_invariant ?_ (fun _ _ _ => KernelState.Holds.step) start along, fun final path => ?_⟩
  · rintro call state ⟨lists, ranges, cs, holds⟩ allowed
    exact holds.keeps allowed
  · obtain ⟨lists, ranges, cs, holds⟩ := mapped.kernelRun below room init along path
    exact holds.sound

/-- In every state that the kernel reaches, an allocation of any fitting size and a safe free return, unless the frame
allocator has no frame left or refuses a held frame. -/
theorem kernelHeap_returns {final : KernelState σ} {call : HeapCall} {got : Memory}
    (mapped : KernelMapped alloc layout pmap kspace kernel)
    (below : ∀ region ∈ pmap, region.addr + region.sizeInPages * pageSizeInBytes < directLimit)
    (room : layout.pmmVmaStop + (max kheapMinAllocInPages sizeInPages + 3) * pageSizeInBytes ≤ 2 ^ 64)
    (init : kheapInit (kspacePages alloc kspace bytes) sizeInPages ⟨NULL, mem, kernel⟩ = .ok kheap)
    (along : Runs.Along (kernelStep alloc debug kspace) (fun call state => state.Allows kspace layout.pmmVmaStop call) calls
      (kernelStart kheap)) (path : Runs.Path (kernelStep alloc debug kspace) calls (kernelStart kheap) final)
    (allowed : final.Allows kspace layout.pmmVmaStop (.heap got call)) :
    (∃ fault, kernelCall alloc debug kspace (.heap got call) final = .error fault ∧ alloc.Faults fault) ∨
    ∃ state', kernelCall alloc debug kspace (.heap got call) final = .ok state' := by
  obtain ⟨lists, ranges, cs, holds⟩ := mapped.kernelRun below room init along path
  exact holds.heap_returns allowed

/-- A process that is created in a reachable state has every payload that is live then on the frames of the kernel, for ring 0
alone, and this stays so in every later state. -/
theorem process_maps_payloads {state : KernelState σ} {space ustack : Nat} {users' : List Nat} {started kernel' : Kernel σ}
    (mapped : KernelMapped alloc layout pmap kspace kernel)
    (below : ∀ region ∈ pmap, region.addr + region.sizeInPages * pageSizeInBytes < directLimit)
    (room : layout.pmmVmaStop + (max kheapMinAllocInPages sizeInPages + 3) * pageSizeInBytes ≤ 2 ^ 64)
    (init : kheapInit (kspacePages alloc kspace bytes) sizeInPages ⟨NULL, mem, kernel⟩ = .ok kheap)
    (along : Runs.Along (kernelStep alloc debug kspace) (fun call state => state.Allows kspace layout.pmmVmaStop call) calls
      (kernelStart kheap)) (path : Runs.Path (kernelStep alloc debug kspace) calls (kernelStart kheap) state)
    (created : processSpace alloc debug kspace state.heap.kheap.env = .ok (space, ustack, started))
    (later : MemoryRun alloc debug kspace layout.pmmVmaStop (space :: state.users) started users' kernel')
    {entry : Nat × Nat} (live : entry ∈ state.heap.live) {addr : Nat} (low : entry.1 ≤ addr)
    (high : addr < entry.1 + entry.2) :
    pageAccess (kernel'.root space) (pageOf addr) kernel' = .ok () ∧
      kernel'.frame space (pageOf addr) = state.heap.kheap.env.frame kspace (pageOf addr) ∧
      mmuLeaf space (pageOf addr) kernel' % pageSizeInBytes = pageKernelRw := by
  obtain ⟨lists, ranges, cs, holds⟩ := mapped.kernelRun below room init along path
  obtain ⟨range, listed, inside, lower, -⟩ := holds.page live low high
  obtain ⟨window, low', -⟩ := holds.record.window range listed
  have page := window.span.pages _ inside.lower inside.upper inside.aligned
  obtain ⟨-, flags⟩ := holds.record.mapped range listed inside
  have upper : higherHalfStart ≤ pageOf addr :=
    le_trans (by decide : higherHalfStart ≤ kernelHeapStart) (low'.trans inside.lower)
  rcases holds.isolated.create debug with ⟨fault, env, failed, -⟩ | ⟨space', final, lists', created', isolated', added⟩
  · rw [failed] at created
    cases created
  rw [created] at created'
  obtain ⟨rfl, -, rfl⟩ : space = space' ∧ ustack = 0xf000 ∧ started = final := by simpa using created'
  have leaf : mmuLeaf space (pageOf addr) kernel' =
      pageAddr (mmuLeaf kspace (pageOf addr) state.heap.kheap.env) ||| pageKernelRw := by
    rw [((later.isolated isolated').2 List.mem_cons_self).2 page upper, added.copied page upper, flags]
  have valid : PageFlags pageKernelRw := ⟨by decide, by decide⟩
  refine ⟨(pageAccess_cases kernel' space _).1 (leaf ▸ valid.or_present (pageAddr_aligned _)), ?_, ?_⟩
  · rw [Kernel.frame, leaf]
    exact pageAddr_or (pageAddr_aligned _) (pageAddr_lt _) valid.small
  · rw [leaf]
    exact or_mod_page (pageAddr_aligned _) valid.small

end

/-- Behind `vmm_init` the heap serves a request of eight bytes before a process is created. -/
def servedProcess : Outcome (Nat × Kernel Ledger × Kheap (Kernel Ledger) × (Nat × Kheap (Kernel Ledger)) ×
    (Nat × Nat × Kernel Ledger)) :=
  vmmInit sixtyFourFrames true fourBootTables threePageLayout adjacentRegions (.zeroed ⟨[], []⟩) >>= fun booted =>
    kheapInit (kspacePages sixtyFourFrames booted.1 fun _ => 0) 1 ⟨NULL, fun _ => 0, booted.2⟩ >>= fun kheap =>
      kmalloc (kspacePages sixtyFourFrames booted.1 fun _ => 0) 8 kheap >>= fun served =>
        processSpace sixtyFourFrames true booted.1 served.2.env >>= fun made =>
          .ok (booted.1, booted.2, kheap, served, made)

/-- The heap with the payload of the request. -/
def servedState (served : Kheap (Kernel Ledger)) : KernelState Ledger :=
  ⟨⟨served, [(kernelHeapStart + 4176, 8)], [kernelHeapStart + 4176]⟩, []⟩

/-- The request gets the first block of the heap. -/
theorem servedProcess_run : ∃ booted kheap served started,
    KernelMapped sixtyFourFrames threePageLayout adjacentRegions 1 booted ∧
    kheapInit (kspacePages sixtyFourFrames 1 fun _ => 0) 1 ⟨NULL, fun _ => 0, booted⟩ = .ok kheap ∧
    Runs.Path (kernelStep sixtyFourFrames true 1) [.heap (fun _ => 0) (.kmalloc 8)] (kernelStart kheap)
      (servedState served) ∧
    processSpace sixtyFourFrames true 1 served.env = .ok (8, 0xf000, started) ∧
    loadU64 served.mem (blockPrev (dataBlock (kernelHeapStart + 4176))) = NULL := by
  have facts : (servedProcess.map fun result => (result.1, result.2.2.2.1.1, result.2.2.2.2.1, result.2.2.2.2.2.1,
      loadU64 result.2.2.2.1.2.mem (blockPrev (dataBlock (kernelHeapStart + 4176))))).toOption =
        some (1, kernelHeapStart + 4176, 8, 0xf000, NULL) := by decide +kernel
  obtain ⟨kspace, booted, boots, mapped⟩ := @vmmInit_mapped _ sixtyFourFrames threePageLayout adjacentRegions
    (.zeroed ⟨[], []⟩) true fourBootTables adjacentRegions_pages (by decide) adjacentRegions_holds sixtyFourFrames_lasts
  cases result : servedProcess with
  | error fault =>
      rw [result] at facts
      cases facts
  | ok final =>
      rw [result] at facts
      have names := Option.some.inj facts
      obtain ⟨⟨kspace', booted'⟩, boots', rest⟩ := Outcome.bind_eq_ok.mp result
      obtain ⟨kheap, starts, rest⟩ := Outcome.bind_eq_ok.mp rest
      obtain ⟨⟨ptr, served⟩, serves, rest⟩ := Outcome.bind_eq_ok.mp rest
      obtain ⟨⟨space, ustack, started⟩, created, rest⟩ := Outcome.bind_eq_ok.mp rest
      obtain rfl := Except.ok.inj rest
      obtain ⟨rfl, rfl⟩ := Prod.mk.inj (Except.ok.inj (boots.symm.trans boots'))
      simp only [Prod.mk.injEq] at names
      obtain ⟨rfl, rfl, rfl, rfl, first⟩ := names
      refine ⟨booted, kheap, served, started, mapped, starts, ⟨_, ?_, rfl⟩, created, first⟩
      have nonnull : kernelHeapStart + 4176 ≠ NULL := by decide
      rw [kernelStep, kernelCall, heapCallOver, kernelStart]
      dsimp only at serves ⊢
      rw [serves, Outcome.ok_bind]
      dsimp only
      rw [if_neg nonnull]
      rfl

/-- The pages of the request fit behind the regions of the kernel space. -/
theorem servedProcess_along (kheap : Kheap (Kernel Ledger)) :
    Runs.Along (kernelStep sixtyFourFrames true 1) (fun call state => state.Allows 1 threePageLayout.pmmVmaStop call)
      [.heap (fun _ => 0) (.kmalloc 8)] (kernelStart kheap) :=
  ⟨⟨(by decide : 8 < 2 ^ 64), trivial, by decide, by decide⟩, fun _ _ => trivial⟩

/-- The heap holds the payload of the request after a process is created. -/
theorem kernelHeap_sound_served : ∃ final : KernelState Ledger,
    final.heap.live = [(kernelHeapStart + 4176, 8)] ∧ final.users = [8] ∧ final.Sound sixtyFourFrames 1 := by
  obtain ⟨booted, kheap, served, started, mapped, starts, path, created, -⟩ := servedProcess_run
  obtain ⟨_, steps, rfl⟩ := path
  have births : kernelStep sixtyFourFrames true 1 (.memory .create) (servedState served)
      ⟨(servedState ⟨served.heap, served.mem, started⟩).heap, [8]⟩ := by
    have run : MemoryCall.create.run sixtyFourFrames true 1 served.env = .ok (8, started) := by
      rw [MemoryCall.run, created]
      rfl
    rw [kernelStep, kernelCall, servedState]
    dsimp only
    rw [run]
    rfl
  have along : Runs.Along (kernelStep sixtyFourFrames true 1)
      (fun call state => state.Allows 1 threePageLayout.pmmVmaStop call)
      [.heap (fun _ => 0) (.kmalloc 8), .memory .create] (kernelStart kheap) :=
    ⟨(servedProcess_along kheap).1, fun _ _ => ⟨⟨trivial, trivial⟩, fun _ _ => trivial⟩⟩
  exact ⟨_, rfl, rfl, (kernelHeap_sound mapped (by decide) (by decide) starts along).2 _ ⟨_, steps, _, births, rfl⟩⟩

/-- The payload is freed again, because no block lies in front of it. -/
theorem kernelHeap_returns_served : ∃ final : KernelState Ledger, final.heap.live = [(kernelHeapStart + 4176, 8)] ∧
    ((∃ fault, kernelCall sixtyFourFrames true 1 (.heap (fun _ => 0) (.kfree (kernelHeapStart + 4176))) final =
        .error fault ∧ sixtyFourFrames.Faults fault) ∨
      ∃ state', kernelCall sixtyFourFrames true 1 (.heap (fun _ => 0) (.kfree (kernelHeapStart + 4176))) final =
        .ok state') := by
  obtain ⟨booted, kheap, served, started, mapped, starts, path, -, first⟩ := servedProcess_run
  have allowed : (servedState served).Allows 1 threePageLayout.pmmVmaStop
      (.heap (fun _ => 0) (.kfree (kernelHeapStart + 4176))) :=
    ⟨⟨_, List.mem_cons_self, rfl⟩, fun merges => merges.1.1 first, trivial⟩
  exact ⟨servedState served, rfl,
    kernelHeap_returns mapped (by decide) (by decide) starts (servedProcess_along kheap) path allowed⟩

/-- The new process has the page of the payload. -/
theorem process_maps_payloads_served : ∃ kernel : Kernel Ledger,
    pageAccess (kernel.root 8) (kernelHeapStart + 0x1000) kernel = .ok () ∧
      mmuLeaf 8 (kernelHeapStart + 0x1000) kernel % pageSizeInBytes = pageKernelRw := by
  obtain ⟨booted, kheap, served, started, mapped, starts, path, created, -⟩ := servedProcess_run
  have live : (kernelHeapStart + 4176, 8) ∈ (servedState served).heap.live := List.mem_cons_self
  have page : pageOf (kernelHeapStart + 4176) = kernelHeapStart + 0x1000 := by decide
  obtain ⟨present, -, flags⟩ := process_maps_payloads mapped (by decide) (by decide) starts
    (servedProcess_along kheap) path created (.refl _ started) live le_rfl (Nat.lt_add_of_pos_right (by decide))
  rw [page] at present flags
  exact ⟨started, present, flags⟩

end B0s
