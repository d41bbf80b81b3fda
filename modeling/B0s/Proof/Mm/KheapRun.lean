import B0s.Library.Runs
import B0s.Proof.Mm.KheapCall
import B0s.Proof.Mm.KheapWords

/-
This file runs sequences of `kmalloc`, `kfree` and client writes, and proves that live payloads stay
apart from each other and from all headers while no free leaves a stale link.
-/

namespace B0s
open ByteMemory DoublyLinked Runs

/-- A heap in use has live allocations, which are pointers with their requested sizes, and the list of
all pointers it ever returned. -/
structure HeapState (σ : Type) where
  kheap : Kheap σ
  live : List (Nat × Nat)
  served : List Nat

inductive HeapCall where
  | kmalloc (sizeInBytes : Nat)
  | kfree (ptr : Nat)
  | write (addr : Nat) (byte : BitVec 8)

def heapCall {σ : Type} (source : HeapPages σ) : HeapCall → HeapState σ → Outcome (HeapState σ)
  | .kmalloc sizeInBytes, state => do
      let (ptr, kheap) ← kmalloc source sizeInBytes state.kheap
      if ptr = NULL then .ok { state with kheap := kheap }
      else .ok ⟨kheap, (ptr, sizeInBytes) :: state.live, ptr :: state.served⟩
  | .kfree ptr, state => do
      let kheap ← kfree source ptr state.kheap
      .ok { state with kheap := kheap, live := state.live.eraseP fun entry => entry.1 = ptr }
  | .write addr byte, state =>
      .ok { state with kheap := { state.kheap with mem := Function.update state.kheap.mem addr byte } }

/-- A call of a run ends in a state. -/
def heapStep {σ : Type} (source : HeapPages σ) (call : HeapCall) (state state' : HeapState σ) : Prop :=
  heapCall source call state = .ok state'

/-- Clients free live pointers and write inside the requested sizes of live allocations. -/
def HeapState.Allows {σ : Type} (call : HeapCall) (state : HeapState σ) : Prop :=
  match call with
  | .kmalloc sizeInBytes => sizeInBytes < 2 ^ 64
  | .kfree ptr => ∃ entry ∈ state.live, entry.1 = ptr
  | .write addr _ => ∃ entry ∈ state.live, entry.1 ≤ addr ∧ addr < entry.1 + entry.2

/-- The block in front of a pointer is free and the block behind it is used. -/
def Kheap.MergesBeforeUsed {σ : Type} (kheap : Kheap σ) (ptr : Nat) : Prop :=
  let prev := loadU64 kheap.mem (blockPrev (dataBlock ptr))
  let next := loadU64 kheap.mem (blockNext (dataBlock ptr))
  (prev ≠ NULL ∧ loadU8 kheap.mem (blockUsed prev) = 0) ∧ next ≠ NULL ∧ loadU8 kheap.mem (blockUsed next) ≠ 0

/-- No free of the run merges its block to the front while a used block follows. -/
def HeapState.Safe {σ : Type} (call : HeapCall) (state : HeapState σ) : Prop :=
  match call with
  | .kfree ptr => ¬state.kheap.MergesBeforeUsed ptr
  | _ => True

inductive HeaderKind where
  | container
  | block

/-- The heap still uses the headers that its links lead to. -/
inductive Kheap.Uses {σ : Type} (kheap : Kheap σ) : HeaderKind → Nat → Prop
  | heap : kheap.heap ≠ NULL → kheap.Uses .container kheap.heap
  | containerPrev {c : Nat} : kheap.Uses .container c → loadU64 kheap.mem (containerPrev c) ≠ NULL →
      kheap.Uses .container (loadU64 kheap.mem (containerPrev c))
  | containerNext {c : Nat} : kheap.Uses .container c → loadU64 kheap.mem (containerNext c) ≠ NULL →
      kheap.Uses .container (loadU64 kheap.mem (containerNext c))
  | containerBlock {c : Nat} : kheap.Uses .container c → loadU64 kheap.mem (containerBlock c) ≠ NULL →
      kheap.Uses .block (loadU64 kheap.mem (containerBlock c))
  | blockPrev {b : Nat} : kheap.Uses .block b → loadU64 kheap.mem (blockPrev b) ≠ NULL →
      kheap.Uses .block (loadU64 kheap.mem (blockPrev b))
  | blockNext {b : Nat} : kheap.Uses .block b → loadU64 kheap.mem (blockNext b) ≠ NULL →
      kheap.Uses .block (loadU64 kheap.mem (blockNext b))
  | blockContainer {b : Nat} : kheap.Uses .block b → kheap.Uses .container (loadU64 kheap.mem (blockContainer b))

/-- Live payloads are disjoint, contain no byte of a header in use, and lie in obtained containers. -/
structure HeapState.Sound {σ : Type} (source : HeapPages σ) (state : HeapState σ) : Prop where
  disjoint : state.live.Pairwise fun first second =>
    first.1 + first.2 ≤ second.1 ∨ second.1 + second.2 ≤ first.1
  headers : ∀ entry ∈ state.live, ∀ kind header, state.kheap.Uses kind header →
    ∀ addr, entry.1 ≤ addr → addr < entry.1 + entry.2 → addr < header ∨ header + 40 ≤ addr
  inside : ∀ entry ∈ state.live, ∃ range ∈ source.ranges state.kheap.env,
    state.kheap.Uses .container range.1 ∧ range.1 ≤ entry.1 ∧
      entry.1 + entry.2 ≤ range.1 + range.2 * pageSizeInBytes

/-- A call of the heap changes no byte of a payload that stays live. -/
def HeapState.Keeps {σ : Type} (source : HeapPages σ) (call : HeapCall) (state : HeapState σ) : Prop :=
  ∀ state', heapStep source call state state' → (∀ addr byte, call ≠ .write addr byte) →
    ∀ entry ∈ state.live, entry ∈ state'.live → ∀ addr, entry.1 ≤ addr → addr < entry.1 + entry.2 →
      state'.kheap.mem addr = state.kheap.mem addr

/-- The live allocations are the used blocks of the heap. -/
structure HeapState.Holds {σ : Type} (source : HeapPages σ) (state : HeapState σ) (cs : List Cont) : Prop where
  heap : state.kheap.Holds source cs
  pointers : (state.live.map Prod.fst).Perm ((usedBlks cs).map fun d => d.header + 40)
  sizes : ∀ entry ∈ state.live, ∃ d ∈ usedBlks cs, d.header + 40 = entry.1 ∧ entry.2 ≤ d.size

section
variable {σ : Type} {source : HeapPages σ} {kheap : Kheap σ} {state state' : HeapState σ} {cs xs ys : List Cont}

/-- Blocks of the heap are apart. -/
theorem Kheap.Holds.blocks_apart (holds : kheap.Holds source cs) {c c' : Cont} {d d' : Blk} (member : c ∈ cs)
    (member' : c' ∈ cs) (listed : d ∈ c.blks) (listed' : d' ∈ c'.blks) :
    d.header = d'.header ∧ d = d' ∨ d.stop ≤ d'.header ∨ d'.stop ≤ d.header := by
  by_cases same : c = c'
  · subst same
    have fits := holds.fits c member
    obtain ⟨before, after, split⟩ := List.append_of_mem listed
    have around := fits.around split
    rw [split, List.mem_append, List.mem_cons] at listed'
    rcases listed' with earlier | rfl | later
    · exact Or.inr (Or.inr (around.before d' earlier).2.1)
    · exact Or.inl ⟨rfl, rfl⟩
    · exact Or.inr (Or.inl (around.after d' later).1)
  · have away := holds.apart_of_ne member member' same
    have place := (holds.fits c member).inside d listed
    have place' := (holds.fits c' member').inside d' listed'
    omega

theorem Cont.Fits.used_apart {c : Cont} (fits : c.Fits) :
    (c.blks.filter Blk.used).Pairwise fun d d' => d.stop ≤ d'.header ∨ d'.stop ≤ d.header :=
  (fits.order.sublist List.filter_sublist).imp fun order => Or.inl order

theorem Kheap.Holds.used_apart (holds : kheap.Holds source cs) :
    (usedBlks cs).Pairwise fun d d' => d.stop ≤ d'.header ∨ d'.stop ≤ d.header := by
  unfold usedBlks
  rw [List.pairwise_flatMap]
  refine ⟨fun c member => (holds.fits c member).used_apart, ?_⟩
  apply holds.apart.imp_of_mem
  intro c c' member member' away d listed d' listed'
  have place := (holds.fits c member).inside d (List.mem_of_mem_filter listed)
  have place' := (holds.fits c' member').inside d' (List.mem_of_mem_filter listed')
  omega

theorem Kheap.Holds.pointers_nodup (holds : kheap.Holds source cs) :
    ((usedBlks cs).map fun d => d.header + 40).Nodup := by
  rw [List.Nodup, List.pairwise_map]
  apply holds.used_apart.imp
  intro d d' away
  unfold Blk.stop at away
  omega

/-- A header belongs to a list of containers. -/
def HeaderOf (cs : List Cont) : HeaderKind → Nat → Prop
  | .container, header => ∃ c ∈ cs, header = c.addr
  | .block, header => ∃ c ∈ cs, ∃ d ∈ c.blks, header = d.header

/-- Every header in use belongs to a container of the list. -/
theorem Kheap.Holds.uses (holds : kheap.Holds source cs) {kind : HeaderKind} {header : Nat}
    (used : kheap.Uses kind header) : HeaderOf cs kind header := by
  induction used with
  | heap nonnull =>
      rw [holds.heap] at nonnull ⊢
      cases cs with
      | nil => exact absurd rfl nonnull
      | cons c rest => exact ⟨c, by simp, rfl⟩
  | containerPrev _ nonnull ih =>
      obtain ⟨c, member, rfl⟩ := ih
      obtain ⟨xs, ys, rfl⟩ := List.append_of_mem member
      have link : loadU64 kheap.mem (containerPrev c.addr) = lastAddr xs := holds.prev_eq
      rw [link] at nonnull ⊢
      rcases holds.neighbours.1 with null | ⟨d, earlier, named⟩
      · exact absurd null nonnull
      · exact ⟨d, by simp [earlier], named⟩
  | containerNext _ nonnull ih =>
      obtain ⟨c, member, rfl⟩ := ih
      obtain ⟨xs, ys, rfl⟩ := List.append_of_mem member
      have link : loadU64 kheap.mem (containerNext c.addr) = headAddr ys := holds.next_eq
      rw [link] at nonnull ⊢
      rcases holds.neighbours.2 with null | ⟨d, later, named⟩
      · exact absurd null nonnull
      · exact ⟨d, by simp [later], named⟩
  | containerBlock _ nonnull ih =>
      obtain ⟨c, member, rfl⟩ := ih
      have link : loadU64 kheap.mem (containerBlock c.addr) = c.addr + 40 := (holds.holds c member).block
      obtain ⟨d, listed, first⟩ := (holds.fits c member).first_block
      exact ⟨c, member, d, listed, link.trans first.symm⟩
  | blockPrev _ nonnull ih =>
      obtain ⟨c, member, d, listed, rfl⟩ := ih
      obtain ⟨before, after, split⟩ := List.append_of_mem listed
      have link : loadU64 kheap.mem (blockPrev d.header) = prevHeader before := (holds.holds c member).prev_eq split
      rw [link] at nonnull ⊢
      rcases before.eq_nil_or_concat' with rfl | ⟨bs, p, rfl⟩
      · exact absurd rfl nonnull
      · exact ⟨c, member, p, by simp [split], by simp [prevHeader]⟩
  | blockNext _ nonnull ih =>
      obtain ⟨c, member, d, listed, rfl⟩ := ih
      obtain ⟨before, after, split⟩ := List.append_of_mem listed
      have link : loadU64 kheap.mem (blockNext d.header) = nextHeader after := (holds.holds c member).next_eq split
      rw [link] at nonnull ⊢
      rcases nextHeader_cases after with null | ⟨q, later, named⟩
      · exact absurd null nonnull
      · exact ⟨c, member, q, by simp [split, later], named⟩
  | blockContainer _ ih =>
      obtain ⟨c, member, d, listed, rfl⟩ := ih
      exact ⟨c, member, ((holds.holds c member).data d listed).container⟩

/-- Every container of the list is in use. -/
theorem Kheap.Holds.reaches {c : Cont} (holds : kheap.Holds source (xs ++ c :: ys)) :
    kheap.Uses .container c.addr := by
  induction xs using List.reverseRecOn generalizing c ys with
  | nil =>
      have first : kheap.heap = c.addr := holds.heap
      have nonnull := (holds.fits c (by simp)).nonnull
      rw [← first] at nonnull ⊢
      exact .heap nonnull
  | append_singleton xs d ih =>
      rw [List.append_assoc] at holds
      have link : loadU64 kheap.mem (containerNext d.addr) = c.addr := holds.next_eq
      have nonnull := (holds.fits c (by simp)).nonnull
      have later := Kheap.Uses.containerNext (ih holds)
      rw [link] at later
      exact later nonnull

/-- The payload of a block contains no byte of a header of the heap. -/
theorem Kheap.Holds.block_outside (holds : kheap.Holds source cs) {kind : HeaderKind} {header : Nat}
    (used : HeaderOf cs kind header) {c : Cont} {d : Blk} (inside : c ∈ cs) (listed : d ∈ c.blks) {addr : Nat}
    (low : d.header + 40 ≤ addr) (high : addr < d.stop) : addr < header ∨ header + 40 ≤ addr := by
  have place := (holds.fits c inside).inside d listed
  cases kind with
  | container =>
      obtain ⟨c', inside', rfl⟩ := used
      have room := (holds.fits c' inside').room
      by_cases same : c = c'
      · rw [← same]
        omega
      · have away := holds.apart_of_ne inside inside' same
        omega
  | block =>
      obtain ⟨c', inside', d', listed', rfl⟩ := used
      have away := holds.blocks_apart inside inside' listed listed'
      unfold Blk.stop at away high
      omega

theorem Kheap.Holds.payload_outside (holds : kheap.Holds source cs) {kind : HeaderKind} {header : Nat}
    (used : HeaderOf cs kind header) {d : Blk} (member : d ∈ usedBlks cs) {addr : Nat}
    (low : d.header + 40 ≤ addr) (high : addr < d.stop) : addr < header ∨ header + 40 ≤ addr := by
  obtain ⟨c, inside, listed, -⟩ := mem_usedBlks.mp member
  exact holds.block_outside used inside listed low high

theorem HeapState.Holds.distinct (holds : state.Holds source cs) : (state.live.map Prod.fst).Nodup :=
  holds.pointers.nodup_iff.mpr holds.heap.pointers_nodup

/-- The payload of a live allocation lies in the payload of its block. -/
theorem HeapState.Holds.payload (holds : state.Holds source cs) {entry : Nat × Nat} (member : entry ∈ state.live) :
    ∃ d ∈ usedBlks cs, d.header + 40 = entry.1 ∧ entry.1 + entry.2 ≤ d.stop := by
  obtain ⟨d, used, named, large⟩ := holds.sizes entry member
  refine ⟨d, used, named, ?_⟩
  unfold Blk.stop
  omega

theorem HeapState.Holds.sound (holds : state.Holds source cs) : state.Sound source := by
  refine ⟨?_, ?_, ?_⟩
  · have distinct := holds.distinct
    rw [List.Nodup, List.pairwise_map] at distinct
    apply distinct.imp_of_mem
    intro first second member member' different
    obtain ⟨d, used, named, ends⟩ := holds.payload member
    obtain ⟨d', used', named', ends'⟩ := holds.payload member'
    obtain ⟨c, inside, listed, -⟩ := mem_usedBlks.mp used
    obtain ⟨c', inside', listed', -⟩ := mem_usedBlks.mp used'
    have away := holds.heap.blocks_apart inside inside' listed listed'
    unfold Blk.stop at away ends ends'
    omega
  · intro entry member kind header uses addr low high
    obtain ⟨d, used, named, ends⟩ := holds.payload member
    exact holds.heap.payload_outside (holds.heap.uses uses) used (by omega) (by omega)
  · intro entry member
    obtain ⟨d, used, named, ends⟩ := holds.payload member
    obtain ⟨c, inside, listed, -⟩ := mem_usedBlks.mp used
    have place := (holds.heap.fits c inside).inside d listed
    refine ⟨(c.addr, c.pages), holds.heap.ranges c inside, ?_, ?_, ?_⟩
    · obtain ⟨xs, ys, rfl⟩ := List.append_of_mem inside
      exact holds.heap.reaches
    · dsimp only
      omega
    · have stop : c.stop = c.addr + c.pages * pageSizeInBytes := rfl
      dsimp only
      omega

/-- The condition on a free, read from memory, is the one on the list of blocks. -/
theorem Kheap.Holds.mergesBeforeUsed_iff {c : Cont} {before after : List Blk} {b : Blk}
    (holds : kheap.Holds source (xs ++ c :: ys)) (split : c.blks = before ++ b :: after) :
    kheap.MergesBeforeUsed (b.header + 40) ↔ LeavesStale before after := by
  have fits := holds.fits c (by simp)
  have here := holds.holds c (by simp)
  have place := fits.inside b (by simp [split])
  have bounded := fits.bounded
  unfold Blk.stop at place
  have header : dataBlock (b.header + 40) = b.header := by
    unfold dataBlock sizeofBlock
    rw [subU64_eq (by omega) (by omega)]
    omega
  have prevAt : loadU64 kheap.mem (blockPrev b.header) = prevHeader before := here.prev_eq split
  have nextAt : loadU64 kheap.mem (blockNext b.header) = nextHeader after := here.next_eq split
  have nonnull : ∀ d ∈ c.blks, d.header ≠ NULL := fun d listed => (fits.pointer listed).2
  unfold Kheap.MergesBeforeUsed
  rw [header, prevAt, nextAt]
  constructor
  · rintro ⟨⟨prevNonnull, prevFree⟩, nextNonnull, nextUsed⟩
    rcases before.eq_nil_or_concat' with rfl | ⟨bs, p, rfl⟩
    · exact absurd rfl prevNonnull
    · cases after with
      | nil => exact absurd rfl nextNonnull
      | cons q rest =>
          have namedP : prevHeader (bs ++ [p]) = p.header := by simp [prevHeader]
          have namedQ : nextHeader (q :: rest) = q.header := rfl
          rw [namedP] at prevFree
          rw [namedQ] at nextUsed
          have usedQ : ¬q.used = false := fun free => nextUsed ((here.data q (by simp [split])).used_iff.mpr free)
          exact ⟨bs, p, q, rest, rfl, (here.data p (by simp [split])).used_iff.mp prevFree, rfl, by simpa using usedQ⟩
  · rintro ⟨bs, p, q, rest, rfl, free, rfl, used⟩
    have namedP : prevHeader (bs ++ [p]) = p.header := by simp [prevHeader]
    have namedQ : nextHeader (q :: rest) = q.header := rfl
    have notFree : ¬q.used = false := by simp [used]
    rw [namedP, namedQ]
    exact ⟨⟨nonnull p (by simp [split]), (here.data p (by simp [split])).used_iff.mpr free⟩,
      nonnull q (by simp [split]), fun zero => notFree ((here.data q (by simp [split])).used_iff.mp zero)⟩

/-- An allocation adds one live pointer with its block, or finds no pages. -/
theorem HeapState.Holds.kmalloc (holds : state.Holds source cs) {n : Nat}
    (steps : heapStep source (.kmalloc n) state state') :
    (state'.Holds source cs ∧ state'.kheap.mem = state.kheap.mem ∧ state'.served = state.served ∧
      ∃ pages bytes, source.vmmAllocBetween pages state.kheap.env = .ok (NULL, bytes, state'.kheap.env)) ∨
    ∃ ptr cs', state'.Holds source cs' ∧ Allocated source state.kheap cs n ptr state'.kheap cs' ∧
      state'.served = ptr :: state.served := by
  obtain ⟨⟨ptr, kheap'⟩, returned, rest⟩ := Outcome.bind_eq_ok.mp steps
  rcases kmalloc_spec holds.heap returned with ⟨rfl, kept, same, failed⟩ | ⟨nonnull, cs', allocated⟩
  · obtain rfl : { state with kheap := kheap' } = state' := by simpa using rest
    exact Or.inl ⟨⟨kept, holds.pointers, holds.sizes⟩, same, rfl, failed⟩
  · obtain rfl : HeapState.mk kheap' ((ptr, n) :: state.live) (ptr :: state.served) = state' := by
      simpa [nonnull] using rest
    obtain ⟨first, taken, second, usedBefore, usedAfter, named, large⟩ := allocated.used
    refine Or.inr ⟨ptr, cs', ⟨allocated.holds, ?_, ?_⟩, allocated, rfl⟩
    · have pointers := holds.pointers.cons ptr
      have shape : (usedBlks cs').map (fun d => d.header + 40) =
          first.map (fun d => d.header + 40) ++ ptr :: second.map fun d => d.header + 40 := by
        simp [usedAfter, named]
      rw [usedBefore, List.map_append] at pointers
      rw [shape]
      exact pointers.trans List.perm_middle.symm
    · intro entry member
      rw [usedAfter]
      rcases List.mem_cons.mp member with rfl | older
      · exact ⟨taken, by simp, named, large⟩
      · obtain ⟨d, used, at_, fits⟩ := holds.sizes entry older
        rw [usedBefore] at used
        refine ⟨d, ?_, at_, fits⟩
        simp only [List.mem_append, List.mem_cons] at used ⊢
        tauto

theorem map_eraseP_fst (entries : List (Nat × Nat)) (ptr : Nat) :
    (entries.eraseP fun entry => entry.1 = ptr).map Prod.fst = (entries.map Prod.fst).erase ptr := by
  induction entries with
  | nil => rfl
  | cons entry rest ih =>
      by_cases here : entry.1 = ptr
      · simp [here]
      · simp [here, ih]

/-- A safe free returns, and takes one live pointer with its block. -/
theorem HeapState.Holds.kfree (holds : state.Holds source cs) {ptr : Nat} (live : state.Allows (.kfree ptr))
    (safe : state.Safe (.kfree ptr)) :
    ∃ state' cs', heapStep source (.kfree ptr) state state' ∧ state'.Holds source cs' ∧
      Released source state.kheap cs ptr state'.kheap cs' ∧ state'.served = state.served := by
  obtain ⟨entry, member, rfl⟩ := live
  obtain ⟨d, used, named, -⟩ := holds.sizes entry member
  obtain ⟨c, inside, listed, marked⟩ := mem_usedBlks.mp used
  obtain ⟨xs, ys, rfl⟩ := List.append_of_mem inside
  obtain ⟨before, after, split⟩ := List.append_of_mem listed
  have clean : ¬LeavesStale before after := by
    rw [← holds.heap.mergesBeforeUsed_iff split, named]
    exact safe
  obtain ⟨kheap', cs', returned, released⟩ := kfree_spec holds.heap split marked clean
  rw [named] at returned released
  obtain ⟨first, b, second, usedBefore, usedAfter, at_⟩ := released.used
  have distinct := holds.distinct
  refine ⟨{ state with kheap := kheap', live := state.live.eraseP fun other => other.1 = entry.1 }, cs', ?_,
    ⟨released.holds, ?_, ?_⟩, released, rfl⟩
  · rw [heapStep, heapCall, returned]
    rfl
  · have pointers := holds.pointers
    have shape : (usedBlks (xs ++ c :: ys)).map (fun d => d.header + 40) =
        first.map (fun d => d.header + 40) ++ entry.1 :: second.map fun d => d.header + 40 := by
      simp [usedBefore, at_]
    rw [shape] at pointers
    rw [map_eraseP_fst, usedAfter, List.map_append]
    have shorter := (pointers.trans List.perm_middle).erase entry.1
    rw [List.erase_cons_head] at shorter
    exact shorter
  · intro other remaining
    have older : other ∈ state.live := List.mem_of_mem_eraseP remaining
    obtain ⟨e, usedE, namedE, fits⟩ := holds.sizes other older
    refine ⟨e, ?_, namedE, fits⟩
    have different : other.1 ≠ entry.1 := by
      have gone := List.mem_map_of_mem (f := Prod.fst) remaining
      rw [map_eraseP_fst] at gone
      exact (distinct.mem_erase_iff.mp gone).1
    rw [usedBefore] at usedE
    rw [usedAfter]
    simp only [List.mem_append, List.mem_cons] at usedE ⊢
    rcases usedE with earlier | rfl | later
    · exact Or.inl earlier
    · exact absurd (namedE.symm.trans at_) different
    · exact Or.inr later

/-- The heap reads only its headers. -/
theorem Kheap.Holds.keeps_headers (holds : kheap.Holds source cs) {mem' : Memory}
    (same : ∀ kind header, HeaderOf cs kind header → ∀ offset < 40, mem' (header + offset) = kheap.mem (header + offset)) :
    Kheap.Holds source { kheap with mem := mem' } cs := by
  refine ⟨holds.heap, ?_, holds.fits, ?_, holds.apart, holds.ranges⟩
  · apply holds.links.transport
    intro node member
    obtain ⟨c, listed, rfl⟩ := List.mem_map.mp member
    have place := holds.place listed
    constructor
    · apply loadU64_congr (by omega)
      intro offset small
      rw [Nat.add_assoc]
      exact same .container c.addr ⟨c, listed, rfl⟩ _ (by omega)
    · apply loadU64_congr (by omega)
      intro offset small
      rw [Nat.add_assoc]
      exact same .container c.addr ⟨c, listed, rfl⟩ _ (by omega)
  · intro c member
    apply (holds.holds c member).transport (holds.fits c member)
    intro word listed offset small
    rcases Cont.mem_words.mp listed with own | ⟨b, inside, own⟩
    · have here := same .container c.addr ⟨c, member, rfl⟩ (word - c.addr + offset) (by omega)
      have sum : c.addr + (word - c.addr + offset) = word + offset := by omega
      rwa [sum] at here
    · have here := same .block b.header ⟨c, member, b, inside, rfl⟩ (word - b.header + offset) (by omega)
      have sum : b.header + (word - b.header + offset) = word + offset := by omega
      rwa [sum] at here

/-- A byte outside all headers can change. -/
theorem Kheap.Holds.poke (holds : kheap.Holds source cs) {addr : Nat} (byte : BitVec 8)
    (outside : ∀ kind header, HeaderOf cs kind header → addr < header ∨ header + 40 ≤ addr) :
    Kheap.Holds source { kheap with mem := Function.update kheap.mem addr byte } cs := by
  apply holds.keeps_headers
  intro kind header used offset small
  have away := outside kind header used
  exact Function.update_of_ne (by omega) _ _

/-- A client write inside a live allocation keeps the heap. -/
theorem HeapState.Holds.write (holds : state.Holds source cs) {addr : Nat} {byte : BitVec 8}
    (allowed : state.Allows (.write addr byte)) :
    HeapState.Holds source { state with kheap := { state.kheap with mem := Function.update state.kheap.mem addr byte } }
      cs := by
  obtain ⟨entry, member, low, high⟩ := allowed
  obtain ⟨d, used, named, ends⟩ := holds.payload member
  refine ⟨holds.heap.poke byte ?_, holds.pointers, holds.sizes⟩
  intro kind header uses
  exact holds.heap.payload_outside uses used (by omega) (by omega)

/-- A call that the clients may make, and that leaves no stale link, keeps the heap. -/
theorem HeapState.Holds.step (holds : state.Holds source cs) {call : HeapCall} (allowed : state.Allows call)
    (safe : state.Safe call) (steps : heapStep source call state state') : ∃ cs', state'.Holds source cs' := by
  cases call with
  | kmalloc n =>
      rcases holds.kmalloc steps with ⟨kept, -⟩ | ⟨ptr, cs', kept, -⟩
      · exact ⟨cs, kept⟩
      · exact ⟨cs', kept⟩
  | kfree ptr =>
      obtain ⟨final, cs', returned, kept, -⟩ := holds.kfree allowed safe
      obtain rfl : final = state' := Except.ok.inj (returned.symm.trans steps)
      exact ⟨cs', kept⟩
  | write addr byte =>
      obtain rfl : _ = state' := Except.ok.inj steps
      exact ⟨cs, holds.write allowed⟩

/-- Neither call of the heap changes a payload that stays live. -/
theorem HeapState.Holds.keeps (holds : state.Holds source cs) {call : HeapCall} (allowed : state.Allows call)
    (safe : state.Safe call) : state.Keeps source call := by
  intro state' steps noWrite entry member remaining addr low high
  cases call with
  | kmalloc n =>
      obtain ⟨d, used, named, ends⟩ := holds.payload member
      rcases holds.kmalloc steps with ⟨-, same, -⟩ | ⟨ptr, cs', -, allocated, -⟩
      · exact congrFun same addr
      · exact spares_iff.mp allocated.spares d used addr (by omega) (by omega)
  | kfree ptr =>
      obtain ⟨final, cs', returned, kept, released, -⟩ := holds.kfree allowed safe
      obtain rfl : final = state' := Except.ok.inj (returned.symm.trans steps)
      obtain ⟨d, used, named, ends⟩ := kept.payload remaining
      exact spares_iff.mp released.spares d used addr (by omega) (by omega)
  | write target byte => exact absurd rfl (noWrite target byte)

theorem kheapInit_holds {mem : Memory} {env : σ} {sizeInPages : Nat}
    (init : kheapInit source sizeInPages ⟨NULL, mem, env⟩ = .ok kheap) :
    ∃ va pages bytes, kheap.Holds source [freshCont va pages] ∧ va ≠ NULL ∧
      source.vmmAllocBetween pages env = .ok (va, bytes, kheap.env) := by
  have empty : Kheap.Holds source ⟨NULL, mem, env⟩ [] :=
    ⟨rfl, trivial, by simp, by simp, List.Pairwise.nil, by simp⟩
  obtain ⟨⟨va, kheap'⟩, created, rest⟩ := Outcome.bind_eq_ok.mp init
  dsimp only at rest
  split_ifs at rest with null
  obtain rfl : kheap' = kheap := Except.ok.inj rest
  obtain ⟨⟨bytes, obtained⟩, -, linked⟩ := empty.create created
  exact ⟨va, _, bytes, (linked null).1, null, obtained⟩

/-- After `kheap_init`, every run that frees no block between a free block and a used block keeps all
live payloads disjoint, apart from the headers in use, and inside obtained containers. -/
theorem heapRun_sound {mem : Memory} {env : σ} {sizeInPages : Nat}
    (init : kheapInit source sizeInPages ⟨NULL, mem, env⟩ = .ok kheap) {calls : List HeapCall}
    (along : Along (heapStep source) (fun call state => state.Allows call ∧ state.Safe call) calls ⟨kheap, [], []⟩) :
    Along (heapStep source) (fun call state => state.Keeps source call) calls ⟨kheap, [], []⟩ ∧
      ∀ final, Path (heapStep source) calls ⟨kheap, [], []⟩ final → final.Sound source := by
  obtain ⟨va, pages, -, holds, -⟩ := kheapInit_holds init
  have start : ∃ cs, HeapState.Holds source ⟨kheap, [], []⟩ cs :=
    ⟨[freshCont va pages], holds, List.Perm.refl _, by simp⟩
  have keeps : ∀ call state state', (∃ cs, HeapState.Holds source state cs) →
      state.Allows call ∧ state.Safe call → heapStep source call state state' →
      ∃ cs, HeapState.Holds source state' cs := by
    rintro call state state' ⟨cs, holds⟩ ⟨allowed, safe⟩ steps
    exact holds.step allowed safe steps
  refine ⟨Along.of_invariant ?_ keeps start along, ?_⟩
  · rintro call state ⟨cs, holds⟩ ⟨allowed, safe⟩
    exact holds.keeps allowed safe
  · intro final path
    obtain ⟨cs, holds⟩ := Path.keeps keeps start along path
    exact holds.sound

end

/-- A heap on words with its live allocations and the pointers it ever returned. -/
structure WordState (σ : Type) where
  wordHeap : WordHeap σ
  live : List (Nat × Nat)
  served : List Nat
  deriving DecidableEq

structure WordState.Show {σ : Type} (wordState : WordState σ) (state : HeapState σ) : Prop where
  kheap : wordState.wordHeap.Show state.kheap
  live : state.live = wordState.live
  served : state.served = wordState.served

section
variable {σ : Type} (source : HeapPages σ)

/-- The calls of the heap on words, without client writes. -/
def wordCall : HeapCall → WordState σ → Option (WordState σ)
  | .kmalloc sizeInBytes, state => do
      let (ptr, wordHeap) ← state.wordHeap.kmalloc source sizeInBytes
      if ptr = NULL then some { state with wordHeap := wordHeap }
      else some ⟨wordHeap, (ptr, sizeInBytes) :: state.live, ptr :: state.served⟩
  | .kfree ptr, state => do
      let wordHeap ← state.wordHeap.kfree source ptr
      some { state with wordHeap := wordHeap, live := state.live.eraseP fun entry => entry.1 = ptr }
  | .write _ _, _ => none

/-- A check holds before each call of a run on words. -/
def wordAlong (check : HeapCall → WordState σ → Bool) : List HeapCall → WordState σ → Bool
  | [], _ => true
  | call :: calls, state => check call state &&
      match wordCall source call state with
      | none => false
      | some state => wordAlong check calls state

def wordRun : List HeapCall → WordState σ → Option (WordState σ)
  | [], state => some state
  | call :: calls, state => do
      let state ← wordCall source call state
      wordRun calls state

variable {source} {wordState wordState' : WordState σ} {state : HeapState σ}

theorem WordState.Show.call (shows : wordState.Show state) (zeros : source.Zeros) {call : HeapCall}
    (run : wordCall source call wordState = some wordState') :
    ∃ state', heapStep source call state state' ∧ wordState'.Show state' := by
  cases call with
  | kmalloc n =>
      obtain ⟨⟨ptr, wordHeap⟩, allocated, run⟩ := Option.bind_eq_some_iff.mp run
      obtain ⟨kheap, allocated', shows'⟩ := shows.kheap.kmalloc zeros allocated
      dsimp only at run
      by_cases null : ptr = NULL
      · rw [if_pos null] at run
        refine ⟨{ state with kheap := kheap }, ?_, ?_⟩
        · rw [heapStep, heapCall, allocated']
          exact if_pos null
        · rw [← Option.some.inj run]
          exact ⟨shows', shows.live, shows.served⟩
      · rw [if_neg null] at run
        refine ⟨⟨kheap, (ptr, n) :: state.live, ptr :: state.served⟩, ?_, ?_⟩
        · rw [heapStep, heapCall, allocated']
          exact if_neg null
        · rw [← Option.some.inj run]
          exact ⟨shows', congrArg _ shows.live, congrArg _ shows.served⟩
  | kfree ptr =>
      rw [wordCall] at run
      obtain ⟨wordHeap, freed, run⟩ := Option.bind_eq_some_iff.mp run
      obtain ⟨kheap, freed', shows'⟩ := shows.kheap.kfree freed
      refine ⟨{ state with kheap := kheap, live := state.live.eraseP fun entry => entry.1 = ptr }, ?_, ?_⟩
      · rw [heapStep, heapCall, freed']
        rfl
      · rw [← Option.some.inj run]
        exact ⟨shows', congrArg (List.eraseP _) shows.live, shows.served⟩
  | write addr byte => cases run

theorem WordState.Show.along (shows : wordState.Show state) (zeros : source.Zeros)
    {check : HeapCall → WordState σ → Bool} {property : HeapCall → HeapState σ → Prop}
    (gives : ∀ call wordState state, wordState.Show state → check call wordState = true → property call state)
    {calls : List HeapCall} (run : wordAlong source check calls wordState = true) :
    Along (heapStep source) property calls state := by
  induction calls generalizing wordState state with
  | nil => trivial
  | cons call calls ih =>
      rw [wordAlong, Bool.and_eq_true] at run
      refine ⟨gives call wordState state shows run.1, ?_⟩
      intro state' steps
      cases next : wordCall source call wordState with
      | none =>
          rw [next] at run
          exact absurd run.2 (by simp)
      | some wordState' =>
          rw [next] at run
          obtain ⟨final, steps', shows'⟩ := shows.call zeros next
          obtain rfl : final = state' := Except.ok.inj (steps'.symm.trans steps)
          exact ih shows' run.2

theorem WordState.Show.path (shows : wordState.Show state) (zeros : source.Zeros) {calls : List HeapCall}
    (run : wordRun source calls wordState = some wordState') :
    ∃ final, Path (heapStep source) calls state final ∧ wordState'.Show final := by
  induction calls generalizing wordState state with
  | nil => exact ⟨state, rfl, Option.some.inj run ▸ shows⟩
  | cons call calls ih =>
      obtain ⟨wordState1, next, run⟩ := Option.bind_eq_some_iff.mp run
      obtain ⟨state1, steps, shows1⟩ := shows.call zeros next
      obtain ⟨final, path, shows2⟩ := ih shows1 run
      exact ⟨final, ⟨state1, steps, path⟩, shows2⟩

/-- The checks on words of what clients may do and of the condition on frees. -/
def allowedOnWords : HeapCall → WordState σ → Bool
  | .kmalloc sizeInBytes, _ => sizeInBytes < 2 ^ 64
  | .kfree ptr, state => state.live.any fun entry => entry.1 = ptr
  | .write _ _, _ => false

theorem allowedOnWords_allows {call : HeapCall} (shows : wordState.Show state)
    (check : allowedOnWords call wordState = true) : state.Allows call := by
  cases call with
  | kmalloc n =>
      show n < 2 ^ 64
      simpa [allowedOnWords] using check
  | kfree ptr =>
      obtain ⟨entry, member, named⟩ := List.any_eq_true.mp check
      exact ⟨entry, shows.live ▸ member, by simpa using named⟩
  | write addr byte => cases check

def safeOnWords : HeapCall → WordState σ → Bool
  | .kfree ptr, state =>
      let words := state.wordHeap.words
      (do
        let prev ← words.loadU64 (blockPrev (dataBlock ptr))
        let next ← words.loadU64 (blockNext (dataBlock ptr))
        let usedPrev ← words.loadU8 (blockUsed prev)
        let usedNext ← words.loadU8 (blockUsed next)
        some (¬((prev ≠ NULL ∧ usedPrev = 0) ∧ next ≠ NULL ∧ usedNext ≠ 0))) = some true
  | _, _ => true

theorem safeOnWords_safe {call : HeapCall} (shows : wordState.Show state)
    (check : safeOnWords call wordState = true) : state.Safe call := by
  cases call with
  | kmalloc n => trivial
  | kfree ptr =>
      simp only [safeOnWords, decide_eq_true_eq] at check
      obtain ⟨prev, prevAt, check⟩ := Option.bind_eq_some_iff.mp check
      obtain ⟨next, nextAt, check⟩ := Option.bind_eq_some_iff.mp check
      obtain ⟨usedPrev, usedPrevAt, check⟩ := Option.bind_eq_some_iff.mp check
      obtain ⟨usedNext, usedNextAt, check⟩ := Option.bind_eq_some_iff.mp check
      have words := shows.kheap.words
      simp only [HeapState.Safe, Kheap.MergesBeforeUsed, words.loadU64 prevAt, words.loadU64 nextAt,
        words.loadU8 usedPrevAt, words.loadU8 usedNextAt]
      exact of_decide_eq_true (Option.some.inj check)
  | write addr byte => trivial

theorem WordState.Show.allowed (shows : wordState.Show state) (zeros : source.Zeros) {calls : List HeapCall}
    (run : wordAlong source allowedOnWords calls wordState = true) :
    Along (heapStep source) HeapState.Allows calls state := by
  refine shows.along zeros ?_ run
  intro call wordState state shows check
  exact allowedOnWords_allows shows check

theorem WordState.Show.safely (shows : wordState.Show state) (zeros : source.Zeros) {calls : List HeapCall}
    (run : wordAlong source (fun call state => allowedOnWords call state && safeOnWords call state) calls wordState =
      true) :
    Along (heapStep source) (fun call state => state.Allows call ∧ state.Safe call) calls state := by
  refine shows.along zeros ?_ run
  intro call wordState state shows check
  rw [Bool.and_eq_true] at check
  exact ⟨allowedOnWords_allows shows check.1, safeOnWords_safe shows check.2⟩

theorem WordState.Show.reaches (shows : wordState.Show state) (zeros : source.Zeros) {calls : List HeapCall}
    (run : (wordRun source calls wordState).isSome = true) :
    ∃ final, Path (heapStep source) calls state final := by
  obtain ⟨wordState', run⟩ := Option.isSome_iff_exists.mp run
  obtain ⟨final, path, -⟩ := shows.path zeros run
  exact ⟨final, path⟩

/-- A property that fails before the last call fails along the run. -/
theorem WordState.Show.not_along (shows : wordState.Show state) (zeros : source.Zeros) (calls : List HeapCall) {call : HeapCall}
    {property : HeapCall → HeapState σ → Prop}
    (fails : ∃ wordState', wordRun source calls wordState = some wordState' ∧
      ∀ state', wordState'.Show state' → ¬property call state') :
    ¬Along (heapStep source) property (calls ++ [call]) state := by
  obtain ⟨wordState', run, fails⟩ := fails
  obtain ⟨final, path, shows'⟩ := shows.path zeros run
  rw [along_append]
  rintro ⟨-, later⟩
  exact fails final shows' (later final path).1

/-- The payload of an entry that stays live changes in a call on words. -/
def changesOnWords (source : HeapPages σ) (entry : Nat × Nat) (addr : Nat) (call : HeapCall) (wordState : WordState σ) : Bool :=
  match wordCall source call wordState with
  | none => false
  | some wordState' => entry ∈ wordState.live ∧ entry ∈ wordState'.live ∧ entry.1 ≤ addr ∧ addr < entry.1 + entry.2 ∧
      (do
        let before ← wordState.wordHeap.words.loadU8 addr
        let after ← wordState'.wordHeap.words.loadU8 addr
        some (decide (before ≠ after))) = some true

theorem changesOnWords_not_keeps {entry : Nat × Nat} {addr : Nat} {call : HeapCall}
    (noWrite : ∀ addr byte, call ≠ .write addr byte) (zeros : source.Zeros) (shows : wordState.Show state)
    (check : changesOnWords source entry addr call wordState = true) : ¬state.Keeps source call := by
  intro keeps
  unfold changesOnWords at check
  cases next : wordCall source call wordState with
  | none =>
      rw [next] at check
      cases check
  | some wordState' =>
      rw [next] at check
      obtain ⟨before, after, low, high, check⟩ := of_decide_eq_true check
      obtain ⟨state', steps, shows'⟩ := shows.call zeros next
      obtain ⟨first, firstAt, check⟩ := Option.bind_eq_some_iff.mp check
      obtain ⟨second, secondAt, check⟩ := Option.bind_eq_some_iff.mp check
      have same := keeps state' steps noWrite entry (shows.live ▸ before) (shows'.live ▸ after) addr low high
      have different : first ≠ second := of_decide_eq_true (Option.some.inj check)
      apply different
      rw [← shows.kheap.words.byte firstAt, ← shows'.kheap.words.byte secondAt, same]

/-- The heap on words after `kheap_init`. -/
def wordStart (source : HeapPages σ) (env : σ) : WordState σ :=
  ⟨(WordHeap.kheapInit source 1 ⟨NULL, [], env⟩).getD ⟨NULL, [], env⟩, [], []⟩

theorem wordStart_shows (zeros : source.Zeros) {env : σ}
    (started : (WordHeap.kheapInit source 1 ⟨NULL, [], env⟩).isSome = true) :
    ∃ kheap, kheapInit source 1 ⟨NULL, fun _ => 0, env⟩ = .ok kheap ∧
      (wordStart source env).Show ⟨kheap, [], []⟩ := by
  have blank : WordHeap.Show ⟨NULL, [], env⟩ ⟨NULL, fun _ => 0, env⟩ :=
    ⟨rfl, fun addr word => loadU64_zeros _ word.room fun _ _ => rfl, rfl⟩
  obtain ⟨wordHeap, found⟩ := Option.isSome_iff_exists.mp started
  obtain ⟨kheap, init, shows⟩ := blank.kheapInit zeros found
  refine ⟨kheap, init, ?_, rfl, rfl⟩
  rw [wordStart, found]
  exact shows

end

/-- Two allocations and a free meet the condition. -/
theorem heapRun_sound_firstFit : ∃ kheap final, kheapInit firstFit 1 ⟨NULL, fun _ => 0, []⟩ = .ok kheap ∧
    Path (heapStep firstFit) [.kmalloc 8, .kmalloc 8, .kfree (kernelHeapStart + 80)] ⟨kheap, [], []⟩ final ∧
      final.Sound firstFit := by
  obtain ⟨kheap, init, shows⟩ := @wordStart_shows _ firstFit firstFit_zeros [] (by decide +kernel)
  have along := @WordState.Show.safely _ _ _ _ shows firstFit_zeros
    [.kmalloc 8, .kmalloc 8, .kfree (kernelHeapStart + 80)] (by decide +kernel)
  obtain ⟨final, path⟩ := @WordState.Show.reaches _ _ _ _ shows firstFit_zeros
    [.kmalloc 8, .kmalloc 8, .kfree (kernelHeapStart + 80)] (by decide +kernel)
  exact ⟨kheap, final, init, path, (heapRun_sound init along).2 final path⟩

/-- A free between a free block and a used block leaves a stale link, which a later free follows into
the payload of a live allocation. -/
theorem heapRun_overwrites : ∃ kheap, kheapInit firstFit 1 ⟨NULL, fun _ => 0, []⟩ = .ok kheap ∧
    Along (heapStep firstFit) (fun call state => state.Allows call)
      [.kmalloc 8, .kmalloc 8, .kmalloc 8, .kmalloc 8, .kfree (kernelHeapStart + 80), .kfree (kernelHeapStart + 144),
        .kmalloc 56, .kfree (kernelHeapStart + 208)] ⟨kheap, [], []⟩ ∧
    ¬Along (heapStep firstFit) (fun call state => state.Keeps firstFit call)
      [.kmalloc 8, .kmalloc 8, .kmalloc 8, .kmalloc 8, .kfree (kernelHeapStart + 80), .kfree (kernelHeapStart + 144),
        .kmalloc 56, .kfree (kernelHeapStart + 208)] ⟨kheap, [], []⟩ := by
  obtain ⟨kheap, init, shows⟩ := @wordStart_shows _ firstFit firstFit_zeros [] (by decide +kernel)
  refine ⟨kheap, init, shows.allowed firstFit_zeros (by decide +kernel), ?_⟩
  have check : (wordRun firstFit [.kmalloc 8, .kmalloc 8, .kmalloc 8, .kmalloc 8, .kfree (kernelHeapStart + 80),
      .kfree (kernelHeapStart + 144), .kmalloc 56] (wordStart firstFit [])).any
      (changesOnWords firstFit (kernelHeapStart + 80, 56) (kernelHeapStart + 104) (.kfree (kernelHeapStart + 208))) = true := by
    decide +kernel
  obtain ⟨wordState, run, check⟩ := (Option.any_eq_true _ _).mp check
  exact shows.not_along firstFit_zeros _ ⟨wordState, run, fun state shows =>
    changesOnWords_not_keeps (fun _ _ => HeapCall.noConfusion) firstFit_zeros shows check⟩

end B0s
