import B0s.Proof.Mm.KheapMerge

/-
This file relates the heap list to a list of containers, and proves that the walk of `kmalloc` takes a
block from one of them.
-/

namespace B0s
open ByteMemory DoublyLinked

/-- The address that comes first in a list of containers, or null. -/
def headAddr (cs : List Cont) : Nat := (cs.map Cont.addr).headD NULL

/-- The containers are linked from the heap pointer, lie apart, and occupy obtained pages. -/
structure Kheap.Holds {σ : Type} (source : HeapPages σ) (kheap : Kheap σ) (cs : List Cont) : Prop where
  heap : kheap.heap = headAddr cs
  links : Segment (fun c => loadU64 kheap.mem (c + 24)) (fun c => loadU64 kheap.mem (c + 16)) NULL
    (cs.map Cont.addr) NULL
  fits : ∀ c ∈ cs, c.Fits
  holds : ∀ c ∈ cs, c.Holds kheap.mem
  apart : cs.Pairwise fun c c' => c.stop ≤ c'.addr ∨ c'.stop ≤ c.addr
  ranges : ∀ c ∈ cs, (c.addr, c.pages) ∈ source.ranges kheap.env

/-- The containers are linked from the heap pointer and lie apart. -/
structure HeapList (heap : Nat) (mem : Memory) (cs : List Cont) : Prop where
  heap : heap = headAddr cs
  links : Segment (fun c => loadU64 mem (c + 24)) (fun c => loadU64 mem (c + 16)) NULL (cs.map Cont.addr) NULL
  fits : ∀ c ∈ cs, c.Fits
  holds : ∀ c ∈ cs, c.Holds mem
  apart : cs.Pairwise fun c c' => c.stop ≤ c'.addr ∨ c'.stop ≤ c.addr

theorem Kheap.Holds.list {σ : Type} {source : HeapPages σ} {kheap : Kheap σ} {cs : List Cont}
    (holds : kheap.Holds source cs) : HeapList kheap.heap kheap.mem cs :=
  ⟨holds.heap, holds.links, holds.fits, holds.holds, holds.apart⟩

/-- The payloads of the used blocks of a list of containers are unchanged. -/
def Spares (cs : List Cont) (mem mem' : Memory) : Prop :=
  ∀ c ∈ cs, ∀ d ∈ c.blks, d.used = true → ∀ addr, d.header + 40 ≤ addr → addr < d.stop → mem' addr = mem addr

theorem loadU64_congr {mem mem' : Memory} {addr : Nat} (room : addr + 8 ≤ 2 ^ 64)
    (same : ∀ offset < 8, mem' (addr + offset) = mem (addr + offset)) : loadU64 mem' addr = loadU64 mem addr := by
  have equal : loadWord mem' addr = loadWord mem addr := by
    apply loadWord_congr
    intro offset small
    have inside : (addr + offset) % 2 ^ 64 = addr + offset := Nat.mod_eq_of_lt (by omega)
    rw [byteAt, byteAt, inside]
    exact same offset small
  rw [loadU64, loadU64, equal]

section
variable {c c' : Cont} {mem mem' : Memory}

theorem Cont.Fits.low (fits : c.Fits) : 4096 ≤ c.addr := by
  have nonnull : c.addr ≠ 0 := fits.nonnull
  have page := fits.aligned
  omega

theorem Cont.Fits.room (fits : c.Fits) : c.addr + 80 ≤ c.stop := by
  obtain ⟨first, member, start⟩ := fits.first_block
  have facts := fits.inside first member
  unfold Blk.stop at facts
  omega

/-- A container apart from the touched one is as before. -/
theorem Cont.Touches.other (touches : c.Touches mem mem') (fits' : c'.Fits) (holds' : c'.Holds mem)
    (apart : c.stop ≤ c'.addr ∨ c'.stop ≤ c.addr) :
    c'.Holds mem' ∧ (∀ addr, c'.addr ≤ addr → addr < c'.stop → mem' addr = mem addr) := by
  have low := fits'.low
  have bounded := fits'.bounded
  have same : ∀ addr, c'.addr ≤ addr → addr < c'.stop → mem' addr = mem addr := by
    intro addr above below
    exact touches.outside addr (by omega) (by omega) (by omega)
  refine ⟨holds'.transport fits' ?_, same⟩
  intro word listed offset small
  have facts := fits'.word listed
  exact same _ (by omega) (by omega)

end

section
variable {σ : Type} {source : HeapPages σ} {kheap : Kheap σ} {cs xs ys : List Cont} {c c' : Cont}
  {heap : Nat} {mem : Memory}

/-- Replacing one container in place keeps the heap list. -/
theorem Kheap.Holds.replace (holds : kheap.Holds source (xs ++ c :: ys)) {mem' : Memory}
    (becomes : c.Becomes c' kheap.mem mem') (addr : c'.addr = c.addr) (pages : c'.pages = c.pages) :
    Kheap.Holds source { kheap with mem := mem' } (xs ++ c' :: ys) ∧ Spares (xs ++ c :: ys) kheap.mem mem' := by
  have stop : c'.stop = c.stop := by
    unfold Cont.stop
    rw [addr, pages]
  have apart := holds.apart
  rw [List.pairwise_append, List.pairwise_cons] at apart
  have others : ∀ d ∈ xs ++ ys, c.stop ≤ d.addr ∨ d.stop ≤ c.addr := by
    intro d member
    rcases List.mem_append.mp member with earlier | later
    · exact (apart.2.2 d earlier c (by simp)).symm
    · exact apart.2.1.1 d later
  have inside : ∀ d ∈ xs ++ ys, d ∈ xs ++ c :: ys := by
    intro d member
    rcases List.mem_append.mp member with earlier | later
    · simp [earlier]
    · simp [later]
  have same : ∀ d ∈ xs ++ ys, d.Holds mem' ∧ ∀ addr, d.addr ≤ addr → addr < d.stop →
      mem' addr = kheap.mem addr := fun d member =>
    becomes.touches.other (holds.fits d (inside d member)) (holds.holds d (inside d member)) (others d member)
  have fitsC := holds.fits c (by simp)
  have split : ∀ d ∈ xs ++ c :: ys, d = c ∨ d ∈ xs ++ ys := by
    intro d member
    simp only [List.mem_append, List.mem_cons] at member ⊢
    tauto
  have split' : ∀ d ∈ xs ++ c' :: ys, d = c' ∨ d ∈ xs ++ ys := by
    intro d member
    simp only [List.mem_append, List.mem_cons] at member ⊢
    tauto
  have maps : (xs ++ c' :: ys).map Cont.addr = (xs ++ c :: ys).map Cont.addr := by simp [addr]
  refine ⟨⟨?_, ?_, ?_, ?_, ?_, ?_⟩, ?_⟩
  · rw [headAddr, maps]
    exact holds.heap
  · rw [maps]
    apply holds.links.transport
    intro node member
    obtain ⟨d, listed, rfl⟩ := List.mem_map.mp member
    have bounded := (holds.fits d listed).bounded
    have room := (holds.fits d listed).room
    have linked : ∀ addr, d.addr + 16 ≤ addr → addr < d.addr + 32 → mem' addr = kheap.mem addr := by
      rcases split d listed with rfl | other
      · exact becomes.touches.links
      · intro addr low high
        exact (same d other).2 addr (by omega) (by omega)
    constructor
    · apply loadU64_congr (by omega)
      intro offset small
      exact linked _ (by omega) (by omega)
    · apply loadU64_congr (by omega)
      intro offset small
      exact linked _ (by omega) (by omega)
  · intro d member
    rcases split' d member with rfl | other
    · exact becomes.fits
    · exact holds.fits d (inside d other)
  · intro d member
    rcases split' d member with rfl | other
    · exact becomes.holds
    · exact (same d other).1
  · rw [List.pairwise_append, List.pairwise_cons]
    refine ⟨apart.1, ⟨?_, apart.2.1.2⟩, ?_⟩
    · intro d member
      rw [stop, addr]
      exact apart.2.1.1 d member
    · intro d member d' member'
      rcases List.mem_cons.mp member' with rfl | later
      · rw [stop, addr]
        exact apart.2.2 d member c (by simp)
      · exact apart.2.2 d member d' (by simp [later])
  · intro d member
    rcases split' d member with rfl | other
    · rw [addr, pages]
      exact holds.ranges c (by simp)
    · exact holds.ranges d (inside d other)
  · intro d member b listed used spot low high
    rcases split d member with rfl | other
    · exact becomes.touches.payload b listed used spot low high
    · have place := (holds.fits d member).inside b listed
      exact (same d other).2 spot (by omega) (by omega)

theorem HeapList.apart_of_ne (list : HeapList heap mem cs) {d : Cont} (member : c ∈ cs) (member' : d ∈ cs)
    (different : c ≠ d) : c.stop ≤ d.addr ∨ d.stop ≤ c.addr := by
  have : Std.Symm fun c c' : Cont => c.stop ≤ c'.addr ∨ c'.stop ≤ c.addr := ⟨fun _ _ away => away.symm⟩
  exact list.apart.forall member member' different

theorem Kheap.Holds.apart_of_ne (holds : kheap.Holds source cs) {d : Cont} (member : c ∈ cs) (member' : d ∈ cs)
    (different : c ≠ d) : c.stop ≤ d.addr ∨ d.stop ≤ c.addr :=
  holds.list.apart_of_ne member member' different

theorem headAddr_mem (member : c ∈ cs) : ∃ d ∈ cs, headAddr cs = d.addr := by
  cases cs with
  | nil => cases member
  | cons d rest => exact ⟨d, by simp, rfl⟩

theorem headAddr_eq {addr : Nat} (head : (xs.map Cont.addr).head? = some addr) : headAddr xs = addr := by
  rw [headAddr, List.headD_eq_head?_getD, head]
  rfl

theorem headAddr_some (nonnull : headAddr xs ≠ NULL) : (xs.map Cont.addr).head? = some (headAddr xs) := by
  cases head : (xs.map Cont.addr).head? with
  | none =>
      rw [headAddr, List.headD_eq_head?_getD, head] at nonnull
      exact absurd rfl nonnull
  | some addr => rw [headAddr_eq head]

/-- A byte of one container outside its links is outside the links of all containers. -/
theorem HeapList.outside_links (list : HeapList heap mem cs) {d : Cont} (member : c ∈ cs) (member' : d ∈ cs)
    {addr : Nat} (low : c.addr ≤ addr) (high : addr < c.stop) (inside : addr < c.addr + 16 ∨ c.addr + 32 ≤ addr) :
    addr < d.addr + 16 ∨ d.addr + 32 ≤ addr := by
  by_cases same : c = d
  · rw [← same]
    exact inside
  · have away := list.apart_of_ne member member' same
    have room := (list.fits d member').room
    omega

theorem Kheap.Holds.outside_links (holds : kheap.Holds source cs) {d : Cont} (member : c ∈ cs) (member' : d ∈ cs)
    {addr : Nat} (low : c.addr ≤ addr) (high : addr < c.stop) (inside : addr < c.addr + 16 ∨ c.addr + 32 ≤ addr) :
    addr < d.addr + 16 ∨ d.addr + 32 ≤ addr :=
  holds.list.outside_links member member' low high inside

theorem HeapList.distinct (list : HeapList heap mem cs) : (cs.map Cont.addr).Nodup := by
  rw [List.Nodup, List.pairwise_map]
  apply List.Pairwise.imp_of_mem _ list.apart
  intro c c' member member' apart same
  have room := (list.fits c member).room
  have room' := (list.fits c' member').room
  omega

theorem Kheap.Holds.distinct (holds : kheap.Holds source cs) : (cs.map Cont.addr).Nodup := holds.list.distinct

/-- The containers are too few for a walk to exceed the limit. -/
theorem HeapList.length_lt (list : HeapList heap mem cs) : cs.length < walkLimit := by
  have distinct := list.distinct
  have inside : (cs.map Cont.addr).toFinset ⊆ Finset.Ico 1 (2 ^ 64) := by
    intro addr member
    obtain ⟨c, listed, rfl⟩ := List.mem_map.mp (List.mem_toFinset.mp member)
    have low := (list.fits c listed).low
    have bounded := (list.fits c listed).bounded
    have room := (list.fits c listed).room
    rw [Finset.mem_Ico]
    omega
  have count := Finset.card_le_card inside
  rw [List.toFinset_card_of_nodup distinct, Nat.card_Ico, List.length_map] at count
  unfold walkLimit
  omega

theorem Kheap.Holds.length_lt (holds : kheap.Holds source cs) : cs.length < walkLimit := holds.list.length_lt

/-- The link of a container leads to the next one. -/
theorem HeapList.next_eq (list : HeapList heap mem (xs ++ c :: ys)) : loadU64 mem (c.addr + 24) = headAddr ys := by
  have linked := list.links
  rw [List.map_append, List.map_cons] at linked
  exact linked.links_at.1

theorem Kheap.Holds.next_eq (holds : kheap.Holds source (xs ++ c :: ys)) :
    loadU64 kheap.mem (c.addr + 24) = headAddr ys :=
  holds.list.next_eq

theorem Cont.take_range (c : Cont) (before : List Blk) (b : Blk) (after : List Blk) (n : Nat) :
    (c.take before b after n).addr = c.addr ∧ (c.take before b after n).pages = c.pages := by
  unfold Cont.take
  split_ifs
  · exact ⟨rfl, rfl⟩
  · exact ⟨rfl, rfl⟩

theorem Cont.Holds.take_becomes {before after : List Blk} {b : Blk} {n : Nat} {mem : Memory}
    (holds : c.Holds mem) (fits : c.Fits) (split : c.blks = before ++ b :: after) (serves : b.Serves n) :
    c.Becomes (c.take before b after n) mem (foundBlock b.header n mem) where
  fits := fits.take split
  holds := holds.take fits split serves.1 serves.2
  touches := foundBlock_touches holds fits split serves.1 serves.2

/-- One container of the list takes a block that can serve the request. -/
structure Served (cs : List Cont) (n : Nat) (mem : Memory) (b : Blk) (mem' : Memory) (cs' : List Cont) : Prop where
  serves : b.Serves n
  taken : ∃ xs c ys before after, cs = xs ++ c :: ys ∧ c.blks = before ++ b :: after ∧
    cs' = xs ++ c.take before b after n :: ys
  memory : mem' = foundBlock b.header n mem

/-- The walk of `kmalloc` takes a block in the first container that can serve the request. -/
theorem kmallocSearch_spec {n steps : Nat} (list : HeapList heap mem (xs ++ ys)) (enough : ys.length < steps) :
    (kmallocSearch n steps (headAddr ys) mem = .ok (NULL, mem) ∧ ∀ c ∈ ys, ∀ d ∈ c.blks, ¬d.Serves n) ∨
    ∃ b mem' cs', Served (xs ++ ys) n mem b mem' cs' ∧ b.header ≠ NULL ∧
      kmallocSearch n steps (headAddr ys) mem = .ok (b.header, mem') := by
  induction ys generalizing xs steps with
  | nil =>
      obtain ⟨steps, rfl⟩ := Nat.exists_eq_succ_of_ne_zero (Nat.ne_of_gt enough)
      exact Or.inl ⟨rfl, by simp⟩
  | cons c ys ih =>
      obtain ⟨steps, rfl⟩ := Nat.exists_eq_succ_of_ne_zero (Nat.ne_of_gt (Nat.zero_lt_of_lt enough))
      have fits := list.fits c (by simp)
      have nonnull : c.addr ≠ NULL := fits.nonnull
      have head : headAddr (c :: ys) = c.addr := rfl
      rw [head, kmallocSearch, if_neg nonnull]
      rcases tryAllocBlock_spec (list.holds c (by simp)) fits n with
        ⟨none, unfit⟩ | ⟨before, b, after, split, serves, -, found⟩
      · have next : loadU64 mem (containerNext c.addr) = headAddr ys := list.next_eq
        have later : HeapList heap mem ((xs ++ [c]) ++ ys) := by
          rw [List.append_assoc]
          exact list
        rw [List.length_cons] at enough
        have found := @ih (xs ++ [c]) steps later (by omega)
        rw [List.append_assoc] at found
        have both : (∀ d ∈ c :: ys, ∀ e ∈ d.blks, ¬e.Serves n) ↔ ∀ d ∈ ys, ∀ e ∈ d.blks, ¬e.Serves n := by
          rw [List.forall_mem_cons]
          exact and_iff_right unfit
        rw [none, both]
        simpa [bind, Except.bind, next] using found
      · right
        have place := fits.inside b (by simp [split])
        have nonnullB : b.header ≠ NULL := by
          unfold NULL
          omega
        refine ⟨b, _, _, ⟨serves, ⟨xs, c, ys, before, after, rfl, split, rfl⟩, rfl⟩, nonnullB, ?_⟩
        rw [found]
        simp [bind, Except.bind, nonnullB]

end

end B0s
