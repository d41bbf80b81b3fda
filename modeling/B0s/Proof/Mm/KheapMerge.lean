import B0s.Proof.Mm.KheapTake

/-
This file proves that releasing a block merges it with its free neighbours, except where a used block
follows a merge with the previous one.
-/

namespace B0s
open ByteMemory DoublyLinked

/-- The list with a block grown over the blocks behind it. -/
def Cont.merge (c : Cont) (first : List Blk) (kept : Blk) (second : List Blk) (size : Nat) : Cont :=
  { c with blks := first ++ { kept with size := size } :: second }

section
variable {c : Cont} {mem : Memory} {first gone second : List Blk} {kept : Blk} {size : Nat}

theorem Cont.Fits.merge (fits : c.Fits) (split : c.blks = first ++ kept :: (gone ++ second))
    (inside : kept.header + 40 + size ≤ c.stop) (below : ∀ d ∈ second, kept.header + 40 + size ≤ d.header) :
    (c.merge first kept second size).Fits := by
  have start := fits.first
  have order := fits.order
  have places := fits.inside
  rw [split] at start order places
  rw [List.pairwise_append, List.pairwise_cons, List.pairwise_append] at order
  refine ⟨fits.aligned, fits.nonnull, fits.bounded, ?_, ?_, ?_⟩
  · cases first with
    | nil => exact start
    | cons head rest => exact start
  · simp only [Cont.merge]
    rw [List.pairwise_append, List.pairwise_cons]
    refine ⟨order.1, ⟨below, order.2.1.2.2.1⟩, ?_⟩
    intro d member d' member'
    rcases List.mem_cons.mp member' with rfl | later
    · exact order.2.2 d member kept (by simp)
    · exact order.2.2 d member d' (by simp [later])
  · intro d member
    simp only [Cont.merge, List.mem_append, List.mem_cons] at member
    rcases member with earlier | rfl | later
    · exact places d (by simp [earlier])
    · have here := places kept (by simp)
      exact ⟨here.1, inside, here.2.2⟩
    · exact places d (by simp [later])

/-- The blocks behind a merge lie at its next header or behind it. -/
theorem Cont.Fits.behind (fits : c.Fits) (split : c.blks = first ++ kept :: (gone ++ second)) :
    (nextHeader second = 0 ∨ kept.stop ≤ nextHeader second ∧ nextHeader second + 40 ≤ c.stop ∧
      nextHeader second % 16 = 8) ∧
    ∀ d ∈ second, kept.stop ≤ d.header ∧ d.stop ≤ c.stop ∧ d.header % 16 = 8 ∧
      (d.header = nextHeader second ∨ nextHeader second + 40 ≤ d.header) := by
  have around := fits.around split
  have order := fits.order
  rw [split, List.pairwise_append, List.pairwise_cons, List.pairwise_append] at order
  have behind := order.2.1.2.2.1
  cases second with
  | nil => exact ⟨Or.inl rfl, by simp⟩
  | cons q rest =>
      have named : nextHeader (q :: rest) = q.header := rfl
      have here := around.after q (by simp)
      rw [named]
      constructor
      · right
        unfold Blk.stop at here ⊢
        omega
      · intro d member
        have there := around.after d (by simp [member])
        refine ⟨there.1, there.2.1, there.2.2, ?_⟩
        rcases List.mem_cons.mp member with rfl | later
        · exact Or.inl rfl
        · have apart := (List.pairwise_cons.mp behind).1 d later
          unfold Blk.stop at apart
          omega

/-- A memory in which one block is grown and linked over the blocks behind it holds the merged list. -/
theorem Cont.Holds.merge (holds : c.Holds mem) (fits : c.Fits)
    (split : c.blks = first ++ kept :: (gone ++ second)) (unused : ∀ d ∈ gone, d.used = false)
    {mem' : Memory} (agrees : Agrees [kept.header, kept.header + 24, nextHeader second + 16] mem mem')
    (sizeAt : loadU64 mem' kept.header = size) (forth : loadU64 mem' (kept.header + 24) = nextHeader second)
    (back : nextHeader second ≠ NULL → loadU64 mem' (nextHeader second + 16) = kept.header) :
    (c.merge first kept second size).Holds mem' := by
  have around := fits.around split
  have page := fits.aligned
  have bounded := fits.bounded
  have low := around.low
  have high := around.high
  have place := around.aligned
  have beforeAt := around.before
  have afterAt := around.after
  unfold Blk.stop at high beforeAt afterAt
  have start : 4096 ≤ c.addr := by
    have nonnull : c.addr ≠ 0 := fits.nonnull
    omega
  obtain ⟨nextAt, secondAt⟩ := fits.behind split
  unfold Blk.stop at nextAt secondAt
  have firstIn : ∀ d ∈ first, d ∈ c.blks := fun d member => by simp [split, member]
  have secondIn : ∀ d ∈ second, d ∈ c.blks := fun d member => by simp [split, member]
  have linked := holds.links
  have distinct := fits.distinct
  rw [split, List.map_append, List.map_cons, List.append_cons, List.map_append] at linked distinct
  generalize nextNamed : nextHeader second = next at *
  have alignedWords : ∀ word ∈ [kept.header, kept.header + 24, next + 16], word % 8 = 0 := by
    intro word member
    simp only [List.mem_cons, List.not_mem_nil, or_false] at member
    omega
  have loaded : ∀ addr, addr % 8 = 0 → addr + 8 ≤ 2 ^ 64 → addr ≠ kept.header → addr ≠ kept.header + 24 →
      addr ≠ next + 16 → loadU64 mem' addr = loadU64 mem addr := by
    intro addr aligned room size link back
    apply agrees.loadU64 alignedWords ⟨aligned, room⟩
    simp only [List.mem_cons, List.not_mem_nil, or_false, not_or]
    exact ⟨size, link, back⟩
  have away : ∀ d ∈ first ++ second, d.header % 8 = 0 ∧ d.header + 40 ≤ 2 ^ 64 ∧
      (d.header + 40 ≤ kept.header ∨ kept.header + 40 ≤ d.header) ∧ 40 ≤ d.header ∧
      (next = 0 ∨ d.header = next ∨ d.header + 40 ≤ next ∨ next + 40 ≤ d.header) := by
    intro d member
    rcases List.mem_append.mp member with earlier | later
    · have facts := beforeAt d earlier
      omega
    · have facts := secondAt d later
      omega
  have other : ∀ d ∈ first ++ second, d ∈ c.blks → d.Holds c.addr mem' := by
    intro d member listed
    have facts := away d member
    refine (holds.data d listed).agrees agrees alignedWords facts.1 facts.2.1 ?_ ?_ ?_
    · simp only [List.mem_cons, List.not_mem_nil, or_false, not_or]
      omega
    · simp only [List.mem_cons, List.not_mem_nil, or_false, not_or]
      omega
    · simp only [List.mem_cons, List.not_mem_nil, or_false, not_or]
      omega
  refine ⟨?_, ?_, ?_, ?_, ?_⟩
  · show loadU64 mem' c.addr + 40 = c.pages * 4096
    rw [loaded c.addr (by omega) (by omega) (by omega) (by omega) (by omega)]
    exact holds.size
  · have none : gone.filter Blk.used = [] := by
      rw [List.filter_eq_nil_iff]
      intro d member
      simp [unused d member]
    have count : (c.merge first kept second size).usedCount = c.usedCount := by
      simp only [Cont.usedCount, Cont.merge, split, List.filter_append, List.filter_cons, none,
        List.nil_append]
      split_ifs <;> simp
    rw [count]
    show loadU64 mem' (c.addr + 8) = _
    rw [loaded _ (by omega) (by omega) (by omega) (by omega) (by omega)]
    exact holds.used
  · show loadU64 mem' (c.addr + 32) = c.addr + 40
    rw [loaded _ (by omega) (by omega) (by omega) (by omega) (by omega)]
    exact holds.block
  · have shape : (c.merge first kept second size).blks.map Blk.header =
        (first.map Blk.header ++ [kept.header]) ++ second.map Blk.header := by
      simp [Cont.merge]
    have others : ∀ header ∈ first.map Blk.header ++ [kept.header] ++ second.map Blk.header,
        header = kept.header ∨ ∃ d ∈ first ++ second, d.header = header := by
      intro header member
      simp only [List.append_assoc, List.mem_append, List.mem_map, List.mem_singleton] at member
      rcases member with ⟨d, earlier, rfl⟩ | rfl | ⟨d, later, rfl⟩
      · exact Or.inr ⟨d, by simp [earlier], rfl⟩
      · exact Or.inl rfl
      · exact Or.inr ⟨d, by simp [later], rfl⟩
    have cut := @Segment.cut _ _ _ (fun b => loadU64 mem' (b + 24)) (fun b => loadU64 mem' (b + 16))
      _ _ _ _ _ linked distinct
    rw [shape]
    apply cut
    · intro header last
      obtain rfl : kept.header = header := by simpa using last
      rw [forth, ← nextNamed]
      rfl
    · intro header head
      have here : next = header := by
        rw [← nextNamed, nextHeader, List.headD_eq_head?_getD, head]
        rfl
      obtain ⟨d, later, named⟩ := List.mem_map.mp (List.mem_of_mem_head? head)
      have facts := secondAt d later
      have nonnull : next ≠ NULL := by
        unfold NULL
        omega
      rw [← here, back nonnull]
      simp
    · intro header member last
      rcases others header member with rfl | ⟨d, listed, rfl⟩
      · simp at last
      · have facts := away d listed
        exact loaded _ (by omega) (by omega) (by omega) (by omega) (by omega)
    · intro header member head
      rcases others header member with rfl | ⟨d, listed, rfl⟩
      · exact loaded _ (by omega) (by omega) (by omega) (by omega) (by omega)
      · have facts := away d listed
        have different : d.header ≠ next := by
          intro same
          cases second with
          | nil =>
              have zero : (0 : Nat) = next := nextNamed
              omega
          | cons q rest =>
              have named : q.header = next := nextNamed
              exact head (congrArg some (named.trans same.symm))
        exact loaded _ (by omega) (by omega) (by omega) (by omega) (by omega)
  · intro d member
    simp only [Cont.merge, List.mem_append, List.mem_cons] at member
    rcases member with earlier | rfl | later
    · exact other d (by simp [earlier]) (firstIn d earlier)
    · have data := holds.data kept (by simp [split])
      refine ⟨sizeAt, ?_, ?_⟩
      · show loadU8 mem' (kept.header + 8) = _
        rw [agrees.loadU8 alignedWords ⟨by omega, by omega⟩ (by simp; omega)]
        exact data.used
      · show loadU64 mem' (kept.header + 32) = c.addr
        rw [loaded _ (by omega) (by omega) (by omega) (by omega) (by omega)]
        exact data.container
    · exact other d (by simp [later]) (secondIn d later)

/-- The header that precedes in a list of blocks, or null. -/
def prevHeader (before : List Blk) : Nat := (before.map Blk.header).getLastD NULL

theorem Cont.Holds.prev_eq {before after : List Blk} {b : Blk} (holds : c.Holds mem)
    (split : c.blks = before ++ b :: after) : loadU64 mem (b.header + 16) = prevHeader before := by
  have linked := holds.links
  rw [split, List.map_append, List.map_cons] at linked
  exact linked.links_at.2

/-- The merge with the next block leaves these values. -/
structure MergeValues (x size behind : Nat) (mem mem' : Memory) : Prop where
  agrees : Agrees [x, x + 24, behind + 16] mem mem'
  size : loadU64 mem' x = size
  forth : loadU64 mem' (x + 24) = behind
  back : behind ≠ NULL → loadU64 mem' (behind + 16) = x

/-- The places of a merge are aligned and in order. -/
structure MergePlaces (x next behind : Nat) : Prop where
  aligned : x % 8 = 0
  low : 4096 ≤ x
  alignedNext : next % 8 = 0
  order : x + 40 ≤ next
  room : next + 40 ≤ 2 ^ 64
  behind : behind ≠ NULL → next + 40 ≤ behind ∧ behind + 40 ≤ 2 ^ 64 ∧ behind % 8 = 0

/-- Merging with a free block behind adds its size and unlinks it. -/
theorem mergeNext_free {x next behind left right : Nat} (places : MergePlaces x next behind)
    (link : loadU64 mem (x + 24) = next) (free : loadU8 mem (next + 8) = 0)
    (leftAt : loadU64 mem x = left) (rightAt : loadU64 mem next = right)
    (behindAt : loadU64 mem (next + 24) = behind) (small : left + (right + 40) < 2 ^ 64) :
    MergeValues x (left + (right + 40)) behind mem (mergeNext x mem) := by
  obtain ⟨aligned, low, alignedNext, order, room, behindPlace⟩ := places
  have smallBehind : behind < 2 ^ 64 := behindAt ▸ loadU64_lt _ _
  have nonnull : next ≠ NULL := by
    unfold NULL
    omega
  have word : behind ≠ NULL → Word (behind + 16) := by
    intro nonnull
    have facts := behindPlace nonnull
    exact ⟨by omega, by omega⟩
  have away : ∀ {addr}, addr < next + 40 → behind ≠ NULL → addr ≠ behind + 16 := by
    intro addr below nonnull
    have facts := behindPlace nonnull
    omega
  have following : loadU64 (storeU64 x (left + (right + 40)) mem) (next + 24) = behind := by
    rw [loadU64_storeU64_ne aligned (by omega) (by omega) (by omega) (by omega), behindAt]
  have linked : loadU64 (storeU64 (x + 24) behind (storeU64 x (left + (right + 40)) mem)) (x + 24) = behind :=
    loadU64_storeU64 smallBehind
  have sum : u64 (left + u64 (right + sizeofBlock)) = left + (right + 40) := by
    have inner : u64 (right + sizeofBlock) = right + 40 := Nat.mod_eq_of_lt (by unfold sizeofBlock; omega)
    rw [inner]
    exact Nat.mod_eq_of_lt small
  have shape : mergeNext x mem =
      storeUnlessNull behind (behind + 16) x (storeU64 (x + 24) behind (storeU64 x (left + (right + 40)) mem)) := by
    simp only [mergeNext, blockNext, blockUsed, blockSizeInBytes, blockPrev, link, free, leftAt, rightAt, sum,
      following, linked, nonnull, ne_eq, not_false_eq_true, and_self, if_true]
    rfl
  rw [shape]
  refine ⟨?_, ?_, ?_, ?_⟩
  · refine (((Agrees.refl mem).storeU64 ⟨aligned, by omega⟩).storeU64 ⟨by omega, by omega⟩).storeUnlessNull
      word |>.mono ?_
    intro word member
    simp only [List.mem_cons, List.not_mem_nil, or_false] at member ⊢
    tauto
  · rw [loadU64_storeUnlessNull_ne word aligned (by omega) (away (by omega)),
      loadU64_storeU64_ne (by omega) (by omega) aligned (by omega) (by omega), loadU64_storeU64 small]
  · rw [loadU64_storeUnlessNull_ne word (by omega) (by omega) (away (by omega)), linked]
  · intro nonnull
    rw [storeUnlessNull, if_pos nonnull, loadU64_storeU64 (by omega)]

theorem mergeNext_kept {x next : Nat} (link : loadU64 mem (x + 24) = next)
    (taken : next = NULL ∨ loadU8 mem (next + 8) ≠ 0) : mergeNext x mem = mem := by
  have test : ¬(next ≠ NULL ∧ loadU8 mem (next + 8) = 0) := by
    tauto
  simp only [mergeNext, blockNext, blockUsed, link]
  rw [if_neg test]

theorem mergePrev_kept {b total prev : Nat} (link : loadU64 mem (b + 16) = prev)
    (taken : prev = NULL ∨ loadU8 mem (prev + 8) ≠ 0) : mergePrev b total mem = (b, mem) := by
  have test : ¬(prev ≠ NULL ∧ loadU8 mem (prev + 8) = 0) := by
    tauto
  simp only [mergePrev, blockPrev, blockUsed, link]
  rw [if_neg test]

/-- Merging with a free block in front adds the size to it and links it over the block. -/
theorem mergePrev_free {b total prev next left : Nat} (link : loadU64 mem (b + 16) = prev)
    (nonnull : prev ≠ NULL) (free : loadU8 mem (prev + 8) = 0) (leftAt : loadU64 mem prev = left)
    (nextAt : loadU64 mem (b + 24) = next) (aligned : prev % 8 = 0) (alignedB : b % 8 = 0)
    (order : prev + 40 ≤ b) (room : b + 40 ≤ 2 ^ 64) (small : left + total < 2 ^ 64) :
    ∃ mem', mergePrev b total mem = (prev, mem') ∧ Agrees [prev, prev + 24] mem mem' ∧
      loadU64 mem' prev = left + total ∧ loadU64 mem' (prev + 24) = next := by
  have smallNext : next < 2 ^ 64 := nextAt ▸ loadU64_lt _ _
  have sizeLoad : loadU64 (storeU64 (prev + 24) next mem) prev = left := by
    rw [loadU64_storeU64_ne (by omega) (by omega) aligned (by omega) (by omega), leftAt]
  have nextLoad : loadU64 (storeU64 prev (left + total) (storeU64 (prev + 24) next mem)) (b + 24) = next := by
    rw [loadU64_storeU64_ne aligned (by omega) (by omega) (by omega) (by omega),
      loadU64_storeU64_ne (by omega) (by omega) (by omega) (by omega) (by omega), nextAt]
  have sum : u64 (left + total) = left + total := Nat.mod_eq_of_lt small
  refine ⟨storeU64 (prev + 24) next (storeU64 prev (left + total) (storeU64 (prev + 24) next mem)), ?_, ?_, ?_, ?_⟩
  · simp only [mergePrev, blockNext, blockUsed, blockSizeInBytes, blockPrev, link, free, nextAt, sizeLoad, sum,
      nextLoad, nonnull, ne_eq, not_false_eq_true, and_self, if_true]
  · refine (((Agrees.refl mem).storeU64 ⟨by omega, by omega⟩).storeU64 ⟨aligned, by omega⟩).storeU64
      ⟨by omega, by omega⟩ |>.mono ?_
    intro word member
    simp only [List.mem_cons, List.not_mem_nil, or_false] at member ⊢
    tauto
  · rw [loadU64_storeU64_ne (by omega) (by omega) aligned (by omega) (by omega), loadU64_storeU64 small]
  · exact loadU64_storeU64 smallNext

/-- A word in the header of one block lies outside the payloads of all blocks. -/
theorem Cont.Fits.header_word (fits : c.Fits) {k d : Blk} (listed : k ∈ c.blks) (listed' : d ∈ c.blks)
    {word : Nat} (low : k.header ≤ word) (high : word + 8 ≤ k.header + 40) :
    word + 8 ≤ d.header + 40 ∨ d.stop ≤ word := by
  obtain ⟨before, after, split⟩ := List.append_of_mem listed
  have around := fits.around split
  rw [split, List.mem_append, List.mem_cons] at listed'
  rcases listed' with earlier | rfl | later
  · have facts := around.before d earlier
    omega
  · omega
  · have facts := around.after d later
    unfold Blk.stop at facts
    omega

/-- Growing a block over the blocks behind it touches only the container. -/
theorem Cont.Fits.merge_touches (fits : c.Fits) (listed : kept ∈ c.blks) (sub : ∀ d ∈ second, d ∈ c.blks)
    {mem' : Memory} (agrees : Agrees [kept.header, kept.header + 24, nextHeader second + 16] mem mem') :
    c.Touches mem mem' := by
  have place := fits.inside kept listed
  unfold Blk.stop at place
  apply fits.touches agrees
  intro word member
  simp only [List.mem_cons, List.not_mem_nil, or_false] at member
  rcases nextHeader_cases second with null | ⟨q, inside, named⟩
  · unfold NULL at null
    by_cases zero : word = nextHeader second + 16
    · left
      omega
    · right
      refine ⟨by omega, by omega, by omega, ?_⟩
      intro d member' used
      exact fits.header_word listed member' (by omega) (by omega)
  · have placeQ := fits.inside q (sub q inside)
    unfold Blk.stop at placeQ
    right
    refine ⟨by omega, by omega, by omega, ?_⟩
    intro d member' used
    by_cases back : word = nextHeader second + 16
    · exact fits.header_word (sub q inside) member' (by omega) (by omega)
    · exact fits.header_word listed member' (by omega) (by omega)

/-- A released block is absorbed by a free block in front of it. -/
def mergedLeft (before : List Blk) (b : Blk) : List Blk × Blk :=
  match before.getLast? with
  | some p => if p.used then (before, b) else (before.dropLast, { p with size := p.size + (b.size + 40) })
  | none => (before, b)

/-- A released block absorbs a free block behind it. -/
def mergedRight (b : Blk) : List Blk → Blk × List Blk
  | [] => (b, [])
  | q :: rest => if q.used then (b, q :: rest) else ({ b with size := b.size + (q.size + 40) }, rest)

/-- The list after a marked block is released. -/
def Cont.release (c : Cont) (before : List Blk) (b : Blk) (after : List Blk) : Cont :=
  let (first, b) := mergedLeft before b
  let (b, second) := mergedRight b after
  { c with blks := first ++ b :: second }

/-- The code of `kfree` behind the test of the last block. -/
def freeBlock (b total : Nat) (mem : Memory) : Memory :=
  mergeNext (mergePrev b total mem).1 (mergePrev b total mem).2

/-- The block in front is free and the one behind is used, so its `prev` link becomes stale. -/
def LeavesStale (before after : List Blk) : Prop :=
  ∃ bs p q as, before = bs ++ [p] ∧ p.used = false ∧ after = q :: as ∧ q.used = true

section
variable {before after : List Blk} {b : Blk}

theorem Blk.Holds.used_iff {container : Nat} (data : b.Holds container mem) :
    loadU8 mem (b.header + 8) = 0 ↔ b.used = false := by
  rw [data.used]
  cases b.used <;> simp

/-- A block that is not merged to the left stays where it is. -/
theorem mergePrev_used {total : Nat} (holds : c.Holds mem) (split : c.blks = before ++ b :: after)
    (taken : ∀ p, before.getLast? = some p → p.used = true) : mergePrev b.header total mem = (b.header, mem) := by
  apply mergePrev_kept (holds.prev_eq split)
  rcases before.eq_nil_or_concat' with rfl | ⟨bs, p, rfl⟩
  · exact Or.inl rfl
  · right
    have used := taken p (by simp)
    have data := holds.data p (by simp [split])
    have named : prevHeader (bs ++ [p]) = p.header := by simp [prevHeader]
    rw [named, data.used_iff.ne, used]
    simp

/-- A block that is not merged to the right keeps its size and its link. -/
theorem mergeNext_used (holds : c.Holds mem) (split : c.blks = before ++ b :: after)
    (taken : ∀ q, after.head? = some q → q.used = true) : mergeNext b.header mem = mem := by
  apply mergeNext_kept (holds.next_eq split)
  cases after with
  | nil => exact Or.inl rfl
  | cons q rest =>
      right
      have used := taken q rfl
      have data := holds.data q (by simp [split])
      have named : nextHeader (q :: rest) = q.header := rfl
      rw [named, data.used_iff.ne, used]
      simp

/-- The released container fits and is in memory, and nothing else was touched. -/
structure Cont.Becomes (c c' : Cont) (mem mem' : Memory) : Prop where
  fits : c'.Fits
  holds : c'.Holds mem'
  touches : c.Touches mem mem'

/-- The values of a merge put the merged list into memory. -/
theorem Cont.Holds.becomes (holds : c.Holds mem) (fits : c.Fits)
    (split : c.blks = first ++ kept :: (gone ++ second)) (unused : ∀ d ∈ gone, d.used = false)
    (inside : kept.header + 40 + size ≤ c.stop) (below : ∀ d ∈ second, kept.header + 40 + size ≤ d.header)
    {mem' : Memory} (values : MergeValues kept.header size (nextHeader second) mem mem') :
    c.Becomes (c.merge first kept second size) mem mem' where
  fits := fits.merge split inside below
  holds := holds.merge fits split unused values.agrees values.size values.forth values.back
  touches := fits.merge_touches (by simp [split]) (fun d member => by simp [split, member]) values.agrees

/-- The places of a merge with the next block follow from the list. -/
theorem Cont.Fits.mergePlaces {x : Nat} {q : Blk} {rest : List Blk} (fits : c.Fits)
    (split : c.blks = before ++ q :: rest) (aligned : x % 8 = 0) (low : 4096 ≤ x) (order : x + 40 ≤ q.header) :
    MergePlaces x q.header (nextHeader rest) := by
  have around := fits.around split
  have place := around.aligned
  have high := around.high
  have bounded := fits.bounded
  obtain ⟨nextAt, -⟩ := fits.next_header split
  unfold Blk.stop at high nextAt
  refine ⟨aligned, low, by omega, order, by omega, ?_⟩
  intro nonnull
  have nonzero : nextHeader rest ≠ 0 := nonnull
  omega

theorem Cont.eta (split : c.blks = before ++ b :: after) : { c with blks := before ++ b :: after } = c := by
  rw [← split]

/-- Without a merge to the left, the block absorbs a free block behind it. -/
theorem release_right (holds : c.Holds mem) (fits : c.Fits) (split : c.blks = before ++ b :: after)
    (taken : ∀ p, before.getLast? = some p → p.used = true) :
    c.Becomes (c.release before b after) mem (freeBlock b.header (b.size + 40) mem) := by
  have kept := @mergePrev_used c mem before after b (b.size + 40) holds split taken
  have left : mergedLeft before b = (before, b) := by
    unfold mergedLeft
    cases last : before.getLast? with
    | none => rfl
    | some p => simp [taken p last]
  have same : c.Touches mem mem := ⟨fun _ _ _ _ => rfl, fun _ _ _ => rfl, fun _ _ _ _ _ _ => rfl⟩
  rw [freeBlock, kept]
  unfold Cont.release
  rw [left]
  cases after with
  | nil =>
      have stays : mergeNext b.header mem = mem := mergeNext_used holds split (by simp)
      dsimp only [mergedRight]
      rw [stays, Cont.eta split]
      exact ⟨fits, holds, same⟩
  | cons q rest =>
      dsimp only [mergedRight]
      by_cases used : q.used = true
      · have stays : mergeNext b.header mem = mem := mergeNext_used holds split (by simp [used])
        rw [stays, if_pos used]
        dsimp only
        rw [Cont.eta split]
        exact ⟨fits, holds, same⟩
      · have unused : q.used = false := by simpa using used
        have split' : c.blks = (before ++ [b]) ++ q :: rest := by simp [split]
        have around := fits.around split
        have order := around.after q (by simp)
        have aroundQ := fits.around split'
        have nonnull : c.addr ≠ 0 := fits.nonnull
        have page := fits.aligned
        have bounded := fits.bounded
        have place := around.aligned
        have low := around.low
        have dataB := holds.data b (by simp [split])
        have dataQ := holds.data q (by simp [split])
        have highQ := aroundQ.high
        have behindQ := aroundQ.after
        unfold Blk.stop at order highQ behindQ
        have places := @Cont.Fits.mergePlaces c _ b.header q rest fits split' (by omega) (by omega) (by omega)
        have values := mergeNext_free places (holds.next_eq split) (dataQ.used_iff.mpr unused) dataB.size dataQ.size
          (holds.next_eq split') (by omega)
        rw [if_neg used]
        refine @Cont.Holds.becomes c mem before [q] rest b _ holds fits split (by simp [unused]) ?_ ?_ _ values
        · omega
        · intro d member
          have facts := behindQ d member
          omega

/-- A free block in front absorbs the block, and then a free block behind it. -/
theorem release_left {bs : List Blk} {p : Blk} (holds : c.Holds mem) (fits : c.Fits)
    (split : c.blks = (bs ++ [p]) ++ b :: after) (unusedP : p.used = false) (unusedB : b.used = false)
    (free : ∀ q, after.head? = some q → q.used = false) :
    c.Becomes (c.release (bs ++ [p]) b after) mem (freeBlock b.header (b.size + 40) mem) := by
  have split' : c.blks = bs ++ p :: (b :: after) := by simp [split]
  have around := fits.around split
  have aroundP := fits.around split'
  have nonnull : c.addr ≠ 0 := fits.nonnull
  have page := fits.aligned
  have bounded := fits.bounded
  have placeB := around.aligned
  have placeP := aroundP.aligned
  have lowP := aroundP.low
  have highB := around.high
  have order := aroundP.after b (by simp)
  have behindB := around.after
  have dataP := holds.data p (by simp [split])
  have dataB := holds.data b (by simp [split])
  have linkB := holds.prev_eq split
  have named : prevHeader (bs ++ [p]) = p.header := by simp [prevHeader]
  have nonnullP : p.header ≠ NULL := by
    unfold NULL
    omega
  rw [named] at linkB
  unfold Blk.stop at highB order behindB
  obtain ⟨mem2, merged, agrees, sizeP, nextP⟩ := @mergePrev_free mem b.header (b.size + 40) p.header
    (nextHeader after) p.size linkB nonnullP (dataP.used_iff.mpr unusedP) dataP.size (holds.next_eq split)
    (by omega) (by omega) (by omega) (by omega) (by omega)
  have left : mergedLeft (bs ++ [p]) b = (bs, { p with size := p.size + (b.size + 40) }) := by
    simp [mergedLeft, unusedP]
  have aligned : ∀ word ∈ [p.header, p.header + 24], word % 8 = 0 := by
    intro word member
    simp only [List.mem_cons, List.not_mem_nil, or_false] at member
    omega
  rw [freeBlock, merged]
  unfold Cont.release
  rw [left]
  cases after with
  | nil =>
      have stays : mergeNext p.header mem2 = mem2 := mergeNext_kept nextP (Or.inl rfl)
      dsimp only [mergedRight]
      rw [stays]
      have values : MergeValues p.header (p.size + (b.size + 40)) (nextHeader []) mem mem2 := by
        refine ⟨agrees.mono ?_, sizeP, nextP, fun bad => absurd rfl bad⟩
        intro word member
        simp only [List.mem_cons, List.not_mem_nil, or_false] at member ⊢
        tauto
      refine @Cont.Holds.becomes c mem bs [b] [] p _ holds fits split' (by simp [unusedB]) ?_ ?_ _ values
      · omega
      · simp
  | cons q rest =>
      have unusedQ := free q rfl
      have split'' : c.blks = (bs ++ [p] ++ [b]) ++ q :: rest := by simp [split]
      have aroundQ := fits.around split''
      have placeQ := aroundQ.aligned
      have highQ := aroundQ.high
      have behindQ := aroundQ.after
      have orderQ := behindB q (by simp)
      have dataQ := holds.data q (by simp [split])
      unfold Blk.stop at highQ behindQ
      have apart : ∀ offset ≤ 24, q.header + offset ∉ [p.header, p.header + 24] := by
        intro offset small
        simp only [List.mem_cons, List.not_mem_nil, or_false, not_or]
        omega
      have usedQ : loadU8 mem2 (q.header + 8) = 0 := by
        rw [agrees.loadU8 aligned ⟨by omega, by omega⟩ (apart 8 (by omega))]
        exact dataQ.used_iff.mpr unusedQ
      have sizeQ : loadU64 mem2 q.header = q.size := by
        have here : q.header ∉ [p.header, p.header + 24] := apart 0 (by omega)
        rw [agrees.loadU64 aligned ⟨by omega, by omega⟩ here]
        exact dataQ.size
      have nextQ : loadU64 mem2 (q.header + 24) = nextHeader rest := by
        rw [agrees.loadU64 aligned ⟨by omega, by omega⟩ (apart 24 (by omega))]
        exact holds.next_eq split''
      have places := @Cont.Fits.mergePlaces c _ p.header q rest fits split'' (by omega) (by omega) (by omega)
      have second := mergeNext_free places nextP usedQ sizeP sizeQ nextQ (by omega)
      have values : MergeValues p.header (p.size + (b.size + 40) + (q.size + 40)) (nextHeader rest) mem
          (mergeNext p.header mem2) := by
        refine ⟨(agrees.trans second.agrees).mono ?_, second.size, second.forth, second.back⟩
        intro word member
        simp only [List.mem_append, List.mem_cons, List.not_mem_nil, or_false] at member ⊢
        tauto
      dsimp only [mergedRight]
      rw [unusedQ]
      refine @Cont.Holds.becomes c mem bs [b, q] rest p _ holds fits split' (by simp [unusedB, unusedQ]) ?_ ?_ _ values
      · omega
      · intro d member
        have facts := behindQ d member
        omega

/-- Outside the stale case, releasing a marked block does to memory what it does to the list. -/
theorem Cont.Holds.release (holds : c.Holds mem) (fits : c.Fits) (split : c.blks = before ++ b :: after)
    (unused : b.used = false) (safe : ¬LeavesStale before after) :
    c.Becomes (c.release before b after) mem (freeBlock b.header (b.size + 40) mem) := by
  rcases before.eq_nil_or_concat' with rfl | ⟨bs, p, rfl⟩
  · exact release_right holds fits split (by simp)
  · by_cases used : p.used = true
    · exact release_right holds fits split (by simp [used])
    · have unusedP : p.used = false := by simpa using used
      apply release_left holds fits split unusedP unused
      intro q head
      by_contra usedQ
      apply safe
      cases after with
      | nil => cases head
      | cons first rest =>
          obtain rfl : first = q := by simpa using head
          exact ⟨bs, p, first, rest, rfl, unusedP, rfl, by simpa using usedQ⟩

end

end

end B0s
