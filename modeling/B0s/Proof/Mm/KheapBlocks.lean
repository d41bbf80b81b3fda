import B0s.Library.DoublyLinked
import B0s.Proof.Machine
import B0s.Proof.Mm.KheapMemory

/-
This file relates the headers of one container to a list of blocks, and proves what taking a block
and releasing a block do to the list.
-/

namespace B0s
open ByteMemory DoublyLinked

/-- A block has a header, a number of bytes behind it, and a mark. -/
structure Blk where
  header : Nat
  size : Nat
  used : Bool
  deriving DecidableEq, Repr

def Blk.stop (b : Blk) : Nat := b.header + 40 + b.size

/-- A container is a range of pages with blocks in it. -/
structure Cont where
  addr : Nat
  pages : Nat
  blks : List Blk

def Cont.stop (c : Cont) : Nat := c.addr + c.pages * 4096

def Cont.usedCount (c : Cont) : Nat := (c.blks.filter Blk.used).length

/-- The blocks lie in the container one behind the other, and their data is aligned. -/
structure Cont.Fits (c : Cont) : Prop where
  aligned : c.addr % 4096 = 0
  nonnull : c.addr ≠ NULL
  bounded : c.stop < 2 ^ 64
  first : c.blks.head?.map Blk.header = some (c.addr + 40)
  order : c.blks.Pairwise fun b b' => b.stop ≤ b'.header
  inside : ∀ b ∈ c.blks, c.addr + 40 ≤ b.header ∧ b.stop ≤ c.stop ∧ b.header % 16 = 8

/-- The header of a block is in memory. -/
structure Blk.Holds (b : Blk) (container : Nat) (mem : Memory) : Prop where
  size : loadU64 mem b.header = b.size
  used : loadU8 mem (b.header + 8) = if b.used then 1 else 0
  container : loadU64 mem (b.header + 32) = container

/-- The headers of a container and of its blocks are in memory. -/
structure Cont.Holds (c : Cont) (mem : Memory) : Prop where
  size : loadU64 mem c.addr + 40 = c.pages * 4096
  used : loadU64 mem (c.addr + 8) = c.usedCount
  block : loadU64 mem (c.addr + 32) = c.addr + 40
  links : Segment (fun b => loadU64 mem (b + 24)) (fun b => loadU64 mem (b + 16)) NULL
    (c.blks.map Blk.header) NULL
  data : ∀ b ∈ c.blks, b.Holds c.addr mem

/-- The blocks on both sides of a block of a container. -/
structure Cont.Around (c : Cont) (before : List Blk) (b : Blk) (after : List Blk) : Prop where
  low : c.addr + 40 ≤ b.header
  high : b.stop ≤ c.stop
  aligned : b.header % 16 = 8
  before : ∀ d ∈ before, c.addr + 40 ≤ d.header ∧ d.stop ≤ b.header ∧ d.header % 16 = 8
  after : ∀ d ∈ after, b.stop ≤ d.header ∧ d.stop ≤ c.stop ∧ d.header % 16 = 8

theorem Cont.Fits.around {c : Cont} (fits : c.Fits) {before after : List Blk} {b : Blk}
    (split : c.blks = before ++ b :: after) : c.Around before b after := by
  have inside := fits.inside
  have order := fits.order
  rw [split] at inside order
  rw [List.pairwise_append, List.pairwise_cons] at order
  have here := inside b (by simp)
  refine ⟨here.1, here.2.1, here.2.2, ?_, ?_⟩
  · intro d member
    have there := inside d (by simp [member])
    exact ⟨there.1, order.2.2 d member b (by simp), there.2.2⟩
  · intro d member
    have there := inside d (by simp [member])
    exact ⟨order.2.1.1 d member, there.2.1, there.2.2⟩

theorem Cont.Fits.distinct {c : Cont} (fits : c.Fits) : (c.blks.map Blk.header).Nodup := by
  rw [List.Nodup, List.pairwise_map]
  apply fits.order.imp
  intro b b' before
  unfold Blk.stop at before
  omega

/-- The words of the headers that a container and its blocks read. -/
def Cont.words (c : Cont) : List Nat :=
  [c.addr, c.addr + 8, c.addr + 32] ++
    c.blks.flatMap fun b => [b.header, b.header + 8, b.header + 16, b.header + 24, b.header + 32]

theorem Cont.mem_words {c : Cont} {word : Nat} :
    word ∈ c.words ↔ (word = c.addr ∨ word = c.addr + 8 ∨ word = c.addr + 32) ∨
      ∃ b ∈ c.blks, word = b.header ∨ word = b.header + 8 ∨ word = b.header + 16 ∨
        word = b.header + 24 ∨ word = b.header + 32 := by
  simp [Cont.words, or_assoc]

theorem Cont.Fits.first_block {c : Cont} (fits : c.Fits) : ∃ b ∈ c.blks, b.header = c.addr + 40 := by
  have first := fits.first
  cases blks : c.blks with
  | nil =>
      rw [blks] at first
      cases first
  | cons b rest =>
      rw [blks] at first
      exact ⟨b, List.mem_cons_self, Option.some.inj first⟩

/-- The words of the headers are aligned and lie in the container. -/
theorem Cont.Fits.word {c : Cont} (fits : c.Fits) {word : Nat} (listed : word ∈ c.words) :
    c.addr ≤ word ∧ word + 8 ≤ c.stop ∧ word % 8 = 0 := by
  have page := fits.aligned
  obtain ⟨first, member, start⟩ := fits.first_block
  have facts := fits.inside first member
  unfold Blk.stop at facts
  rcases Cont.mem_words.mp listed with own | ⟨b, member, own⟩
  · omega
  · have facts := fits.inside b member
    unfold Blk.stop at facts
    omega

/-- The container reads only the words of its headers. -/
theorem Cont.Holds.transport {c : Cont} {mem mem' : Memory} (holds : c.Holds mem) (fits : c.Fits)
    (same : ∀ word ∈ c.words, ∀ offset < 8, mem' (word + offset) = mem (word + offset)) :
    c.Holds mem' := by
  have bounded := fits.bounded
  have word : ∀ addr ∈ c.words, loadU64 mem' addr = loadU64 mem addr := by
    intro addr listed
    have facts := fits.word listed
    have equal : loadWord mem' addr = loadWord mem addr := by
      apply loadWord_congr
      intro offset small
      have inside : (addr + offset) % 2 ^ 64 = addr + offset := Nat.mod_eq_of_lt (by omega)
      rw [byteAt, byteAt, inside]
      exact same addr listed offset small
    rw [loadU64, loadU64, equal]
  have byte : ∀ addr ∈ c.words, loadU8 mem' addr = loadU8 mem addr := by
    intro addr listed
    have facts := fits.word listed
    have inside : u64 addr = addr := Nat.mod_eq_of_lt (by omega)
    have equal := same addr listed 0 (by decide)
    rw [loadU8, loadU8, inside]
    exact congrArg BitVec.toNat equal
  refine ⟨?_, ?_, ?_, ?_, ?_⟩
  · rw [word _ (by simp [Cont.words])]
    exact holds.size
  · rw [word _ (by simp [Cont.words])]
    exact holds.used
  · rw [word _ (by simp [Cont.words])]
    exact holds.block
  · apply holds.links.transport
    intro node member
    obtain ⟨b, listed, rfl⟩ := List.mem_map.mp member
    exact ⟨word _ (Cont.mem_words.mpr (Or.inr ⟨b, listed, by simp⟩)),
      word _ (Cont.mem_words.mpr (Or.inr ⟨b, listed, by simp⟩))⟩
  · intro b listed
    have data := holds.data b listed
    refine ⟨?_, ?_, ?_⟩
    · rw [word _ (Cont.mem_words.mpr (Or.inr ⟨b, listed, by simp⟩))]
      exact data.size
    · rw [byte _ (Cont.mem_words.mpr (Or.inr ⟨b, listed, by simp⟩))]
      exact data.used
    · rw [word _ (Cont.mem_words.mpr (Or.inr ⟨b, listed, by simp⟩))]
      exact data.container

/-- The blocks of a list need room for their headers. -/
theorem blocks_length {blks : List Blk} {low high : Nat}
    (order : blks.Pairwise fun b b' => b.stop ≤ b'.header)
    (inside : ∀ b ∈ blks, low ≤ b.header ∧ b.stop ≤ high) (room : low ≤ high) :
    low + 40 * blks.length ≤ high := by
  induction blks generalizing low with
  | nil => simpa using room
  | cons b rest ih =>
      rw [List.pairwise_cons] at order
      have here := inside b (by simp)
      have later := ih order.2 (fun d member => ⟨order.1 d member, (inside d (by simp [member])).2⟩)
        here.2
      unfold Blk.stop at here later
      rw [List.length_cons]
      omega

theorem Cont.Fits.length_lt {c : Cont} (fits : c.Fits) : 40 * c.blks.length < 2 ^ 64 := by
  have bounded := fits.bounded
  obtain ⟨first, member, start⟩ := fits.first_block
  have facts := fits.inside first member
  unfold Blk.stop at facts
  have room := blocks_length fits.order
    (fun b member => ⟨(fits.inside b member).1, (fits.inside b member).2.1⟩) (by omega)
  omega

/-- The header behind a request of so many bytes ends at the second alignment boundary or before. -/
theorem roundUp_sixteen {number : Nat} (room : number + 16 < 2 ^ 64) :
    roundUp number kheapAlignInBytes = (number + 16) / 16 * 16 := by
  have masked := WordBits.and_high_mask (by decide : 4 ≤ 64) room
  have reduced : u64 (number + kheapAlignInBytes) = number + 16 := Nat.mod_eq_of_lt room
  rw [roundUp, reduced]
  exact masked

/-- Every header word is loaded as before when it is none of the changed words. -/
theorem Blk.Holds.agrees {d : Blk} {container : Nat} {mem mem' : Memory} {words : List Nat}
    (holds : d.Holds container mem) (agrees : Agrees words mem mem')
    (aligned : ∀ word ∈ words, word % 8 = 0) (place : d.header % 8 = 0)
    (room : d.header + 40 ≤ 2 ^ 64) (size : d.header ∉ words) (used : d.header + 8 ∉ words)
    (owner : d.header + 32 ∉ words) : d.Holds container mem' := by
  refine ⟨?_, ?_, ?_⟩
  · rw [agrees.loadU64 aligned ⟨place, by omega⟩ size]
    exact holds.size
  · rw [agrees.loadU8 aligned ⟨by omega, by omega⟩ used]
    exact holds.used
  · rw [agrees.loadU64 aligned ⟨by omega, by omega⟩ owner]
    exact holds.container

/-- The memory changes only inside the container, and neither the links of the container nor the
payload of a used block. -/
structure Cont.Touches (c : Cont) (mem mem' : Memory) : Prop where
  outside : ∀ addr, 4096 ≤ addr → addr < 2 ^ 64 → addr < c.addr ∨ c.stop ≤ addr → mem' addr = mem addr
  links : ∀ addr, c.addr + 16 ≤ addr → addr < c.addr + 32 → mem' addr = mem addr
  payload : ∀ d ∈ c.blks, d.used = true → ∀ addr, d.header + 40 ≤ addr → addr < d.stop → mem' addr = mem addr

/-- Changed words in the headers and the free blocks of a container touch only the container. -/
theorem Cont.Fits.touches {c : Cont} (fits : c.Fits) {mem mem' : Memory} {words : List Nat}
    (agrees : Agrees words mem mem')
    (inside : ∀ word ∈ words, word + 8 ≤ 4096 ∨ c.addr ≤ word ∧ word + 8 ≤ c.stop ∧
      (word + 8 ≤ c.addr + 16 ∨ c.addr + 32 ≤ word) ∧
      ∀ d ∈ c.blks, d.used = true → word + 8 ≤ d.header + 40 ∨ d.stop ≤ word) :
    c.Touches mem mem' := by
  have bounded := fits.bounded
  have page := fits.aligned
  have start : 4096 ≤ c.addr := by
    have nonnull : c.addr ≠ 0 := fits.nonnull
    omega
  obtain ⟨first, listed, head⟩ := fits.first_block
  have room := fits.inside first listed
  unfold Blk.stop at room
  refine ⟨?_, ?_, ?_⟩
  · intro addr low small apart
    apply agrees addr small
    intro word member
    rcases inside word member with null | ⟨above, below, -, -⟩
    · omega
    · omega
  · intro addr low high
    apply agrees addr (by omega)
    intro word member
    rcases inside word member with null | ⟨-, -, apart, -⟩
    · omega
    · omega
  · intro d member used addr low high
    have place := fits.inside d member
    apply agrees addr (by omega)
    intro word changed
    rcases inside word changed with null | ⟨-, -, -, apart⟩
    · omega
    · have away := apart d member used
      omega

/-- The list with one block marked. -/
def Cont.mark (c : Cont) (before : List Blk) (b : Blk) (after : List Blk) (used : Bool) : Cont :=
  { c with blks := before ++ { b with used := used } :: after }

section
variable {c : Cont} {mem : Memory} {before after : List Blk} {b : Blk}

theorem Cont.Fits.mark (fits : c.Fits) (split : c.blks = before ++ b :: after) (used : Bool) :
    (c.mark before b after used).Fits := by
  have first := fits.first
  have order := fits.order
  have inside := fits.inside
  rw [split] at first order inside
  refine ⟨fits.aligned, fits.nonnull, fits.bounded, ?_, ?_, ?_⟩
  · cases before with
    | nil => exact first
    | cons head rest => exact first
  · simp only [Cont.mark]
    rw [List.pairwise_append, List.pairwise_cons] at order ⊢
    refine ⟨order.1, ⟨order.2.1.1, order.2.1.2⟩, ?_⟩
    intro d member d' member'
    rcases List.mem_cons.mp member' with rfl | later
    · exact order.2.2 d member b (by simp)
    · exact order.2.2 d member d' (by simp [later])
  · intro d member
    simp only [Cont.mark, List.mem_append, List.mem_cons] at member
    rcases member with earlier | rfl | later
    · exact inside d (by simp [earlier])
    · exact inside b (by simp)
    · exact inside d (by simp [later])

/-- Storing the mark of a block and the new count marks the block in the list. -/
theorem Cont.Holds.mark (holds : c.Holds mem) (fits : c.Fits) (split : c.blks = before ++ b :: after)
    (used : Bool) {count : Nat} (counted : count = (c.mark before b after used).usedCount)
    (small : count < 2 ^ 64) :
    (c.mark before b after used).Holds
      (storeU64 (c.addr + 8) count (storeU8 (b.header + 8) (if used then 1 else 0) mem)) := by
  have around := fits.around split
  have page := fits.aligned
  have bounded := fits.bounded
  have low := around.low
  have high := around.high
  have place := around.aligned
  have beforeAt := around.before
  have afterAt := around.after
  unfold Blk.stop at high beforeAt afterAt
  have agrees : Agrees [c.addr + 8, b.header + 8] mem
      (storeU64 (c.addr + 8) count (storeU8 (b.header + 8) (if used then 1 else 0) mem)) :=
    ((Agrees.refl mem).storeU8 ⟨by omega, by omega⟩).storeU64 ⟨by omega, by omega⟩
  have aligned : ∀ word ∈ [c.addr + 8, b.header + 8], word % 8 = 0 := by
    intro word member
    simp only [List.mem_cons, List.not_mem_nil, or_false] at member
    omega
  have kept : ∀ addr, addr % 8 = 0 → addr + 8 ≤ 2 ^ 64 → addr ≠ c.addr + 8 → addr ≠ b.header + 8 →
      loadU64 (storeU64 (c.addr + 8) count (storeU8 (b.header + 8) (if used then 1 else 0) mem)) addr =
        loadU64 mem addr := by
    intro addr place room notCount notMark
    exact agrees.loadU64 aligned ⟨place, room⟩ (by simp [notCount, notMark])
  have headers : ∀ d ∈ c.blks, c.addr + 40 ≤ d.header ∧ d.header + 40 < 2 ^ 64 ∧ d.header % 8 = 0 ∧
      (d = b ∨ d.header + 40 ≤ b.header ∨ b.header + 40 ≤ d.header) := by
    intro d member
    rw [split] at member
    rcases List.mem_append.mp member with earlier | rest
    · have facts := beforeAt d earlier
      refine ⟨by omega, by omega, by omega, by omega⟩
    · rcases List.mem_cons.mp rest with rfl | later
      · exact ⟨by omega, by omega, by omega, Or.inl rfl⟩
      · have facts := afterAt d later
        refine ⟨by omega, by omega, by omega, by omega⟩
  have names : (c.mark before b after used).blks.map Blk.header = c.blks.map Blk.header := by
    simp [Cont.mark, split]
  refine ⟨?_, ?_, ?_, ?_, ?_⟩
  · show loadU64 _ c.addr + 40 = c.pages * 4096
    rw [kept _ (by omega) (by omega) (by omega) (by omega)]
    exact holds.size
  · rw [← counted]
    exact loadU64_storeU64 small
  · show loadU64 _ (c.addr + 32) = c.addr + 40
    rw [kept _ (by omega) (by omega) (by omega) (by omega)]
    exact holds.block
  · rw [names]
    apply holds.links.transport
    intro node member
    obtain ⟨d, listed, rfl⟩ := List.mem_map.mp member
    have facts := headers d listed
    have away : d.header + 24 ≠ b.header + 8 ∧ d.header + 16 ≠ b.header + 8 := by
      rcases facts.2.2.2 with rfl | apart
      · omega
      · omega
    exact ⟨kept _ (by omega) (by omega) (by omega) away.1, kept _ (by omega) (by omega) (by omega) away.2⟩
  · intro d member
    have other : ∀ d ∈ c.blks, d.header ≠ b.header → d.Holds c.addr
        (storeU64 (c.addr + 8) count (storeU8 (b.header + 8) (if used then 1 else 0) mem)) := by
      intro d listed different
      have facts := headers d listed
      have apart : d.header + 40 ≤ b.header ∨ b.header + 40 ≤ d.header := by
        rcases facts.2.2.2 with rfl | apart
        · exact absurd rfl different
        · exact apart
      refine (holds.data d listed).agrees agrees aligned facts.2.2.1 (by omega) ?_ ?_ ?_
      · simp only [List.mem_cons, List.not_mem_nil, or_false, not_or]
        omega
      · simp only [List.mem_cons, List.not_mem_nil, or_false, not_or]
        omega
      · simp only [List.mem_cons, List.not_mem_nil, or_false, not_or]
        omega
    simp only [Cont.mark, List.mem_append, List.mem_cons] at member
    rcases member with earlier | rfl | later
    · have facts := beforeAt d earlier
      exact other d (by simp [split, earlier]) (by omega)
    · have data := holds.data b (by simp [split])
      refine ⟨?_, ?_, ?_⟩
      · show loadU64 _ b.header = b.size
        rw [kept _ (by omega) (by omega) (by omega) (by omega)]
        exact data.size
      · show loadU8 _ (b.header + 8) = if used then 1 else 0
        rw [loadU8_storeU64_ne (by omega) (by omega) (by omega) (by omega) (by omega)]
        apply loadU8_storeU8
        split_ifs <;> decide
      · show loadU64 _ (b.header + 32) = c.addr
        rw [kept _ (by omega) (by omega) (by omega) (by omega)]
        exact data.container
    · have facts := afterAt d later
      exact other d (by simp [split, later]) (by omega)

/-- The stores that split a block. -/
def splitBlock (b n new rest next container : Nat) (mem : Memory) : Memory :=
  storeU64 b n (storeUnlessNull next (next + 16) new (storeU64 (b + 24) new
    (storeU64 (new + 32) container (storeU8 (new + 8) 0 (storeU64 (new + 24) next
      (storeU64 (new + 16) b (storeU64 new rest mem)))))))

/-- The headers of a split are aligned and apart. -/
structure SplitPlaces (b new next : Nat) : Prop where
  aligned : b % 8 = 0
  alignedNew : new % 8 = 0
  behind : b + 40 ≤ new
  room : new + 40 < 2 ^ 64
  next : next ≠ NULL → new + 40 ≤ next ∧ next + 40 < 2 ^ 64 ∧ next % 8 = 0

/-- The words that a split changes. -/
def splitWords (b new next : Nat) : List Nat :=
  [b, next + 16, b + 24, new + 32, new + 8, new + 24, new + 16, new]

/-- The values that a split leaves in its words. -/
structure SplitValues (b n new rest next container : Nat) (mem mem' : Memory) : Prop where
  agrees : Agrees (splitWords b new next) mem mem'
  size : loadU64 mem' b = n
  forth : loadU64 mem' (b + 24) = new
  newSize : loadU64 mem' new = rest
  newUsed : loadU8 mem' (new + 8) = 0
  newPrev : loadU64 mem' (new + 16) = b
  newNext : loadU64 mem' (new + 24) = next
  newContainer : loadU64 mem' (new + 32) = container
  back : next ≠ NULL → loadU64 mem' (next + 16) = new

theorem splitBlock_values {b n new rest next container : Nat} (mem : Memory)
    (places : SplitPlaces b new next) (small : n < 2 ^ 64) (smallRest : rest < 2 ^ 64)
    (smallNext : next < 2 ^ 64) (smallContainer : container < 2 ^ 64) :
    SplitValues b n new rest next container mem (splitBlock b n new rest next container mem) := by
  obtain ⟨aligned, alignedNew, behind, room, nextAt⟩ := places
  have word : next ≠ NULL → Word (next + 16) := by
    intro nonnull
    have facts := nextAt nonnull
    exact ⟨by omega, by omega⟩
  have away : ∀ {addr}, addr < new + 40 → next ≠ NULL → addr ≠ next + 16 := by
    intro addr below nonnull
    have facts := nextAt nonnull
    omega
  unfold splitBlock
  refine ⟨?_, ?_, ?_, ?_, ?_, ?_, ?_, ?_, ?_⟩
  · exact (((((((((Agrees.refl mem).storeU64 ⟨alignedNew, by omega⟩).storeU64
      ⟨by omega, by omega⟩).storeU64 ⟨by omega, by omega⟩).storeU8 ⟨by omega, by omega⟩).storeU64
      ⟨by omega, by omega⟩).storeU64 ⟨by omega, by omega⟩).storeUnlessNull word).storeU64
      ⟨aligned, by omega⟩)
  · exact loadU64_storeU64 small
  · rw [loadU64_storeU64_ne aligned (by omega) (by omega) (by omega) (by omega),
      loadU64_storeUnlessNull_ne word (by omega) (by omega) (away (by omega)),
      loadU64_storeU64 (by omega)]
  · rw [loadU64_storeU64_ne aligned (by omega) (by omega) (by omega) (by omega),
      loadU64_storeUnlessNull_ne word (by omega) (by omega) (away (by omega)),
      loadU64_storeU64_ne (by omega) (by omega) (by omega) (by omega) (by omega),
      loadU64_storeU64_ne (by omega) (by omega) (by omega) (by omega) (by omega),
      loadU64_storeU8_ne (by omega) (by omega) (by omega) (by omega) (by omega),
      loadU64_storeU64_ne (by omega) (by omega) (by omega) (by omega) (by omega),
      loadU64_storeU64_ne (by omega) (by omega) (by omega) (by omega) (by omega),
      loadU64_storeU64 smallRest]
  · rw [loadU8_storeU64_ne aligned (by omega) (by omega) (by omega) (by omega),
      loadU8_storeUnlessNull_ne word (by omega) (by omega) (away (by omega)),
      loadU8_storeU64_ne (by omega) (by omega) (by omega) (by omega) (by omega),
      loadU8_storeU64_ne (by omega) (by omega) (by omega) (by omega) (by omega),
      loadU8_storeU8 (by omega)]
  · rw [loadU64_storeU64_ne aligned (by omega) (by omega) (by omega) (by omega),
      loadU64_storeUnlessNull_ne word (by omega) (by omega) (away (by omega)),
      loadU64_storeU64_ne (by omega) (by omega) (by omega) (by omega) (by omega),
      loadU64_storeU64_ne (by omega) (by omega) (by omega) (by omega) (by omega),
      loadU64_storeU8_ne (by omega) (by omega) (by omega) (by omega) (by omega),
      loadU64_storeU64_ne (by omega) (by omega) (by omega) (by omega) (by omega),
      loadU64_storeU64 (by omega)]
  · rw [loadU64_storeU64_ne aligned (by omega) (by omega) (by omega) (by omega),
      loadU64_storeUnlessNull_ne word (by omega) (by omega) (away (by omega)),
      loadU64_storeU64_ne (by omega) (by omega) (by omega) (by omega) (by omega),
      loadU64_storeU64_ne (by omega) (by omega) (by omega) (by omega) (by omega),
      loadU64_storeU8_ne (by omega) (by omega) (by omega) (by omega) (by omega),
      loadU64_storeU64 smallNext]
  · rw [loadU64_storeU64_ne aligned (by omega) (by omega) (by omega) (by omega),
      loadU64_storeUnlessNull_ne word (by omega) (by omega) (away (by omega)),
      loadU64_storeU64_ne (by omega) (by omega) (by omega) (by omega) (by omega),
      loadU64_storeU64 smallContainer]
  · intro nonnull
    have facts := nextAt nonnull
    rw [loadU64_storeU64_ne aligned (by omega) (by omega) (by omega) (by omega), storeUnlessNull,
      if_pos nonnull, loadU64_storeU64 (by omega)]

/-- The list with one block split in two. -/
def Cont.split (c : Cont) (before : List Blk) (b : Blk) (after : List Blk) (n new rest : Nat) : Cont :=
  { c with blks := before ++ { b with size := n } :: ⟨new, rest, false⟩ :: after }

/-- A second block in the rest of a block fits. -/
theorem Cont.Fits.split (fits : c.Fits) (split : c.blks = before ++ b :: after) {n new rest : Nat}
    (behind : b.header + 40 + n ≤ new) (aligned : new % 16 = 8) (ends : new + 40 + rest = b.stop) :
    (c.split before b after n new rest).Fits := by
  have around := fits.around split
  have first := fits.first
  have order := fits.order
  have inside := fits.inside
  have low := around.low
  have high := around.high
  rw [split] at first order inside
  unfold Blk.stop at ends high
  refine ⟨fits.aligned, fits.nonnull, fits.bounded, ?_, ?_, ?_⟩
  · cases before with
    | nil => exact first
    | cons head rest => exact first
  · simp only [Cont.split]
    rw [List.pairwise_append, List.pairwise_cons] at order
    rw [List.pairwise_append, List.pairwise_cons, List.pairwise_cons]
    refine ⟨order.1, ⟨?_, ?_, order.2.1.2⟩, ?_⟩
    · intro d member
      rcases List.mem_cons.mp member with rfl | later
      · exact behind
      · have next := order.2.1.1 d later
        unfold Blk.stop at next ⊢
        dsimp only
        omega
    · intro d later
      have next := order.2.1.1 d later
      unfold Blk.stop at next ⊢
      dsimp only
      omega
    · intro d member d' member'
      have prior := order.2.2 d member b (by simp)
      simp only [List.mem_cons] at member'
      rcases member' with rfl | rfl | later
      · exact prior
      · dsimp only
        omega
      · exact order.2.2 d member d' (by simp [later])
  · intro d member
    simp only [Cont.split, List.mem_append, List.mem_cons] at member
    rcases member with earlier | rfl | rfl | later
    · exact inside d (by simp [earlier])
    · have here := inside b (by simp)
      refine ⟨here.1, ?_, here.2.2⟩
      show b.header + 40 + n ≤ c.stop
      omega
    · refine ⟨?_, ?_, aligned⟩
      · show c.addr + 40 ≤ new
        omega
      · show new + 40 + rest ≤ c.stop
        omega
    · exact inside d (by simp [later])

/-- The header that follows in a list of blocks, or null. -/
def nextHeader (after : List Blk) : Nat := (after.map Blk.header).headD NULL

theorem nextHeader_cases (after : List Blk) :
    nextHeader after = NULL ∨ ∃ d ∈ after, nextHeader after = d.header := by
  cases after with
  | nil => exact Or.inl rfl
  | cons d rest => exact Or.inr ⟨d, by simp, rfl⟩

/-- The next header is null or lies behind the block, and apart from all other headers. -/
theorem Cont.Fits.next_header (fits : c.Fits) (split : c.blks = before ++ b :: after) :
    (nextHeader after = 0 ∨ b.stop ≤ nextHeader after ∧ nextHeader after + 40 ≤ c.stop ∧
      nextHeader after % 16 = 8) ∧
    ∀ d ∈ c.blks, nextHeader after = 0 ∨ d.header = nextHeader after ∨
      d.header + 40 ≤ nextHeader after ∨ nextHeader after + 40 ≤ d.header := by
  have around := fits.around split
  have order := fits.order
  cases after with
  | nil => exact ⟨Or.inl rfl, fun _ _ => Or.inl rfl⟩
  | cons q rest =>
      have named : nextHeader (q :: rest) = q.header := rfl
      have here := around.after q (by simp)
      rw [named]
      constructor
      · right
        unfold Blk.stop at here ⊢
        omega
      · intro d member
        rw [split, List.pairwise_append, List.pairwise_cons, List.pairwise_cons] at order
        rw [split] at member
        simp only [List.mem_append, List.mem_cons] at member
        unfold Blk.stop at order
        rcases member with earlier | rfl | rfl | later
        · have facts := order.2.2 d earlier q (by simp)
          omega
        · have facts := order.2.1.1 q (by simp)
          omega
        · omega
        · have facts := order.2.1.2.1 d later
          omega

/-- The next header is the lowest one behind the block. -/
theorem Cont.Fits.next_le (fits : c.Fits) (split : c.blks = before ++ b :: after) {d : Blk}
    (later : d ∈ after) : nextHeader after ≤ d.header := by
  have order := fits.order
  rw [split, List.pairwise_append, List.pairwise_cons] at order
  cases after with
  | nil => cases later
  | cons q rest =>
      have named : nextHeader (q :: rest) = q.header := rfl
      rw [named]
      rcases List.mem_cons.mp later with rfl | behind
      · exact le_rfl
      · have apart := (List.pairwise_cons.mp order.2.1.2).1 d behind
        unfold Blk.stop at apart
        omega

/-- The stores that split a block split it in the list. -/
theorem Cont.Holds.split (holds : c.Holds mem) (fits : c.Fits) (split : c.blks = before ++ b :: after)
    {n new rest : Nat} (behind : b.header + 40 + n ≤ new) (aligned : new % 16 = 8)
    (ends : new + 40 + rest = b.stop) :
    (c.split before b after n new rest).Holds
      (splitBlock b.header n new rest (nextHeader after) c.addr mem) := by
  have around := fits.around split
  have page := fits.aligned
  have bounded := fits.bounded
  have low := around.low
  have high := around.high
  have place := around.aligned
  have beforeAt := around.before
  have afterAt := around.after
  unfold Blk.stop at high beforeAt afterAt ends
  have start : 4096 ≤ c.addr := by
    have nonnull : c.addr ≠ 0 := fits.nonnull
    omega
  obtain ⟨nextAt, nextOf⟩ := fits.next_header split
  unfold Blk.stop at nextAt
  generalize nextNamed : nextHeader after = next at *
  have places : SplitPlaces b.header new next := by
    refine ⟨by omega, by omega, by omega, by omega, ?_⟩
    intro nonnull
    have nonzero : next ≠ 0 := nonnull
    omega
  have values := @splitBlock_values b.header n new rest next c.addr mem places (by omega) (by omega)
    (by omega) (by omega)
  generalize splitBlock b.header n new rest next c.addr mem = mem' at *
  have alignedWords : ∀ word ∈ splitWords b.header new next, word % 8 = 0 := by
    intro word member
    simp only [splitWords, List.mem_cons, List.not_mem_nil, or_false] at member
    omega
  have kept : ∀ addr, addr % 8 = 0 → addr + 8 ≤ 2 ^ 64 → addr ∉ splitWords b.header new next →
      loadU64 mem' addr = loadU64 mem addr := fun addr place room outside =>
    values.agrees.loadU64 alignedWords ⟨place, room⟩ outside
  have keptData : ∀ d ∈ c.blks, d.header + 40 ≤ b.header ∨ b.header + 40 + b.size ≤ d.header →
      d.header ∉ splitWords b.header new next ∧ d.header + 8 ∉ splitWords b.header new next ∧
      d.header + 24 ∉ splitWords b.header new next ∧ d.header + 32 ∉ splitWords b.header new next ∧
      (d.header ≠ next → d.header + 16 ∉ splitWords b.header new next) := by
    intro d member apart
    have facts := fits.inside d member
    have spaced := nextOf d member
    simp only [splitWords, List.mem_cons, List.not_mem_nil, or_false, not_or]
    omega
  have other : ∀ d ∈ c.blks, d.header + 40 ≤ b.header ∨ b.header + 40 + b.size ≤ d.header →
      d.Holds c.addr mem' := by
    intro d member apart
    have facts := fits.inside d member
    unfold Blk.stop at facts
    have outside := keptData d member apart
    exact (holds.data d member).agrees values.agrees alignedWords (by omega) (by omega) outside.1
      outside.2.1 outside.2.2.2.1
  have others : ∀ header ∈ before.map Blk.header ++ [b.header] ++ after.map Blk.header,
      header ≠ b.header → ∃ d ∈ c.blks, (d.header + 40 ≤ b.header ∨
        b.header + 40 + b.size ≤ d.header) ∧ d.header = header := by
    intro header member different
    simp only [List.append_assoc, List.mem_append, List.mem_map, List.mem_singleton] at member
    rcases member with ⟨d, earlier, rfl⟩ | rfl | ⟨d, later, rfl⟩
    · have facts := beforeAt d earlier
      exact ⟨d, by simp [split, earlier], by omega, rfl⟩
    · exact absurd rfl different
    · have facts := afterAt d later
      exact ⟨d, by simp [split, later], by omega, rfl⟩
  refine ⟨?_, ?_, ?_, ?_, ?_⟩
  · show loadU64 mem' c.addr + 40 = c.pages * 4096
    rw [kept c.addr (by omega) (by omega) (by simp [splitWords]; omega)]
    exact holds.size
  · have count : (c.split before b after n new rest).usedCount = c.usedCount := by
      simp only [Cont.usedCount, Cont.split, split, List.filter_append, List.filter_cons,
        Bool.false_eq_true, if_false]
      split_ifs <;> simp
    rw [count]
    show loadU64 mem' (c.addr + 8) = _
    rw [kept _ (by omega) (by omega) (by simp [splitWords]; omega)]
    exact holds.used
  · show loadU64 mem' (c.addr + 32) = c.addr + 40
    rw [kept _ (by omega) (by omega) (by simp [splitWords]; omega)]
    exact holds.block
  · have linked := holds.links
    have distinct := fits.distinct
    rw [split, List.map_append, List.map_cons, List.append_cons] at linked distinct
    have whole := @Segment.insert _ _ _ (fun b => loadU64 mem' (b + 24))
      (fun b => loadU64 mem' (b + 16)) _ _ new _ _ linked distinct
    have shape : (c.split before b after n new rest).blks.map Blk.header =
        (before.map Blk.header ++ [b.header]) ++ new :: after.map Blk.header := by
      simp [Cont.split]
    rw [shape]
    apply whole
    · rw [values.newNext, ← nextNamed]
      rfl
    · rw [values.newPrev]
      simp
    · intro other last
      obtain rfl : b.header = other := by simpa using last
      exact values.forth
    · intro other head
      have here : next = other := by
        rw [← nextNamed, nextHeader, List.headD_eq_head?_getD, head]
        rfl
      rw [← here]
      apply values.back
      have listed := List.mem_of_mem_head? head
      obtain ⟨d, later, rfl⟩ := List.mem_map.mp listed
      have facts := afterAt d later
      have nonnull : d.header ≠ 0 := by omega
      rw [here]
      exact nonnull
    · intro other member last
      have different : other ≠ b.header := by simpa [eq_comm] using last
      obtain ⟨d, listed, apart, rfl⟩ := others other member different
      have facts := fits.inside d listed
      unfold Blk.stop at facts
      exact kept _ (by omega) (by omega) (keptData d listed apart).2.2.1
    · intro other member head
      by_cases here : other = b.header
      · rw [here]
        exact kept _ (by omega) (by omega) (by simp [splitWords]; omega)
      · obtain ⟨d, listed, apart, rfl⟩ := others other member here
        have facts := fits.inside d listed
        unfold Blk.stop at facts
        apply kept _ (by omega) (by omega)
        apply (keptData d listed apart).2.2.2.2
        intro same
        cases after with
        | nil =>
            have zero : (0 : Nat) = next := nextNamed
            omega
        | cons q rest =>
            have first : q.header = next := nextNamed
            exact head (congrArg some (first.trans same.symm))
  · intro d member
    simp only [Cont.split, List.mem_append, List.mem_cons] at member
    rcases member with earlier | rfl | rfl | later
    · have facts := beforeAt d earlier
      exact other d (by simp [split, earlier]) (by omega)
    · have data := holds.data b (by simp [split])
      refine ⟨values.size, ?_, ?_⟩
      · show loadU8 mem' (b.header + 8) = _
        rw [values.agrees.loadU8 alignedWords ⟨by omega, by omega⟩ (by simp [splitWords]; omega)]
        exact data.used
      · show loadU64 mem' (b.header + 32) = c.addr
        rw [kept _ (by omega) (by omega) (by simp [splitWords]; omega)]
        exact data.container
    · exact ⟨values.newSize, values.newUsed, values.newContainer⟩
    · have facts := afterAt d later
      exact other d (by simp [split, later]) (by omega)

end

end B0s
