import B0s.Proof.Mm.KheapContainer

/-
This file evaluates the heap on memories that are given by finitely many words.
-/

namespace B0s
open ByteMemory

/-- The low byte of a word is the byte at its address. -/
theorem loadU8_eq_mod (mem : Memory) (addr : Nat) :
    loadU8 mem addr = loadU64 mem addr % 256 := by
  have low : (loadWord mem addr).setWidth 8 = mem (u64 addr) := by
    apply BitVec.eq_of_getLsbD_eq
    intro index inside
    have first : index / 8 = 0 := by omega
    have same : index % 8 = index := by omega
    rw [BitVec.getLsbD_setWidth, getLsbD_loadWord _ _ (by omega)]
    simp [bit, place, first, same, u64, inside]
  have value := congrArg BitVec.toNat low
  rw [BitVec.toNat_setWidth] at value
  exact value.symm

/-- Storing a byte keeps the seven other bytes of its word. -/
theorem loadU64_storeU8 {mem : Memory} {addr value : Nat} (room : addr + 8 ≤ 2 ^ 64) :
    loadU64 (storeU8 addr value mem) addr = loadU64 mem addr / 256 * 256 + value % 256 := by
  have inside : u64 addr = addr := Nat.mod_eq_of_lt (by omega)
  have low : loadU64 (storeU8 addr value mem) addr % 256 = value % 256 := by
    rw [← loadU8_eq_mod, loadU8, storeU8, Function.update_self, BitVec.toNat_ofNat]
  have high : loadWord (storeU8 addr value mem) addr >>> 8 = loadWord mem addr >>> 8 := by
    apply BitVec.eq_of_getLsbD_eq
    intro index small
    rw [BitVec.getLsbD_ushiftRight, BitVec.getLsbD_ushiftRight]
    by_cases within : 8 + index < 64
    · rw [getLsbD_loadWord _ _ within, getLsbD_loadWord _ _ within]
      have elsewhere : (addr + (8 + index) / 8) % 2 ^ 64 ≠ addr := by omega
      simp only [bit, place, storeU8, inside]
      rw [Function.update_of_ne elsewhere]
    · rw [BitVec.getLsbD_of_ge _ _ (by omega), BitVec.getLsbD_of_ge _ _ (by omega)]
  have quotient : loadU64 (storeU8 addr value mem) addr / 256 = loadU64 mem addr / 256 := by
    have value := congrArg BitVec.toNat high
    rw [BitVec.toNat_ushiftRight, BitVec.toNat_ushiftRight, Nat.shiftRight_eq_div_pow,
      Nat.shiftRight_eq_div_pow] at value
    exact value
  rw [← quotient, ← low]
  exact (Nat.div_add_mod' _ _).symm

/-- A list of aligned words with their values, in which the first entry for an address counts. -/
abbrev Words := List (Nat × Nat)

def Words.word : Words → Nat → Nat
  | [], _ => 0
  | (key, value) :: rest, addr => if addr = key then value else Words.word rest addr

/-- The words of memory are those of the list. -/
def Words.Show (words : Words) (mem : Memory) : Prop :=
  ∀ addr, Word addr → loadU64 mem addr = words.word addr

def Words.loadU64 (words : Words) (addr : Nat) : Option Nat :=
  if addr % 8 = 0 ∧ addr + 8 ≤ 2 ^ 64 then some (words.word addr) else none

def Words.storeU64 (addr value : Nat) (words : Words) : Option Words :=
  if addr % 8 = 0 ∧ addr + 8 ≤ 2 ^ 64 then some ((addr, value % 2 ^ 64) :: words) else none

def Words.loadU8 (words : Words) (addr : Nat) : Option Nat :=
  if addr % 8 = 0 ∧ addr + 8 ≤ 2 ^ 64 then some (words.word addr % 256) else none

def Words.storeU8 (addr value : Nat) (words : Words) : Option Words :=
  if addr % 8 = 0 ∧ addr + 8 ≤ 2 ^ 64 then
    some ((addr, words.word addr / 256 * 256 + value % 256) :: words)
  else none

section
variable {words words' : Words} {mem : Memory} {addr value : Nat}

theorem Words.Show.loadU64 (shows : words.Show mem) (loaded : words.loadU64 addr = some value) :
    B0s.loadU64 mem addr = value := by
  unfold Words.loadU64 at loaded
  split_ifs at loaded with place
  exact (shows addr ⟨place.1, place.2⟩).trans (Option.some.inj loaded)

theorem Words.Show.loadU8 (shows : words.Show mem) (loaded : words.loadU8 addr = some value) :
    B0s.loadU8 mem addr = value := by
  unfold Words.loadU8 at loaded
  split_ifs at loaded with place
  rw [loadU8_eq_mod, shows addr ⟨place.1, place.2⟩]
  exact Option.some.inj loaded

theorem Words.Show.byte (shows : words.Show mem) (loaded : words.loadU8 addr = some value) :
    (mem addr).toNat = value := by
  have byte := shows.loadU8 loaded
  unfold Words.loadU8 at loaded
  split_ifs at loaded with place
  have inside : u64 addr = addr := Nat.mod_eq_of_lt (by omega)
  rwa [B0s.loadU8, inside] at byte

theorem Words.Show.cons (shows : words.Show mem) {mem' : Memory} (here : B0s.loadU64 mem' addr = value)
    (there : ∀ other, Word other → other ≠ addr → B0s.loadU64 mem' other = B0s.loadU64 mem other) :
    Words.Show ((addr, value) :: words) mem' := by
  intro other place
  rw [Words.word]
  split_ifs with same
  · rw [same]
    exact here
  · rw [there other place same]
    exact shows other place

theorem Words.Show.storeU64 (shows : words.Show mem) (stored : words.storeU64 addr value = some words') :
    words'.Show (B0s.storeU64 addr value mem) := by
  unfold Words.storeU64 at stored
  split_ifs at stored with place
  rw [← Option.some.inj stored]
  apply shows.cons
  · rw [B0s.loadU64, B0s.storeU64, loadWord_storeWord, BitVec.toNat_ofNat]
  · intro other word different
    exact loadU64_storeU64_ne place.1 place.2 word.aligned word.room different

theorem Words.Show.storeU8 (shows : words.Show mem) (stored : words.storeU8 addr value = some words') :
    words'.Show (B0s.storeU8 addr value mem) := by
  unfold Words.storeU8 at stored
  split_ifs at stored with place
  rw [← Option.some.inj stored]
  apply shows.cons
  · rw [loadU64_storeU8 place.2, shows addr ⟨place.1, place.2⟩]
  · intro other word different
    exact loadU64_storeU8_ne place.1 place.2 word.aligned word.room different

end

/-- The search of `try_alloc_block` on a list of words. -/
def Words.tryAllocBlockSearch (words : Words) (sizeInBytes : Nat) : Nat → Nat → Option Nat
  | 0, _ => none
  | steps + 1, b =>
      if b = NULL then some NULL
      else do
        let used ← words.loadU8 (blockUsed b)
        let size ← words.loadU64 (blockSizeInBytes b)
        let next ← words.loadU64 (blockNext b)
        if used = 0 ∧ size ≥ sizeInBytes then some b
        else words.tryAllocBlockSearch sizeInBytes steps next

/-- A conditional store on a list of words. -/
def Words.storeUnlessNull (base addr value : Nat) (words : Words) : Option Words :=
  if base ≠ NULL then words.storeU64 addr value else some words

/-- The code behind `found_block` on a list of words. -/
def Words.foundBlock (b sizeInBytes : Nat) (words : Words) : Option Words := do
  let words ← words.storeU8 (blockUsed b) 1
  let container ← words.loadU64 (blockContainer b)
  let count ← words.loadU64 (containerUsedBlocks container)
  let words ← words.storeU64 (containerUsedBlocks container) (u64 (count + 1))
  let size ← words.loadU64 (blockSizeInBytes b)
  let blockEnd := u64 (blockData b + size)
  let nextBlockStructEnd := roundUp (u64 (u64 (blockData b + sizeInBytes) + sizeofBlock)) kheapAlignInBytes
  let newB := subU64 nextBlockStructEnd sizeofBlock
  if nextBlockStructEnd ≥ blockEnd then some words
  else do
    let words ← words.storeU64 (blockSizeInBytes newB) (subU64 blockEnd nextBlockStructEnd)
    let words ← words.storeU64 (blockPrev newB) b
    let next ← words.loadU64 (blockNext b)
    let words ← words.storeU64 (blockNext newB) next
    let words ← words.storeU8 (blockUsed newB) 0
    let container ← words.loadU64 (blockContainer b)
    let words ← words.storeU64 (blockContainer newB) container
    let words ← words.storeU64 (blockNext b) newB
    let next ← words.loadU64 (blockNext newB)
    let words ← words.storeUnlessNull next (blockPrev next) newB
    words.storeU64 (blockSizeInBytes b) sizeInBytes

section
variable {words words' : Words} {mem : Memory}

theorem Words.Show.storeUnlessNull {base addr value : Nat} (shows : words.Show mem)
    (stored : words.storeUnlessNull base addr value = some words') :
    words'.Show (if base ≠ NULL then B0s.storeU64 addr value mem else mem) := by
  unfold Words.storeUnlessNull at stored
  by_cases nonnull : base ≠ NULL
  · rw [if_pos nonnull] at stored ⊢
    exact shows.storeU64 stored
  · rw [if_neg nonnull] at stored ⊢
    rw [← Option.some.inj stored]
    exact shows

theorem Words.Show.tryAllocBlockSearch (shows : words.Show mem) {n steps b found : Nat}
    (searched : words.tryAllocBlockSearch n steps b = some found) :
    B0s.tryAllocBlockSearch mem n steps b = .ok found := by
  induction steps generalizing b with
  | zero => cases searched
  | succ steps ih =>
      rw [Words.tryAllocBlockSearch] at searched
      rw [B0s.tryAllocBlockSearch]
      by_cases null : b = NULL
      · rw [if_pos null] at searched ⊢
        rw [Option.some.inj searched]
      · rw [if_neg null] at searched ⊢
        obtain ⟨used, usedAt, searched⟩ := Option.bind_eq_some_iff.mp searched
        obtain ⟨size, sizeAt, searched⟩ := Option.bind_eq_some_iff.mp searched
        obtain ⟨next, nextAt, searched⟩ := Option.bind_eq_some_iff.mp searched
        rw [shows.loadU8 usedAt, shows.loadU64 sizeAt, shows.loadU64 nextAt]
        by_cases fit : used = 0 ∧ size ≥ n
        · rw [if_pos fit] at searched ⊢
          rw [Option.some.inj searched]
        · rw [if_neg fit] at searched ⊢
          exact ih searched

theorem Words.Show.foundBlock (shows : words.Show mem) {b n : Nat} (run : words.foundBlock b n = some words') :
    words'.Show (B0s.foundBlock b n mem) := by
  obtain ⟨words1, stored1, run⟩ := Option.bind_eq_some_iff.mp run
  obtain ⟨container, containerAt, run⟩ := Option.bind_eq_some_iff.mp run
  obtain ⟨count, countAt, run⟩ := Option.bind_eq_some_iff.mp run
  obtain ⟨words2, stored2, run⟩ := Option.bind_eq_some_iff.mp run
  obtain ⟨size, sizeAt, run⟩ := Option.bind_eq_some_iff.mp run
  have shows1 := shows.storeU8 stored1
  have shows2 := shows1.storeU64 stored2
  simp only [B0s.foundBlock, shows1.loadU64 containerAt, shows1.loadU64 countAt, shows2.loadU64 sizeAt]
  dsimp only at run
  split_ifs at run with full
  · rw [if_pos full, ← Option.some.inj run]
    exact shows2
  · rw [if_neg full]
    obtain ⟨words3, stored3, run⟩ := Option.bind_eq_some_iff.mp run
    obtain ⟨words4, stored4, run⟩ := Option.bind_eq_some_iff.mp run
    obtain ⟨next, nextAt, run⟩ := Option.bind_eq_some_iff.mp run
    obtain ⟨words5, stored5, run⟩ := Option.bind_eq_some_iff.mp run
    obtain ⟨words6, stored6, run⟩ := Option.bind_eq_some_iff.mp run
    obtain ⟨owner, ownerAt, run⟩ := Option.bind_eq_some_iff.mp run
    obtain ⟨words7, stored7, run⟩ := Option.bind_eq_some_iff.mp run
    obtain ⟨words8, stored8, run⟩ := Option.bind_eq_some_iff.mp run
    obtain ⟨behind, behindAt, run⟩ := Option.bind_eq_some_iff.mp run
    obtain ⟨words9, stored9, run⟩ := Option.bind_eq_some_iff.mp run
    have shows4 := (shows2.storeU64 stored3).storeU64 stored4
    have shows6 := (shows4.storeU64 stored5).storeU8 stored6
    have shows8 := (shows6.storeU64 stored7).storeU64 stored8
    have shows9 := (shows8.storeUnlessNull stored9).storeU64 run
    rw [shows4.loadU64 nextAt, shows6.loadU64 ownerAt, shows8.loadU64 behindAt]
    exact shows9

end

def kernelHeapStart : Nat := 0xffffffef80000000

def kernelHeapStop : Nat := 0xffffffff80000000

/-- A range of pages lies in the heap window, apart from the ranges in use. -/
def FitsWindow (ranges : List (Nat × Nat)) (pages va : Nat) : Prop :=
  kernelHeapStart ≤ va ∧ va + pages * pageSizeInBytes ≤ kernelHeapStop ∧ va % pageSizeInBytes = 0 ∧
    ∀ range ∈ ranges, va + pages * pageSizeInBytes ≤ range.1 ∨ range.1 + range.2 * pageSizeInBytes ≤ va

instance (ranges : List (Nat × Nat)) (pages va : Nat) : Decidable (FitsWindow ranges pages va) :=
  inferInstanceAs (Decidable (_ ∧ _))

/-- The lowest free range starts at the window or behind a range in use. -/
def lowestFree (ranges : List (Nat × Nat)) (pages : Nat) : Option Nat :=
  ((kernelHeapStart :: ranges.map fun range => range.1 + range.2 * pageSizeInBytes).filter fun va =>
    FitsWindow ranges pages va).min?

theorem lowestFree_fits {ranges : List (Nat × Nat)} {pages va : Nat} (found : lowestFree ranges pages = some va) :
    FitsWindow ranges pages va := by
  have member := List.min?_mem found
  simpa using (List.mem_filter.mp member).2

theorem FitsWindow.addressable {ranges : List (Nat × Nat)} {pages va : Nat} (fits : FitsWindow ranges pages va) :
    va + pages * pageSizeInBytes < 2 ^ 64 :=
  lt_of_le_of_lt fits.2.1 (by decide)

/-- This page source hands out the lowest free range of the heap window, filled with zeros. -/
def firstFit : HeapPages (List (Nat × Nat)) where
  ranges := id
  vmmAllocBetween pages env :=
    match lowestFree env pages with
    | none => .ok (NULL, fun _ => 0, env)
    | some va => .ok (va, fun _ => 0, (va, pages) :: env)
  vmmFree va pages env := .ok (env.erase (va, pages))
  alloc_null := by
    intro pages env bytes env' obtained
    cases found : lowestFree env pages with
    | none =>
        rw [found] at obtained
        simp only [Except.ok.injEq, Prod.mk.injEq] at obtained
        rw [obtained.2.2]
    | some va =>
        have fits := lowestFree_fits found
        rw [found] at obtained
        simp only [Except.ok.injEq, Prod.mk.injEq] at obtained
        have low := fits.1
        rw [obtained.1] at low
        exact absurd low (by decide)
  alloc_fresh := by
    intro pages env va bytes env' obtained nonnull
    cases found : lowestFree env pages with
    | none =>
        rw [found] at obtained
        simp only [Except.ok.injEq, Prod.mk.injEq] at obtained
        exact absurd obtained.1.symm nonnull
    | some start =>
        have fits := lowestFree_fits found
        rw [found] at obtained
        simp only [Except.ok.injEq, Prod.mk.injEq] at obtained
        obtain ⟨rfl, -, rfl⟩ := obtained
        exact ⟨fits.2.2.1, fits.addressable, rfl, fits.2.2.2⟩
  free_released := by
    intro va pages env _
    exact ⟨_, rfl, rfl⟩

/-- The pages of this source are filled with zeros. -/
def HeapPages.Zeros {σ : Type} (source : HeapPages σ) : Prop :=
  ∀ pages env va bytes env', source.vmmAllocBetween pages env = .ok (va, bytes, env') → bytes = fun _ => 0

theorem firstFit_zeros : firstFit.Zeros := by
  intro pages env va bytes env' obtained
  simp only [firstFit] at obtained
  split at obtained
  · simp only [Except.ok.injEq, Prod.mk.injEq] at obtained
    exact obtained.2.1.symm
  · simp only [Except.ok.injEq, Prod.mk.injEq] at obtained
    exact obtained.2.1.symm

section
variable {words words' : Words} {mem : Memory}

def Words.tryAllocBlock (container sizeInBytes : Nat) (words : Words) : Option (Nat × Words) := do
  let first ← words.loadU64 (containerBlock container)
  let b ← words.tryAllocBlockSearch sizeInBytes walkLimit first
  if b = NULL then some (NULL, words)
  else do
    let words ← words.foundBlock b sizeInBytes
    some (b, words)

theorem Words.Show.tryAllocBlock (shows : words.Show mem) {container n b : Nat}
    (run : words.tryAllocBlock container n = some (b, words')) :
    ∃ mem', B0s.tryAllocBlock container n mem = .ok (b, mem') ∧ words'.Show mem' := by
  obtain ⟨first, firstAt, run⟩ := Option.bind_eq_some_iff.mp run
  obtain ⟨found, searched, run⟩ := Option.bind_eq_some_iff.mp run
  have start := shows.tryAllocBlockSearch searched
  rw [B0s.tryAllocBlock, shows.loadU64 firstAt, start]
  by_cases null : found = NULL
  · rw [if_pos null] at run
    obtain ⟨rfl, rfl⟩ : NULL = b ∧ words = words' := by simpa using run
    exact ⟨mem, by simp [bind, Except.bind, null], shows⟩
  · rw [if_neg null] at run
    obtain ⟨words1, marked, run⟩ := Option.bind_eq_some_iff.mp run
    obtain ⟨rfl, rfl⟩ : found = b ∧ words1 = words' := by simpa using run
    exact ⟨_, by simp [bind, Except.bind, null], shows.foundBlock marked⟩

def Words.kmallocSearch (sizeInBytes : Nat) : Nat → Nat → Words → Option (Nat × Words)
  | 0, _, _ => none
  | steps + 1, c, words =>
      if c = NULL then some (NULL, words)
      else do
        let (b, words) ← words.tryAllocBlock c sizeInBytes
        let next ← words.loadU64 (containerNext c)
        if b ≠ NULL then some (b, words) else kmallocSearch sizeInBytes steps next words

theorem Words.Show.kmallocSearch (shows : words.Show mem) {n steps c b : Nat}
    (run : Words.kmallocSearch n steps c words = some (b, words')) :
    ∃ mem', B0s.kmallocSearch n steps c mem = .ok (b, mem') ∧ words'.Show mem' := by
  induction steps generalizing c words mem with
  | zero => cases run
  | succ steps ih =>
      rw [Words.kmallocSearch] at run
      rw [B0s.kmallocSearch]
      by_cases null : c = NULL
      · rw [if_pos null] at run ⊢
        obtain ⟨rfl, rfl⟩ : NULL = b ∧ words = words' := by simpa using run
        exact ⟨mem, rfl, shows⟩
      · rw [if_neg null] at run ⊢
        obtain ⟨⟨found, words1⟩, tried, run⟩ := Option.bind_eq_some_iff.mp run
        obtain ⟨next, nextAt, run⟩ := Option.bind_eq_some_iff.mp run
        obtain ⟨mem1, tried', shows1⟩ := shows.tryAllocBlock tried
        rw [tried']
        by_cases nonnull : found ≠ NULL
        · rw [if_pos nonnull] at run
          obtain ⟨rfl, rfl⟩ : found = b ∧ words1 = words' := by simpa using run
          exact ⟨mem1, by simp [bind, Except.bind, nonnull], shows1⟩
        · rw [if_neg nonnull] at run
          obtain ⟨mem2, searched, shows2⟩ := ih shows1 run
          refine ⟨mem2, ?_, shows2⟩
          simpa [bind, Except.bind, nonnull, shows1.loadU64 nextAt] using searched

theorem Words.word_filter (words : Words) (kept : Nat → Bool) (addr : Nat) :
    Words.word (words.filter fun entry => kept entry.1) addr = if kept addr then words.word addr else 0 := by
  induction words with
  | nil => simp [Words.word]
  | cons entry rest ih =>
      rw [List.filter_cons]
      by_cases keep : kept entry.1 = true
      · rw [if_pos keep, Words.word, Words.word, ih]
        by_cases same : addr = entry.1
        · simp [same, keep]
        · simp [same]
      · rw [if_neg keep, ih, Words.word]
        by_cases same : addr = entry.1
        · simp [same, keep]
        · simp [same]

theorem loadU64_zeros (mem : Memory) {addr : Nat} (room : addr + 8 ≤ 2 ^ 64)
    (zeros : ∀ offset < 8, mem (addr + offset) = 0) : B0s.loadU64 mem addr = 0 := by
  have same : loadWord mem addr = loadWord (fun _ => 0) addr := by
    apply loadWord_congr
    intro offset small
    have inside : (addr + offset) % 2 ^ 64 = addr + offset := Nat.mod_eq_of_lt (by omega)
    rw [byteAt, inside, zeros offset small]
    rfl
  rw [B0s.loadU64, same]
  simp [loadWord, loadBytes, byteAt]

/-- Fresh pages of zeros hide the words of their range. -/
theorem Words.Show.cleared (shows : words.Show mem) {c pages : Nat} (aligned : c % 4096 = 0) :
    Words.Show (words.filter fun entry => decide (entry.1 < c ∨ c + pages * pageSizeInBytes ≤ entry.1))
      (overlay c pages (fun _ => 0) mem) := by
  intro addr word
  have place := word.aligned
  have room := word.room
  rw [Words.word_filter words (fun key => decide (key < c ∨ c + pages * pageSizeInBytes ≤ key))]
  unfold pageSizeInBytes
  by_cases outside : addr < c ∨ c + pages * 4096 ≤ addr
  · rw [if_pos (by simpa using outside), ← shows addr word]
    apply loadU64_congr room
    intro offset small
    exact overlay_outside (by omega)
  · rw [if_neg (by simpa using outside)]
    apply loadU64_zeros _ room
    intro offset small
    exact if_pos (by unfold pageSizeInBytes; omega)

def Words.mergePrev (b totalSize : Nat) (words : Words) : Option (Nat × Words) := do
  let prev ← words.loadU64 (blockPrev b)
  if prev = NULL then some (b, words)
  else do
    let used ← words.loadU8 (blockUsed prev)
    if used ≠ 0 then some (b, words)
    else do
      let next ← words.loadU64 (blockNext b)
      let words ← words.storeU64 (blockNext prev) next
      let size ← words.loadU64 (blockSizeInBytes prev)
      let words ← words.storeU64 (blockSizeInBytes prev) (u64 (size + totalSize))
      let next ← words.loadU64 (blockNext b)
      let words ← words.storeU64 (blockNext prev) next
      some (prev, words)

theorem Words.Show.mergePrev (shows : words.Show mem) {b total kept : Nat}
    (run : words.mergePrev b total = some (kept, words')) :
    ∃ mem', B0s.mergePrev b total mem = (kept, mem') ∧ words'.Show mem' := by
  obtain ⟨prev, prevAt, run⟩ := Option.bind_eq_some_iff.mp run
  simp only [B0s.mergePrev, shows.loadU64 prevAt]
  by_cases null : prev = NULL
  · rw [if_pos null] at run
    obtain ⟨rfl, rfl⟩ : b = kept ∧ words = words' := by simpa using run
    exact ⟨mem, if_neg fun both => both.1 null, shows⟩
  · rw [if_neg null] at run
    obtain ⟨used, usedAt, run⟩ := Option.bind_eq_some_iff.mp run
    rw [shows.loadU8 usedAt]
    by_cases taken : used ≠ 0
    · rw [if_pos taken] at run
      obtain ⟨rfl, rfl⟩ : b = kept ∧ words = words' := by simpa using run
      exact ⟨mem, if_neg fun both => taken both.2, shows⟩
    · rw [if_neg taken] at run
      obtain ⟨next, nextAt, run⟩ := Option.bind_eq_some_iff.mp run
      obtain ⟨words1, stored1, run⟩ := Option.bind_eq_some_iff.mp run
      obtain ⟨size, sizeAt, run⟩ := Option.bind_eq_some_iff.mp run
      obtain ⟨words2, stored2, run⟩ := Option.bind_eq_some_iff.mp run
      obtain ⟨next', nextAt', run⟩ := Option.bind_eq_some_iff.mp run
      obtain ⟨words3, stored3, run⟩ := Option.bind_eq_some_iff.mp run
      obtain ⟨rfl, rfl⟩ : prev = kept ∧ words3 = words' := by simpa using run
      have shows1 := shows.storeU64 stored1
      have shows2 := shows1.storeU64 stored2
      have shows3 := shows2.storeU64 stored3
      refine ⟨_, ?_, shows3⟩
      rw [if_pos ⟨null, not_not.mp taken⟩, shows.loadU64 nextAt, shows1.loadU64 sizeAt, shows2.loadU64 nextAt']

def Words.mergeNext (b : Nat) (words : Words) : Option Words := do
  let next ← words.loadU64 (blockNext b)
  if next = NULL then some words
  else do
    let used ← words.loadU8 (blockUsed next)
    if used ≠ 0 then some words
    else do
      let size ← words.loadU64 (blockSizeInBytes b)
      let nextSize ← words.loadU64 (blockSizeInBytes next)
      let words ← words.storeU64 (blockSizeInBytes b) (u64 (size + u64 (nextSize + sizeofBlock)))
      let after ← words.loadU64 (blockNext next)
      let words ← words.storeU64 (blockNext b) after
      let behind ← words.loadU64 (blockNext b)
      words.storeUnlessNull behind (blockPrev behind) b

theorem Words.Show.mergeNext (shows : words.Show mem) {b : Nat} (run : words.mergeNext b = some words') :
    words'.Show (B0s.mergeNext b mem) := by
  obtain ⟨next, nextAt, run⟩ := Option.bind_eq_some_iff.mp run
  simp only [B0s.mergeNext, shows.loadU64 nextAt]
  by_cases null : next = NULL
  · rw [if_pos null] at run
    rw [if_neg fun both => both.1 null, ← Option.some.inj run]
    exact shows
  · rw [if_neg null] at run
    obtain ⟨used, usedAt, run⟩ := Option.bind_eq_some_iff.mp run
    rw [shows.loadU8 usedAt]
    by_cases taken : used ≠ 0
    · rw [if_pos taken] at run
      rw [if_neg fun both => taken both.2, ← Option.some.inj run]
      exact shows
    · rw [if_neg taken] at run
      obtain ⟨size, sizeAt, run⟩ := Option.bind_eq_some_iff.mp run
      obtain ⟨nextSize, nextSizeAt, run⟩ := Option.bind_eq_some_iff.mp run
      obtain ⟨words1, stored1, run⟩ := Option.bind_eq_some_iff.mp run
      obtain ⟨after, afterAt, run⟩ := Option.bind_eq_some_iff.mp run
      obtain ⟨words2, stored2, run⟩ := Option.bind_eq_some_iff.mp run
      obtain ⟨behind, behindAt, run⟩ := Option.bind_eq_some_iff.mp run
      have shows1 := shows.storeU64 stored1
      have shows2 := shows1.storeU64 stored2
      rw [if_pos ⟨null, not_not.mp taken⟩, shows.loadU64 sizeAt, shows.loadU64 nextSizeAt, shows1.loadU64 afterAt,
        shows2.loadU64 behindAt]
      exact shows2.storeUnlessNull run

end

/-- A heap whose memory is a list of words. -/
structure WordHeap (σ : Type) where
  heap : Nat
  words : Words
  env : σ
  deriving DecidableEq

/-- A heap on words shows a heap on memory. -/
structure WordHeap.Show {σ : Type} (wordHeap : WordHeap σ) (kheap : Kheap σ) : Prop where
  heap : kheap.heap = wordHeap.heap
  words : wordHeap.words.Show kheap.mem
  env : kheap.env = wordHeap.env

section
variable {σ : Type} (source : HeapPages σ)

def WordHeap.createContainer (sizeInPages : Nat) (wordHeap : WordHeap σ) : Option (Nat × WordHeap σ) :=
  let pages := max kheapMinAllocInPages sizeInPages
  match source.vmmAllocBetween pages wordHeap.env with
  | .error _ => none
  | .ok (c, _, env) =>
    if c = NULL then some (NULL, { wordHeap with env := env })
    else do
      let words : Words := wordHeap.words.filter fun entry =>
        decide (entry.1 < c ∨ c + pages * pageSizeInBytes ≤ entry.1)
      let words ← words.storeU64 (containerSizeInBytes c) (subU64 (u64 (pages * pageSizeInBytes)) sizeofContainer)
      let words ← words.storeU64 (containerUsedBlocks c) 0
      let words ← words.storeU64 (containerPrev c) NULL
      let words ← words.storeU64 (containerNext c) wordHeap.heap
      let words ← words.storeUnlessNull wordHeap.heap (containerPrev wordHeap.heap) c
      let words ← words.storeU64 (containerBlock c) (containerData c)
      let size ← words.loadU64 (containerSizeInBytes c)
      let words ← words.storeU64 (blockSizeInBytes (containerData c)) (subU64 size sizeofBlock)
      let words ← words.storeU8 (blockUsed (containerData c)) 0
      let words ← words.storeU64 (blockPrev (containerData c)) NULL
      let words ← words.storeU64 (blockNext (containerData c)) NULL
      let words ← words.storeU64 (blockContainer (containerData c)) c
      some (c, ⟨c, words, env⟩)

def WordHeap.kheapInit (sizeInPages : Nat) (wordHeap : WordHeap σ) : Option (WordHeap σ) := do
  let (c, wordHeap) ← wordHeap.createContainer source sizeInPages
  if c = NULL then none else some wordHeap

def WordHeap.kmalloc (sizeInBytes : Nat) (wordHeap : WordHeap σ) : Option (Nat × WordHeap σ) := do
  let (b, words) ← Words.kmallocSearch sizeInBytes walkLimit wordHeap.heap wordHeap.words
  if b ≠ NULL then some (blockData b, { wordHeap with words := words })
  else do
    let (c, wordHeap) ← wordHeap.createContainer source (u64 (sizeInBytes + sizeofBlock) / pageSizeInBytes + 2)
    if c = NULL then some (NULL, wordHeap)
    else do
      let (b, words) ← wordHeap.words.tryAllocBlock c sizeInBytes
      if b = NULL then none else some (blockData b, { wordHeap with words := words })

def WordHeap.removeContainer (container : Nat) (wordHeap : WordHeap σ) : Option (WordHeap σ) := do
  let prev ← wordHeap.words.loadU64 (containerPrev container)
  let next ← wordHeap.words.loadU64 (containerNext container)
  let words ← wordHeap.words.storeUnlessNull prev (containerNext prev) next
  let behind ← words.loadU64 (containerNext container)
  let before ← words.loadU64 (containerPrev container)
  let words ← words.storeUnlessNull behind (containerPrev behind) before
  let size ← words.loadU64 (containerSizeInBytes container)
  match source.vmmFree container (u64 (size + sizeofContainer) / pageSizeInBytes) wordHeap.env with
  | .error _ => none
  | .ok env => some ⟨if prev = NULL then next else wordHeap.heap, words, env⟩

def WordHeap.kfree (ptr : Nat) (wordHeap : WordHeap σ) : Option (WordHeap σ) := do
  let size ← wordHeap.words.loadU64 (blockSizeInBytes (dataBlock ptr))
  let words ← wordHeap.words.storeU8 (blockUsed (dataBlock ptr)) 0
  let container ← words.loadU64 (blockContainer (dataBlock ptr))
  let count ← words.loadU64 (containerUsedBlocks container)
  let words ← words.storeU64 (containerUsedBlocks container) (subU64 count 1)
  let count ← words.loadU64 (containerUsedBlocks container)
  if count = 0 then WordHeap.removeContainer source container { wordHeap with words := words }
  else do
    let (b, words) ← words.mergePrev (dataBlock ptr) (u64 (size + sizeofBlock))
    let words ← words.mergeNext b
    some { wordHeap with words := words }

variable {source} {wordHeap wordHeap' : WordHeap σ} {kheap : Kheap σ}

theorem WordHeap.Show.createContainer (shows : wordHeap.Show kheap) (zeros : source.Zeros) {sizeInPages c : Nat}
    (run : wordHeap.createContainer source sizeInPages = some (c, wordHeap')) :
    ∃ kheap', B0s.createContainer source sizeInPages kheap = .ok (c, kheap') ∧ wordHeap'.Show kheap' := by
  obtain ⟨heap, mem, env⟩ := kheap
  obtain ⟨heap', words, env'⟩ := wordHeap
  obtain ⟨rfl, showsWords, rfl⟩ := shows
  dsimp only at showsWords
  cases found : source.vmmAllocBetween (max kheapMinAllocInPages sizeInPages) env with
  | error fault =>
      simp only [WordHeap.createContainer, found] at run
      cases run
  | ok result =>
      obtain ⟨va, bytes, env'⟩ := result
      obtain rfl := zeros _ _ _ _ _ found
      simp only [WordHeap.createContainer, found] at run
      by_cases null : va = NULL
      · rw [if_pos null] at run
        obtain ⟨rfl, rfl⟩ : NULL = c ∧ WordHeap.mk heap words env' = wordHeap' := by simpa using run
        refine ⟨⟨heap, mem, env'⟩, ?_, rfl, showsWords, rfl⟩
        rw [createContainer_unfold, found]
        exact if_pos null
      · rw [if_neg null] at run
        have aligned := (source.alloc_fresh _ _ _ _ _ found null).1
        obtain ⟨words1, stored1, run⟩ := Option.bind_eq_some_iff.mp run
        obtain ⟨words2, stored2, run⟩ := Option.bind_eq_some_iff.mp run
        obtain ⟨words3, stored3, run⟩ := Option.bind_eq_some_iff.mp run
        obtain ⟨words4, stored4, run⟩ := Option.bind_eq_some_iff.mp run
        obtain ⟨words5, stored5, run⟩ := Option.bind_eq_some_iff.mp run
        obtain ⟨words6, stored6, run⟩ := Option.bind_eq_some_iff.mp run
        obtain ⟨size, sizeAt, run⟩ := Option.bind_eq_some_iff.mp run
        obtain ⟨words7, stored7, run⟩ := Option.bind_eq_some_iff.mp run
        obtain ⟨words8, stored8, run⟩ := Option.bind_eq_some_iff.mp run
        obtain ⟨words9, stored9, run⟩ := Option.bind_eq_some_iff.mp run
        obtain ⟨words10, stored10, run⟩ := Option.bind_eq_some_iff.mp run
        obtain ⟨words11, stored11, run⟩ := Option.bind_eq_some_iff.mp run
        obtain ⟨rfl, rfl⟩ : va = c ∧ WordHeap.mk va words11 env' = wordHeap' := by simpa using run
        have cleared := @Words.Show.cleared _ _ showsWords va (max kheapMinAllocInPages sizeInPages) aligned
        have shows4 := (((cleared.storeU64 stored1).storeU64 stored2).storeU64 stored3).storeU64 stored4
        have shows6 := (shows4.storeUnlessNull stored5).storeU64 stored6
        have shows11 := ((((shows6.storeU64 stored7).storeU8 stored8).storeU64 stored9).storeU64 stored10).storeU64 stored11
        have memory : words11.Show (containerMemory va (max kheapMinAllocInPages sizeInPages) (fun _ => 0) heap mem) := by
          simp only [containerMemory, shows6.loadU64 sizeAt]
          exact shows11
        refine ⟨⟨va, containerMemory va (max kheapMinAllocInPages sizeInPages) (fun _ => 0) heap mem, env'⟩, ?_, rfl,
          memory, rfl⟩
        rw [createContainer_unfold, found]
        exact if_neg null

theorem WordHeap.Show.kheapInit  (shows : wordHeap.Show kheap) (zeros : source.Zeros) {sizeInPages : Nat}
    (run : wordHeap.kheapInit source sizeInPages = some wordHeap') :
    ∃ kheap', B0s.kheapInit source sizeInPages kheap = .ok kheap' ∧ wordHeap'.Show kheap' := by
  obtain ⟨⟨c, wordHeap1⟩, created, run⟩ := Option.bind_eq_some_iff.mp run
  obtain ⟨kheap1, created', shows1⟩ := shows.createContainer zeros created
  dsimp only at run
  split_ifs at run with null
  rw [B0s.kheapInit, created']
  refine ⟨kheap1, ?_, Option.some.inj run ▸ shows1⟩
  simp [bind, Except.bind, null]

theorem WordHeap.Show.kmalloc  (shows : wordHeap.Show kheap) (zeros : source.Zeros) {n ptr : Nat}
    (run : wordHeap.kmalloc source n = some (ptr, wordHeap')) :
    ∃ kheap', B0s.kmalloc source n kheap = .ok (ptr, kheap') ∧ wordHeap'.Show kheap' := by
  obtain ⟨⟨b, words1⟩, searched, run⟩ := Option.bind_eq_some_iff.mp run
  obtain ⟨mem1, searched', shows1⟩ := shows.words.kmallocSearch searched
  rw [← shows.heap] at searched'
  rw [B0s.kmalloc, searched']
  dsimp only at run
  by_cases nonnull : b ≠ NULL
  · rw [if_pos nonnull] at run
    obtain ⟨rfl, rfl⟩ : blockData b = ptr ∧ { wordHeap with words := words1 } = wordHeap' := by simpa using run
    exact ⟨{ kheap with mem := mem1 }, by simp [bind, Except.bind, nonnull], shows.heap, shows1, shows.env⟩
  · rw [if_neg nonnull] at run
    obtain ⟨⟨c, wordHeap1⟩, created, run⟩ := Option.bind_eq_some_iff.mp run
    obtain ⟨kheap1, created', shows2⟩ := shows.createContainer zeros created
    dsimp only at run
    by_cases null : c = NULL
    · rw [if_pos null] at run
      obtain ⟨rfl, rfl⟩ : NULL = ptr ∧ wordHeap1 = wordHeap' := by simpa using run
      exact ⟨kheap1, by simp [bind, Except.bind, nonnull, created', null], shows2⟩
    · rw [if_neg null] at run
      obtain ⟨⟨b', words2⟩, tried, run⟩ := Option.bind_eq_some_iff.mp run
      obtain ⟨mem2, tried', shows3⟩ := shows2.words.tryAllocBlock tried
      dsimp only at run
      split_ifs at run with null'
      obtain ⟨rfl, rfl⟩ : blockData b' = ptr ∧ { wordHeap1 with words := words2 } = wordHeap' := by simpa using run
      exact ⟨{ kheap1 with mem := mem2 }, by simp [bind, Except.bind, nonnull, created', null, tried', null'],
        shows2.heap, shows3, shows2.env⟩

theorem WordHeap.Show.removeContainer  (shows : wordHeap.Show kheap) {container : Nat} (run : wordHeap.removeContainer source container = some wordHeap') :
    ∃ kheap', B0s.removeContainer source container kheap = .ok kheap' ∧ wordHeap'.Show kheap' := by
  obtain ⟨prev, prevAt, run⟩ := Option.bind_eq_some_iff.mp run
  obtain ⟨next, nextAt, run⟩ := Option.bind_eq_some_iff.mp run
  obtain ⟨words1, stored1, run⟩ := Option.bind_eq_some_iff.mp run
  obtain ⟨behind, behindAt, run⟩ := Option.bind_eq_some_iff.mp run
  obtain ⟨before, beforeAt, run⟩ := Option.bind_eq_some_iff.mp run
  obtain ⟨words2, stored2, run⟩ := Option.bind_eq_some_iff.mp run
  obtain ⟨size, sizeAt, run⟩ := Option.bind_eq_some_iff.mp run
  have flipped : (if prev = NULL then kheap.mem else B0s.storeU64 (containerNext prev) next kheap.mem) =
      if prev ≠ NULL then B0s.storeU64 (containerNext prev) next kheap.mem else kheap.mem := by
    by_cases null : prev = NULL
    · rw [if_pos null, if_neg (not_not_intro null)]
    · rw [if_neg null, if_pos null]
  have shows1 := shows.words.storeUnlessNull stored1
  rw [← flipped] at shows1
  simp only [B0s.removeContainer, shows.words.loadU64 prevAt, shows.words.loadU64 nextAt]
  generalize (if prev = NULL then kheap.mem else B0s.storeU64 (containerNext prev) next kheap.mem) = mem1 at shows1 ⊢
  have shows2 := shows1.storeUnlessNull stored2
  rw [shows1.loadU64 behindAt, shows1.loadU64 beforeAt]
  generalize (if behind ≠ NULL then B0s.storeU64 (containerPrev behind) before mem1 else mem1) = mem2 at shows2 ⊢
  rw [shows2.loadU64 sizeAt]
  cases freed : source.vmmFree container (u64 (size + sizeofContainer) / pageSizeInBytes) wordHeap.env with
  | error fault =>
      rw [freed] at run
      cases run
  | ok env =>
      rw [freed] at run
      rw [shows.env, freed]
      refine ⟨⟨if prev = NULL then next else kheap.heap, mem2, env⟩, rfl, ?_, ?_, ?_⟩
      · rw [← Option.some.inj run, ← shows.heap]
      · rw [← Option.some.inj run]
        exact shows2
      · rw [← Option.some.inj run]

theorem WordHeap.Show.kfree  (shows : wordHeap.Show kheap) {ptr : Nat} (run : wordHeap.kfree source ptr = some wordHeap') :
    ∃ kheap', B0s.kfree source ptr kheap = .ok kheap' ∧ wordHeap'.Show kheap' := by
  rw [WordHeap.kfree] at run
  obtain ⟨size, sizeAt, run⟩ := Option.bind_eq_some_iff.mp run
  obtain ⟨words1, stored1, run⟩ := Option.bind_eq_some_iff.mp run
  obtain ⟨container, containerAt, run⟩ := Option.bind_eq_some_iff.mp run
  obtain ⟨count, countAt, run⟩ := Option.bind_eq_some_iff.mp run
  obtain ⟨words2, stored2, run⟩ := Option.bind_eq_some_iff.mp run
  obtain ⟨count', countAt', run⟩ := Option.bind_eq_some_iff.mp run
  have shows1 := shows.words.storeU8 stored1
  have shows2 := shows1.storeU64 stored2
  have sizeEq := shows.words.loadU64 sizeAt
  have containerEq := shows1.loadU64 containerAt
  have countEq := shows1.loadU64 countAt
  have countEq' := shows2.loadU64 countAt'
  unfold B0s.kfree
  extract_lets b total mem1 container' mem2
  have totalIs : total = u64 (size + sizeofBlock) := by
    simp only [total, b]
    rw [sizeEq]
  have containerIs : container' = container := containerEq
  have memIs : mem2 = B0s.storeU64 (containerUsedBlocks container) (subU64 count 1) mem1 := by
    simp only [mem2]
    rw [containerIs]
    simp only [mem1, b]
    rw [countEq]
  have shows2' : words2.Show mem2 := by
    rw [memIs]
    exact shows2
  have countIs : B0s.loadU64 mem2 (containerUsedBlocks container') = count' := by
    rw [containerIs]
    exact shows2'.loadU64 countAt'
  rw [countIs]
  clear_value mem2 container' total
  subst containerIs totalIs
  by_cases last : count' = 0
  · rw [if_pos last] at run ⊢
    have showsRest : WordHeap.Show { wordHeap with words := words2 } { kheap with mem := mem2 } :=
      ⟨shows.heap, shows2', shows.env⟩
    exact showsRest.removeContainer run
  · rw [if_neg last] at run ⊢
    obtain ⟨⟨kept, words3⟩, merged, run⟩ := Option.bind_eq_some_iff.mp run
    obtain ⟨words4, merged', run⟩ := Option.bind_eq_some_iff.mp run
    obtain ⟨mem3, mergedPrev, shows3⟩ := shows2'.mergePrev merged
    have shows4 := shows3.mergeNext merged'
    rw [mergedPrev]
    exact ⟨_, rfl, by rw [← Option.some.inj run]; exact ⟨shows.heap, shows4, shows.env⟩⟩

end

end B0s
