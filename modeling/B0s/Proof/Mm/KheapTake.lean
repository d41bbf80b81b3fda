import B0s.Proof.Mm.KheapBlocks

/-
This file proves that taking a block marks it, splits off its rest, and spares all other payloads.
-/

namespace B0s
open ByteMemory DoublyLinked

/-- The end of the header that a request leaves behind itself. -/
def restHeaderEnd (b n : Nat) : Nat := (b + 96 + n) / 16 * 16

/-- The list after a block is taken for a request. -/
def Cont.take (c : Cont) (before : List Blk) (b : Blk) (after : List Blk) (n : Nat) : Cont :=
  if restHeaderEnd b.header n ≥ b.stop then c.mark before b after true
  else (c.mark before b after true).split before { b with used := true } after n
    (restHeaderEnd b.header n - 40) (b.stop - restHeaderEnd b.header n)

/-- The header of the rest ends on an alignment boundary behind the request. -/
theorem restHeaderEnd_bounds {b n : Nat} (aligned : b % 16 = 8) :
    b + 80 + n ≤ restHeaderEnd b n ∧ restHeaderEnd b n ≤ b + 96 + n ∧ restHeaderEnd b n % 16 = 0 := by
  unfold restHeaderEnd
  omega

section
variable {c : Cont} {mem : Memory} {before after : List Blk} {b : Blk} {n : Nat}

theorem Cont.usedCount_mark (split : c.blks = before ++ b :: after) (free : b.used = false) :
    (c.mark before b after true).usedCount = c.usedCount + 1 := by
  simp only [Cont.usedCount, Cont.mark, split, List.filter_append, List.filter_cons, free, if_true,
    Bool.false_eq_true, if_false, List.length_append, List.length_cons]
  omega

theorem Cont.usedCount_unmark (split : c.blks = before ++ b :: after) (used : b.used = true) :
    (c.mark before b after false).usedCount + 1 = c.usedCount := by
  simp only [Cont.usedCount, Cont.mark, split, List.filter_append, List.filter_cons, used, if_true,
    Bool.false_eq_true, if_false, List.length_append, List.length_cons]
  omega

theorem Cont.Fits.usedCount_lt (fits : c.Fits) : c.usedCount + 1 < 2 ^ 64 := by
  have few := fits.length_lt
  have count : c.usedCount ≤ c.blks.length := List.length_filter_le _ _
  omega

/-- The links of a block lead to its neighbours. -/
theorem Cont.Holds.next_eq (holds : c.Holds mem) (split : c.blks = before ++ b :: after) :
    loadU64 mem (b.header + 24) = nextHeader after := by
  have linked := holds.links
  rw [split, List.map_append, List.map_cons] at linked
  exact linked.links_at.1

/-- The addresses of `found_block` do not wrap. -/
theorem foundBlock_addresses {b size n limit : Nat} (high : b + 40 + size ≤ limit)
    (room : limit + 4096 ≤ 2 ^ 64) (large : n ≤ size) :
    blockData b = b + 40 ∧ u64 (blockData b + size) = b + 40 + size ∧
      roundUp (u64 (u64 (blockData b + n) + sizeofBlock)) kheapAlignInBytes = restHeaderEnd b n := by
  have data : blockData b = b + 40 := Nat.mod_eq_of_lt (by unfold sizeofBlock; omega)
  have request : u64 (b + 40 + n) = b + 40 + n := Nat.mod_eq_of_lt (by omega)
  have behind : u64 (b + 40 + n + sizeofBlock) = b + 40 + n + 40 :=
    Nat.mod_eq_of_lt (by unfold sizeofBlock; omega)
  have rounded := @roundUp_sixteen (b + 40 + n + 40) (by omega)
  refine ⟨data, ?_, ?_⟩
  · rw [data]
    exact Nat.mod_eq_of_lt (by omega)
  · rw [data, request, behind, rounded, restHeaderEnd]
    have sum : b + 40 + n + 40 + 16 = b + 96 + n := by omega
    rw [sum]

/-- The code of `found_block` that splits a block. -/
def splitFound (b n new rest : Nat) (mem : Memory) : Memory :=
  let mem := storeU64 (blockSizeInBytes new) rest mem
  let mem := storeU64 (blockPrev new) b mem
  let mem := storeU64 (blockNext new) (loadU64 mem (blockNext b)) mem
  let mem := storeU8 (blockUsed new) 0 mem
  let mem := storeU64 (blockContainer new) (loadU64 mem (blockContainer b)) mem
  let mem := storeU64 (blockNext b) new mem
  let next := loadU64 mem (blockNext new)
  let mem := if next ≠ NULL then storeU64 (blockPrev next) new mem else mem
  storeU64 (blockSizeInBytes b) n mem

/-- The loads between the stores of a split see the words of the block. -/
theorem splitFound_eq {b n new rest next container : Nat} {mem : Memory} (places : SplitPlaces b new next)
    (nextAt : loadU64 mem (b + 24) = next) (ownerAt : loadU64 mem (b + 32) = container) :
    splitFound b n new rest mem = splitBlock b n new rest next container mem := by
  obtain ⟨aligned, alignedNew, behind, room, -⟩ := places
  have smallNext : next < 2 ^ 64 := nextAt ▸ loadU64_lt _ _
  have first : loadU64 (storeU64 (new + 16) b (storeU64 new rest mem)) (b + 24) = next := by
    rw [loadU64_storeU64_ne (by omega) (by omega) (by omega) (by omega) (by omega),
      loadU64_storeU64_ne (by omega) (by omega) (by omega) (by omega) (by omega), nextAt]
  have second : loadU64 (storeU8 (new + 8) 0 (storeU64 (new + 24) next (storeU64 (new + 16) b
      (storeU64 new rest mem)))) (b + 32) = container := by
    rw [loadU64_storeU8_ne (by omega) (by omega) (by omega) (by omega) (by omega),
      loadU64_storeU64_ne (by omega) (by omega) (by omega) (by omega) (by omega),
      loadU64_storeU64_ne (by omega) (by omega) (by omega) (by omega) (by omega),
      loadU64_storeU64_ne (by omega) (by omega) (by omega) (by omega) (by omega), ownerAt]
  have third : loadU64 (storeU64 (b + 24) new (storeU64 (new + 32) container (storeU8 (new + 8) 0
      (storeU64 (new + 24) next (storeU64 (new + 16) b (storeU64 new rest mem)))))) (new + 24) = next := by
    rw [loadU64_storeU64_ne (by omega) (by omega) (by omega) (by omega) (by omega),
      loadU64_storeU64_ne (by omega) (by omega) (by omega) (by omega) (by omega),
      loadU64_storeU8_ne (by omega) (by omega) (by omega) (by omega) (by omega),
      loadU64_storeU64 smallNext]
  simp only [splitFound, blockSizeInBytes, blockPrev, blockNext, blockUsed, blockContainer, first, second,
    third]
  rfl

/-- The memory with a block marked and its container counting it. -/
def markBlock (b container count used : Nat) (mem : Memory) : Memory :=
  storeU64 (container + 8) count (storeU8 (b + 8) used mem)

/-- The code behind `found_block` marks the block and splits it where the list does. -/
theorem foundBlock_eq (holds : c.Holds mem) (fits : c.Fits) (split : c.blks = before ++ b :: after)
    (large : n ≤ b.size) :
    foundBlock b.header n mem =
      if restHeaderEnd b.header n ≥ b.stop then markBlock b.header c.addr (c.usedCount + 1) 1 mem
      else splitBlock b.header n (restHeaderEnd b.header n - 40) (b.stop - restHeaderEnd b.header n)
        (nextHeader after) c.addr (markBlock b.header c.addr (c.usedCount + 1) 1 mem) := by
  have around := fits.around split
  have page := fits.aligned
  have bounded := fits.bounded
  have room : c.stop + 4096 ≤ 2 ^ 64 := by
    unfold Cont.stop at bounded ⊢
    omega
  have low := around.low
  have high := around.high
  have place := around.aligned
  have few := fits.usedCount_lt
  have data := holds.data b (by simp [split])
  obtain ⟨nextAt, -⟩ := fits.next_header split
  unfold Blk.stop at high nextAt
  have owner : loadU64 (storeU8 (b.header + 8) 1 mem) (b.header + 32) = c.addr := by
    rw [loadU64_storeU8_ne (by omega) (by omega) (by omega) (by omega) (by omega)]
    exact data.container
  have counted : u64 (loadU64 (storeU8 (b.header + 8) 1 mem) (c.addr + 8) + 1) = c.usedCount + 1 := by
    rw [loadU64_storeU8_ne (by omega) (by omega) (by omega) (by omega) (by omega), holds.used]
    exact Nat.mod_eq_of_lt few
  have marked : ∀ addr, addr % 8 = 0 → addr + 8 ≤ 2 ^ 64 → addr ≠ c.addr + 8 → addr ≠ b.header + 8 →
      loadU64 (markBlock b.header c.addr (c.usedCount + 1) 1 mem) addr = loadU64 mem addr := by
    intro addr aligned room first second
    rw [markBlock, loadU64_storeU64_ne (by omega) (by omega) aligned room first,
      loadU64_storeU8_ne (by omega) (by omega) aligned room second]
  have sizeAt := marked b.header (by omega) (by omega) (by omega) (by omega)
  have nextLoad := marked (b.header + 24) (by omega) (by omega) (by omega) (by omega)
  have ownerLoad := marked (b.header + 32) (by omega) (by omega) (by omega) (by omega)
  rw [data.size] at sizeAt
  rw [holds.next_eq split] at nextLoad
  rw [data.container] at ownerLoad
  have ends := @restHeaderEnd_bounds b.header n place
  obtain ⟨dataEq, stopEq, endEq⟩ := foundBlock_addresses high room large
  have places : restHeaderEnd b.header n < b.stop →
      SplitPlaces b.header (restHeaderEnd b.header n - 40) (nextHeader after) := by
    unfold Blk.stop
    clear dataEq stopEq endEq owner counted marked sizeAt nextLoad ownerLoad
    generalize restHeaderEnd b.header n = stop at *
    generalize nextHeader after = next at *
    intro inside
    refine ⟨by omega, by omega, by omega, by omega, ?_⟩
    intro nonnull
    have nonzero : next ≠ 0 := nonnull
    omega
  have newEq : restHeaderEnd b.header n < b.stop →
      subU64 (restHeaderEnd b.header n) sizeofBlock = restHeaderEnd b.header n - 40 := by
    unfold Blk.stop
    clear dataEq stopEq endEq owner counted marked sizeAt nextLoad ownerLoad places
    generalize restHeaderEnd b.header n = stop at *
    intro inside
    exact subU64_eq (by omega) (by unfold sizeofBlock; omega)
  have restEq : restHeaderEnd b.header n < b.stop →
      subU64 b.stop (restHeaderEnd b.header n) = b.stop - restHeaderEnd b.header n := by
    unfold Blk.stop
    clear dataEq stopEq endEq owner counted marked sizeAt nextLoad ownerLoad places newEq
    generalize restHeaderEnd b.header n = stop at *
    intro inside
    exact subU64_eq (by omega) (by omega)
  have shape : foundBlock b.header n mem =
      if restHeaderEnd b.header n ≥ b.stop then markBlock b.header c.addr (c.usedCount + 1) 1 mem
      else splitFound b.header n (subU64 (restHeaderEnd b.header n) sizeofBlock)
        (subU64 b.stop (restHeaderEnd b.header n)) (markBlock b.header c.addr (c.usedCount + 1) 1 mem) := by
    have stopIs : b.stop = b.header + 40 + b.size := rfl
    rw [stopIs, ← stopEq, ← endEq, ← sizeAt]
    simp only [foundBlock, blockUsed, blockContainer, containerUsedBlocks, owner, counted]
    rfl
  rw [shape]
  by_cases full : restHeaderEnd b.header n ≥ b.stop
  · rw [if_pos full, if_pos full]
  · have inside : restHeaderEnd b.header n < b.stop := Nat.lt_of_not_le full
    rw [if_neg full, if_neg full, newEq inside, restEq inside]
    exact splitFound_eq (places inside) nextLoad ownerLoad

/-- Taking a block keeps the container well formed. -/
theorem Cont.Fits.take (fits : c.Fits) (split : c.blks = before ++ b :: after) :
    (c.take before b after n).Fits := by
  have around := fits.around split
  have ends := @restHeaderEnd_bounds b.header n around.aligned
  unfold Cont.take
  split_ifs with full
  · exact fits.mark split true
  · have stopIs : b.stop = b.header + 40 + b.size := rfl
    have inside : restHeaderEnd b.header n < b.stop := Nat.lt_of_not_le full
    have stopIs' : Blk.stop { b with used := true } = b.stop := rfl
    generalize restHeaderEnd b.header n = stop at *
    apply (fits.mark split true).split rfl
    · show b.header + 40 + n ≤ stop - 40
      omega
    · omega
    · rw [stopIs']
      omega

/-- Taking a block does to memory what it does to the list. -/
theorem Cont.Holds.take (holds : c.Holds mem) (fits : c.Fits) (split : c.blks = before ++ b :: after)
    (free : b.used = false) (large : n ≤ b.size) :
    (c.take before b after n).Holds (foundBlock b.header n mem) := by
  have around := fits.around split
  have ends := @restHeaderEnd_bounds b.header n around.aligned
  have counted := (Cont.usedCount_mark split free).symm
  have marked := holds.mark fits split true counted fits.usedCount_lt
  have stopIs' : Blk.stop { b with used := true } = b.stop := rfl
  rw [foundBlock_eq holds fits split large]
  unfold Cont.take
  by_cases full : restHeaderEnd b.header n ≥ b.stop
  · rw [if_pos full, if_pos full]
    exact marked
  · rw [if_neg full, if_neg full]
    have inside : restHeaderEnd b.header n < b.stop := Nat.lt_of_not_le full
    generalize restHeaderEnd b.header n = stop at *
    apply Cont.Holds.split marked (fits.mark split true) rfl
    · show b.header + 40 + n ≤ stop - 40
      omega
    · omega
    · rw [stopIs']
      omega

/-- Taking a block touches its container only. -/
theorem foundBlock_touches (holds : c.Holds mem) (fits : c.Fits) (split : c.blks = before ++ b :: after)
    (free : b.used = false) (large : n ≤ b.size) : c.Touches mem (foundBlock b.header n mem) := by
  have around := fits.around split
  have page := fits.aligned
  have bounded := fits.bounded
  have low := around.low
  have high := around.high
  have place := around.aligned
  have stopIs : b.stop = b.header + 40 + b.size := rfl
  have ends := @restHeaderEnd_bounds b.header n place
  obtain ⟨nextAt, -⟩ := fits.next_header split
  have start : 4096 ≤ c.addr := by
    have nonnull : c.addr ≠ 0 := fits.nonnull
    omega
  have apart : ∀ d ∈ c.blks, d.used = true →
      d.stop ≤ b.header ∨ b.stop ≤ d.header ∧ nextHeader after ≤ d.header := by
    intro d member used
    rw [split, List.mem_append, List.mem_cons] at member
    rcases member with earlier | rfl | later
    · exact Or.inl (around.before d earlier).2.1
    · rw [free] at used
      cases used
    · exact Or.inr ⟨(around.after d later).1, fits.next_le split later⟩
  have marks : Agrees [c.addr + 8, b.header + 8] mem (markBlock b.header c.addr (c.usedCount + 1) 1 mem) :=
    ((Agrees.refl mem).storeU8 ⟨by omega, by omega⟩).storeU64 ⟨by omega, by omega⟩
  rw [foundBlock_eq holds fits split large]
  split_ifs with full
  · apply fits.touches marks
    intro word member
    simp only [List.mem_cons, List.not_mem_nil, or_false] at member
    right
    refine ⟨by omega, by omega, by omega, ?_⟩
    intro d listed used
    have place := fits.inside d listed
    have away := apart d listed used
    omega
  · have inside : restHeaderEnd b.header n < b.stop := Nat.lt_of_not_le full
    generalize restHeaderEnd b.header n = stop at *
    generalize nextHeader after = next at *
    have places : SplitPlaces b.header (stop - 40) next := by
      refine ⟨by omega, by omega, by omega, by omega, ?_⟩
      intro nonnull
      have nonzero : next ≠ 0 := nonnull
      omega
    have values := @splitBlock_values b.header n (stop - 40) (b.stop - stop) next c.addr
      (markBlock b.header c.addr (c.usedCount + 1) 1 mem) places (by omega) (by omega) (by omega) (by omega)
    apply fits.touches (marks.trans values.agrees)
    intro word member
    simp only [splitWords, List.mem_append, List.mem_cons, List.not_mem_nil, or_false] at member
    by_cases null : word = next + 16 ∧ next = 0
    · left
      omega
    · right
      refine ⟨by omega, by omega, by omega, ?_⟩
      intro d listed used
      have place := fits.inside d listed
      have away := apart d listed used
      omega

/-- A block can serve a request when it is free and large enough. -/
def Blk.Serves (b : Blk) (n : Nat) : Prop := b.used = false ∧ n ≤ b.size

/-- The search stops at the first block that can serve the request. -/
theorem tryAllocBlockSearch_spec (holds : c.Holds mem) (fits : c.Fits) {passed rest : List Blk} {steps : Nat}
    (split : c.blks = passed ++ rest) (enough : rest.length < steps) :
    (tryAllocBlockSearch mem n steps (nextHeader rest) = .ok NULL ∧ ∀ d ∈ rest, ¬d.Serves n) ∨
    ∃ before b after, rest = before ++ b :: after ∧ b.Serves n ∧ (∀ d ∈ before, ¬d.Serves n) ∧
      tryAllocBlockSearch mem n steps (nextHeader rest) = .ok b.header := by
  induction rest generalizing passed steps with
  | nil =>
      obtain ⟨steps, rfl⟩ := Nat.exists_eq_succ_of_ne_zero (Nat.ne_of_gt enough)
      exact Or.inl ⟨rfl, by simp⟩
  | cons b rest ih =>
      obtain ⟨steps, rfl⟩ := Nat.exists_eq_succ_of_ne_zero (Nat.ne_of_gt (Nat.zero_lt_of_lt enough))
      have listed : b ∈ c.blks := by simp [split]
      have data := holds.data b listed
      have place := fits.inside b listed
      have nonnull : b.header ≠ NULL := by
        unfold NULL
        omega
      have following := holds.next_eq split
      have head : nextHeader (b :: rest) = b.header := rfl
      have test : loadU8 mem (blockUsed b.header) = 0 ∧ loadU64 mem (blockSizeInBytes b.header) ≥ n ↔
          b.Serves n := by
        rw [blockUsed, data.used, blockSizeInBytes, data.size, Blk.Serves]
        cases b.used <;> simp
      rw [head, tryAllocBlockSearch, if_neg nonnull]
      by_cases serves : b.Serves n
      · right
        refine ⟨[], b, rest, rfl, serves, by simp, ?_⟩
        rw [if_pos (test.mpr serves)]
      · have next : loadU64 mem (blockNext b.header) = nextHeader rest := following
        rw [if_neg fun both => serves (test.mp both), next]
        have later : c.blks = (passed ++ [b]) ++ rest := by simp [split]
        rw [List.length_cons] at enough
        rcases @ih (passed ++ [b]) steps later (by omega) with ⟨none, unfit⟩ | ⟨before, d, after, shape, fit, unfit, found⟩
        · left
          refine ⟨none, ?_⟩
          intro d member
          rcases List.mem_cons.mp member with rfl | inside
          · exact serves
          · exact unfit d inside
        · right
          refine ⟨b :: before, d, after, by simp [shape], fit, ?_, found⟩
          intro d member
          rcases List.mem_cons.mp member with rfl | inside
          · exact serves
          · exact unfit d inside

/-- An attempt takes the first block that can serve the request, or leaves the memory as it is. -/
theorem tryAllocBlock_spec (holds : c.Holds mem) (fits : c.Fits) (n : Nat) :
    (tryAllocBlock c.addr n mem = .ok (NULL, mem) ∧ ∀ d ∈ c.blks, ¬d.Serves n) ∨
    ∃ before b after, c.blks = before ++ b :: after ∧ b.Serves n ∧ (∀ d ∈ before, ¬d.Serves n) ∧
      tryAllocBlock c.addr n mem = .ok (b.header, foundBlock b.header n mem) := by
  have first : loadU64 mem (containerBlock c.addr) = nextHeader c.blks := by
    have start := fits.first
    rw [containerBlock, holds.block]
    cases blks : c.blks with
    | nil =>
        rw [blks] at start
        cases start
    | cons b rest =>
        rw [blks] at start
        exact (Option.some.inj start).symm
  have few := fits.length_lt
  have limit : c.blks.length < walkLimit := by
    unfold walkLimit
    omega
  have whole : c.blks = [] ++ c.blks := rfl
  rcases @tryAllocBlockSearch_spec c mem n holds fits [] c.blks walkLimit whole limit with
    ⟨none, unfit⟩ | ⟨before, b, after, split, serves, earlier, found⟩
  · left
    refine ⟨?_, unfit⟩
    rw [tryAllocBlock, first, none]
    rfl
  · right
    have place := fits.inside b (by simp [split])
    have nonnull : b.header ≠ NULL := by
      unfold NULL
      omega
    refine ⟨before, b, after, split, serves, earlier, ?_⟩
    rw [tryAllocBlock, first, found]
    show (if b.header = NULL then _ else _) = _
    rw [if_neg nonnull]

end

end B0s
