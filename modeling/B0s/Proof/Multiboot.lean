import B0s.Library.OffsetChain
import B0s.Construction.Multiboot
import B0s.Proof.Machine

/-
This file proves when `read_tags` reads the tags of the block of the bootloader and nothing behind them.
-/

namespace B0s
open ByteMemory OffsetChain

section
variable (mem : Memory) (mbInfos : Nat)

/-- The offset of the first multiple of 8 bytes behind a tag. -/
def tagNext (tag : Nat) : Nat := tag + (tagSize mem mbInfos tag + 7) / 8 * 8

/-- The tags from an offset on, up to the end tag or the end of the block. -/
abbrev TagChain : Nat → Nat → Prop :=
  Chain (tagNext mem mbInfos) (fun tag => tagType mem mbInfos tag = multibootTagTypeEnd) (loadU32 mem mbInfos)

/-- The tags of a type in the block. -/
def tagsOf (type : Nat) : Set Nat := {tag | TagChain mem mbInfos 8 tag ∧ tagType mem mbInfos tag = type}

/-- An offset is in the block, or it lies behind the end that the loop computes. -/
def Landed (tag : Nat) : Prop := tag < loadU32 mem mbInfos ∨ sizeofMultibootTag * loadU32 mem mbInfos ≤ tag

/-- A size that is not zero and that does not overflow leads to the next tag or behind the computed end. -/
def TagSized (tag : Nat) : Prop :=
  0 < tagSize mem mbInfos tag ∧ tagSize mem mbInfos tag + 7 < 2 ^ 32 ∧ Landed mem mbInfos (tagNext mem mbInfos tag)

def TagsSized (start : Nat) : Prop :=
  ∀ tag, TagChain mem mbInfos start tag → tagType mem mbInfos tag ≠ multibootTagTypeEnd → TagSized mem mbInfos tag

end

section
variable {undefined : Nat → Nat} {mem : Memory} {mbInfos tag : Nat}

theorem tagChain_iff {start : Nat} : TagChain mem mbInfos start tag ↔ start < loadU32 mem mbInfos ∧
    (tag = start ∨ tagType mem mbInfos start ≠ multibootTagTypeEnd ∧ TagChain mem mbInfos (tagNext mem mbInfos start) tag) :=
  chain_iff

theorem le_tagNext (mem : Memory) (mbInfos tag : Nat) : tag ≤ tagNext mem mbInfos tag :=
  Nat.le_add_right tag _

theorem tagStep_eq (mem : Memory) (mbInfos tag : Nat) :
    tagStep mem mbInfos tag = (tagSize mem mbInfos tag + 7) % 2 ^ 32 / 8 * 8 :=
  WordBits.and_high_mask (by decide : 3 ≤ 32) (Nat.mod_lt _ (by decide))

theorem TagSized.step (sized : TagSized mem mbInfos tag) : tag + tagStep mem mbInfos tag = tagNext mem mbInfos tag := by
  rw [tagStep_eq, Nat.mod_eq_of_lt sized.2.1, tagNext]

theorem TagSized.lt_next (sized : TagSized mem mbInfos tag) : tag < tagNext mem mbInfos tag := by
  have positive := sized.1
  unfold tagNext
  omega

/-- A step that advances has a size that is not zero and that does not overflow. -/
theorem size_of_tagStep (advance : tagStep mem mbInfos tag ≠ 0) :
    0 < tagSize mem mbInfos tag ∧ tagSize mem mbInfos tag + 7 < 2 ^ 32 := by
  have small : tagSize mem mbInfos tag < 2 ^ 32 := loadU32_lt mem _
  rw [tagStep_eq] at advance
  omega

/-- With good sizes, the loop visits the tags of the block in order. -/
theorem readTagsFrom_spec (undefined : Nat → Nat) {steps start : Nat} (landed : Landed mem mbInfos start)
    (sized : TagsSized mem mbInfos start) (enough : sizeofMultibootTag * loadU32 mem mbInfos - start < steps)
    (tags : BootTags) :
    ∃ visited, readTagsFrom undefined mem mbInfos (loadU32 mem mbInfos) steps start tags =
        .ok (visited.foldl (fun tags tag => readTag undefined mem mbInfos tag tags) tags, visited) ∧
      visited.Pairwise (· < ·) ∧ ∀ tag, tag ∈ visited ↔ TagChain mem mbInfos start tag := by
  induction steps generalizing start tags with
  | zero => exact absurd enough (Nat.not_lt_zero _)
  | succ steps ih =>
      rw [readTagsFrom]
      dsimp only
      split_ifs with before last
      · have inside : start < loadU32 mem mbInfos := landed.resolve_right (Nat.not_le_of_lt before)
        refine ⟨[start], rfl, List.pairwise_singleton _ _, ?_⟩
        intro tag
        rw [List.mem_singleton, tagChain_iff]
        exact ⟨fun same => ⟨inside, Or.inl same⟩, fun chain => chain.2.resolve_right fun later => later.1 last⟩
      · have inside : start < loadU32 mem mbInfos := landed.resolve_right (Nat.not_le_of_lt before)
        have here := sized start (Chain.here inside) last
        have forward := here.lt_next
        have rest : TagsSized mem mbInfos (tagNext mem mbInfos start) :=
          fun tag chain => sized tag (Chain.there inside last chain)
        obtain ⟨visited, ran, sorted, exact_visited⟩ := ih here.2.2 rest (by omega) (readTag undefined mem mbInfos start tags)
        refine ⟨start :: visited, ?_, ?_, ?_⟩
        · rw [here.step, ran]
          rfl
        · refine List.pairwise_cons.mpr ⟨fun tag member => ?_, sorted⟩
          exact lt_of_lt_of_le forward (((exact_visited tag).mp member).le (le_tagNext mem mbInfos))
        · intro tag
          rw [List.mem_cons, exact_visited, @tagChain_iff mem mbInfos tag start]
          exact ⟨fun member => ⟨inside, member.imp_right fun chain => ⟨last, chain⟩⟩,
            fun chain => chain.2.imp_right And.right⟩
      · refine ⟨[], rfl, List.Pairwise.nil, fun tag => ⟨fun member => absurd member List.not_mem_nil, fun chain => ?_⟩⟩
        have inside := chain.start_lt
        unfold sizeofMultibootTag at before
        omega

/-- A tag that does not advance is read forever. -/
theorem readTagsFrom_stuck (undefined : Nat → Nat) {size : Nat} (before : tag < sizeofMultibootTag * size)
    (more : tagType mem mbInfos tag ≠ multibootTagTypeEnd) (zero : tagStep mem mbInfos tag = 0) (steps : Nat)
    (tags : BootTags) : readTagsFrom undefined mem mbInfos size steps tag tags = .error .diverges := by
  induction steps generalizing tags with
  | zero => rfl
  | succ steps ih =>
      rw [readTagsFrom, if_pos before]
      dsimp only
      rw [if_neg more, zero]
      exact congrArg (· >>= _) (ih (readTag undefined mem mbInfos tag tags))

/-- A loop that ends and that reads tags of the block only meets good sizes. -/
theorem readTagsFrom_sized {steps start : Nat} {tags tags' : BootTags} {reads : List Nat}
    (ran : readTagsFrom undefined mem mbInfos (loadU32 mem mbInfos) steps start tags = .ok (tags', reads))
    (inside : ∀ tag ∈ reads, tag < loadU32 mem mbInfos) : Landed mem mbInfos start ∧ TagsSized mem mbInfos start := by
  induction steps generalizing start tags tags' reads with
  | zero => cases ran
  | succ steps ih =>
      have whole := ran
      rw [readTagsFrom] at ran
      dsimp only at ran
      split_ifs at ran with before last
      · obtain ⟨-, rfl⟩ := Prod.mk.inj (Except.ok.inj ran)
        refine ⟨Or.inl (inside start (List.mem_singleton_self start)), ?_⟩
        intro tag chain more
        rcases (tagChain_iff.mp chain).2 with rfl | ⟨more', -⟩
        · exact absurd last more
        · exact absurd last more'
      · obtain ⟨⟨final, later⟩, walked, result⟩ := Outcome.bind_eq_ok.mp ran
        obtain ⟨-, rfl⟩ := Prod.mk.inj (Except.ok.inj result)
        have advance : tagStep mem mbInfos start ≠ 0 := by
          intro zero
          rw [readTagsFrom_stuck undefined before last zero] at whole
          cases whole
        obtain ⟨positive, small⟩ := size_of_tagStep advance
        have next : start + tagStep mem mbInfos start = tagNext mem mbInfos start := by
          rw [tagStep_eq, Nat.mod_eq_of_lt small, tagNext]
        rw [next] at walked
        obtain ⟨landed, sized⟩ := ih walked fun tag member => inside tag (List.mem_cons_of_mem _ member)
        refine ⟨Or.inl (inside start List.mem_cons_self), ?_⟩
        intro tag chain more
        rcases (tagChain_iff.mp chain).2 with rfl | ⟨-, rest⟩
        · exact ⟨positive, small, landed⟩
        · exact sized tag rest more
      · refine ⟨Or.inr (Nat.le_of_not_lt before), fun tag chain => ?_⟩
        have inside := chain.start_lt
        unfold sizeofMultibootTag at before
        omega

theorem readTag_bitmap (tags : BootTags) : (readTag undefined mem mbInfos tag tags).bitmap =
    tags.bitmap ||| intShift undefined (tagType mem mbInfos tag) % 2 ^ 32 := by
  unfold readTag
  dsimp only
  split_ifs <;> rfl

theorem readTag_rsdp (tags : BootTags) : (readTag undefined mem mbInfos tag tags).rsdp =
    if tagType mem mbInfos tag = multibootTagTypeAcpiOld then p2v (mbInfos + tag + sizeofMultibootTag) else tags.rsdp := by
  unfold readTag
  dsimp only
  split_ifs <;> rfl

theorem readTag_mmap (tags : BootTags) : (readTag undefined mem mbInfos tag tags).mmap =
    if tagType mem mbInfos tag = multibootTagTypeMmap then p2v (mbInfos + tag) else tags.mmap := by
  unfold readTag
  dsimp only
  split_ifs with acpi mmap
  · rw [acpi] at mmap
    exact absurd mmap (by decide)
  · rfl
  · rfl
  · rfl

/-- The bits of the bitmap are those of the shifts. -/
theorem testBit_bitmap (undefined : Nat → Nat) (mem : Memory) (mbInfos : Nat) (visited : List Nat) (tags : BootTags)
    (bit : Nat) :
    (visited.foldl (fun tags tag => readTag undefined mem mbInfos tag tags) tags).bitmap.testBit bit = true ↔
      tags.bitmap.testBit bit = true ∨
        ∃ tag ∈ visited, (intShift undefined (tagType mem mbInfos tag) % 2 ^ 32).testBit bit = true := by
  induction visited generalizing tags with
  | nil => simp
  | cons tag rest ih =>
      rw [List.foldl_cons, ih, readTag_bitmap, Nat.testBit_or, Bool.or_eq_true, List.exists_mem_cons_iff, or_assoc]

theorem intShift_low (undefined : Nat → Nat) {type : Nat} (low : type < 32) :
    intShift undefined type % 2 ^ 32 = 2 ^ type := by
  unfold intShift
  split_ifs with small last
  · exact Nat.mod_eq_of_lt (Nat.pow_lt_pow_right (by decide) low)
  · rw [last]
    decide
  · omega

theorem expectedBitmap_kept (bitmap : Nat) : bitmap &&& expectedBitmap = expectedBitmap ↔
    bitmap.testBit multibootTagTypeAcpiOld = true ∧ bitmap.testBit multibootTagTypeMmap = true := by
  have expected : ∀ bit, expectedBitmap.testBit bit =
      (decide (multibootTagTypeAcpiOld = bit) || decide (multibootTagTypeMmap = bit)) := by
    intro bit
    rw [expectedBitmap, Nat.testBit_or, Nat.testBit_two_pow, Nat.testBit_two_pow]
  constructor
  · intro kept
    have bits : ∀ bit, (bitmap.testBit bit && expectedBitmap.testBit bit) = expectedBitmap.testBit bit := by
      intro bit
      rw [← Nat.testBit_and, kept]
    have acpi := bits multibootTagTypeAcpiOld
    have mmap := bits multibootTagTypeMmap
    rw [expected] at acpi mmap
    simpa using And.intro acpi mmap
  · rintro ⟨acpi, mmap⟩
    apply Nat.eq_of_testBit_eq
    intro bit
    rw [Nat.testBit_and, expected]
    by_cases first : multibootTagTypeAcpiOld = bit
    · rw [← first, acpi, Bool.true_and]
    · by_cases second : multibootTagTypeMmap = bit
      · rw [← second, mmap, Bool.true_and]
      · simp [first, second]

end

section
variable (undefined : Nat → Nat) (mem : Memory) (mbInfos : Nat)

/-- Both tags that the kernel needs are in the block. -/
def Complete : Prop :=
  (tagsOf mem mbInfos multibootTagTypeAcpiOld).Nonempty ∧ (tagsOf mem mbInfos multibootTagTypeMmap).Nonempty

/-- The call ends and reads tags of the block only. It results in 0 exactly when both tags are there, and then it has
kept the last ones. -/
def ReadsTags : Prop :=
  ∃ missing tags reads, readTags undefined mem mbInfos = .ok (missing, tags, reads) ∧
    (∀ tag ∈ reads, tag < loadU32 mem mbInfos) ∧ (missing = 0 ↔ Complete mem mbInfos) ∧
    (missing = 0 → ∃ acpi mmap, IsGreatest (tagsOf mem mbInfos multibootTagTypeAcpiOld) acpi ∧
      IsGreatest (tagsOf mem mbInfos multibootTagTypeMmap) mmap ∧
        tags.rsdp = p2v (mbInfos + acpi + sizeofMultibootTag) ∧ tags.mmap = p2v (mbInfos + mmap))

end

section
variable {undefined : Nat → Nat} {mem : Memory} {mbInfos : Nat}

theorem ReadsTags.sized (read : ReadsTags undefined mem mbInfos) :
    Landed mem mbInfos 8 ∧ TagsSized mem mbInfos 8 := by
  obtain ⟨missing, tags, reads, ran, inside, -⟩ := read
  obtain ⟨⟨final, visited⟩, walked, result⟩ := Outcome.bind_eq_ok.mp ran
  obtain ⟨-, rest⟩ := Prod.mk.inj (Except.ok.inj result)
  obtain ⟨-, rfl⟩ := Prod.mk.inj rest
  exact readTagsFrom_sized walked inside

/-- With good sizes, the call results in 0 exactly when the shifts of the visited tags set both bits. -/
theorem readTags_spec (undefined : Nat → Nat) (landed : Landed mem mbInfos 8) (sized : TagsSized mem mbInfos 8) :
    ∃ missing tags visited, readTags undefined mem mbInfos = .ok (missing, tags, visited) ∧
      (∀ tag, tag ∈ visited ↔ TagChain mem mbInfos 8 tag) ∧
      (missing = 0 ↔
        (∃ tag, TagChain mem mbInfos 8 tag ∧
          (intShift undefined (tagType mem mbInfos tag) % 2 ^ 32).testBit multibootTagTypeAcpiOld = true) ∧
        ∃ tag, TagChain mem mbInfos 8 tag ∧
          (intShift undefined (tagType mem mbInfos tag) % 2 ^ 32).testBit multibootTagTypeMmap = true) ∧
      (Complete mem mbInfos → ∃ acpi mmap, IsGreatest (tagsOf mem mbInfos multibootTagTypeAcpiOld) acpi ∧
        IsGreatest (tagsOf mem mbInfos multibootTagTypeMmap) mmap ∧
          tags.rsdp = p2v (mbInfos + acpi + sizeofMultibootTag) ∧ tags.mmap = p2v (mbInfos + mmap)) := by
  have small := loadU32_lt mem mbInfos
  have enough : sizeofMultibootTag * loadU32 mem mbInfos - 8 < walkLimit := by
    unfold sizeofMultibootTag walkLimit
    omega
  obtain ⟨visited, ran, sorted, chain⟩ := readTagsFrom_spec undefined landed sized enough ⟨0, NULL, NULL⟩
  have listed : ∀ type, tagsOf mem mbInfos type = {tag | tag ∈ visited ∧ tagType mem mbInfos tag = type} := by
    intro type
    ext tag
    exact and_congr_left fun _ => (chain tag).symm
  have called : readTags undefined mem mbInfos =
      .ok (if (visited.foldl (fun tags tag => readTag undefined mem mbInfos tag tags) ⟨0, NULL, NULL⟩).bitmap &&&
          expectedBitmap ≠ expectedBitmap then 1 else 0,
        visited.foldl (fun tags tag => readTag undefined mem mbInfos tag tags) ⟨0, NULL, NULL⟩, visited) := by
    rw [readTags, ran]
    rfl
  refine ⟨_, _, visited, called, chain, ?_, ?_⟩
  · simp only [ite_eq_right_iff, one_ne_zero, imp_false, not_not, expectedBitmap_kept, testBit_bitmap, chain,
      Nat.zero_testBit, Bool.false_eq_true, false_or]
  · rintro ⟨⟨acpi, someAcpi⟩, mmap, someMmap⟩
    rw [listed] at someAcpi someMmap
    obtain ⟨lastAcpi, greatestAcpi, rsdp⟩ := @foldl_keeps_last _ _ _ _
      (fun tag => tagType mem mbInfos tag = multibootTagTypeAcpiOld) _ _ (fun tags tag => readTag_rsdp tags)
      ⟨0, NULL, NULL⟩ visited sorted ⟨acpi, someAcpi⟩
    obtain ⟨lastMmap, greatestMmap, mmap⟩ := @foldl_keeps_last _ _ _ _
      (fun tag => tagType mem mbInfos tag = multibootTagTypeMmap) _ _ (fun tags tag => readTag_mmap tags)
      ⟨0, NULL, NULL⟩ visited sorted ⟨mmap, someMmap⟩
    rw [listed, listed]
    exact ⟨lastAcpi, lastMmap, greatestAcpi, greatestMmap, rsdp, mmap⟩

/-- The shift of a listed type sets its bit. -/
theorem Complete.bits (complete : Complete mem mbInfos) (undefined : Nat → Nat) :
    (∃ tag, TagChain mem mbInfos 8 tag ∧
      (intShift undefined (tagType mem mbInfos tag) % 2 ^ 32).testBit multibootTagTypeAcpiOld = true) ∧
    ∃ tag, TagChain mem mbInfos 8 tag ∧
      (intShift undefined (tagType mem mbInfos tag) % 2 ^ 32).testBit multibootTagTypeMmap = true := by
  obtain ⟨⟨acpi, chainAcpi, isAcpi⟩, mmap, chainMmap, isMmap⟩ := complete
  refine ⟨⟨acpi, chainAcpi, ?_⟩, mmap, chainMmap, ?_⟩
  · rw [isAcpi, intShift_low undefined (by decide), Nat.testBit_two_pow_self]
  · rw [isMmap, intShift_low undefined (by decide), Nat.testBit_two_pow_self]

/-- The bit of a low type is set by tags of this type only. -/
theorem tagsOf_bit {type : Nat} (low : ∀ tag, TagChain mem mbInfos 8 tag → tagType mem mbInfos tag < 32)
    (set : ∃ tag, TagChain mem mbInfos 8 tag ∧
      (intShift undefined (tagType mem mbInfos tag) % 2 ^ 32).testBit type = true) :
    (tagsOf mem mbInfos type).Nonempty := by
  obtain ⟨tag, chain, bit⟩ := set
  rw [intShift_low undefined (low tag chain), Nat.testBit_two_pow, decide_eq_true_eq] at bit
  exact ⟨tag, chain, bit⟩

/-- Whatever the undefined shifts are, the tags are read right exactly when the first offset and the sizes lead to tags
of the block or behind the computed end, and all types are below 32 or both tags are there. -/
theorem readTags_readsTags_iff (mem : Memory) (mbInfos : Nat) :
    (∀ undefined, ReadsTags undefined mem mbInfos) ↔
      Landed mem mbInfos 8 ∧ TagsSized mem mbInfos 8 ∧
        ((∀ tag, TagChain mem mbInfos 8 tag → tagType mem mbInfos tag < 32) ∨ Complete mem mbInfos) := by
  constructor
  · intro read
    obtain ⟨landed, sized⟩ := (read fun _ => expectedBitmap).sized
    refine ⟨landed, sized, ?_⟩
    by_contra! neither
    obtain ⟨⟨tag, chain, high⟩, incomplete⟩ := neither
    obtain ⟨missing, tags, visited, ran, -, bits, -⟩ := readTags_spec (fun _ => expectedBitmap) landed sized
    obtain ⟨missing', tags', reads, ran', -, zero, -⟩ := read fun _ => expectedBitmap
    obtain ⟨rfl, -⟩ := Prod.mk.inj (Except.ok.inj (ran.symm.trans ran'))
    -- An undefined shift may set both bits.
    have shift : intShift (fun _ => expectedBitmap) (tagType mem mbInfos tag) % 2 ^ 32 = expectedBitmap := by
      rw [intShift, if_neg (by omega), if_neg (by omega)]
      decide
    refine incomplete (zero.mp (bits.mpr ⟨⟨tag, chain, ?_⟩, tag, chain, ?_⟩))
    · rw [shift]
      decide
    · rw [shift]
      decide
  · rintro ⟨landed, sized, types⟩ undefined
    obtain ⟨missing, tags, visited, ran, exact_visited, bits, kept⟩ := readTags_spec undefined landed sized
    have zero : missing = 0 ↔ Complete mem mbInfos := by
      refine bits.trans ⟨?_, fun complete => complete.bits undefined⟩
      rintro ⟨acpi, mmap⟩
      rcases types with low | complete
      · exact ⟨tagsOf_bit low acpi, tagsOf_bit low mmap⟩
      · exact complete
    refine ⟨missing, tags, visited, ran, ?_, zero, fun none => kept (zero.mp none)⟩
    intro tag member
    exact ((exact_visited tag).mp member).lt

end

/-- In a block of 16 bytes without an end tag, the bytes behind its only tag are read as a tag. -/
theorem readTags_without_end : ¬∃ undefined,
    ReadsTags undefined (fun addr => if addr = 0 then 16 else if addr = 8 then 1 else if addr = 12 then 8 else 0) 0 := by
  rintro ⟨undefined, read⟩
  obtain ⟨-, sized⟩ := read.sized
  have tag := sized 8 (Chain.here (by decide +kernel)) (by decide +kernel)
  revert tag
  unfold TagSized Landed
  decide +kernel

end B0s
