import B0s.Library.Runs
import B0s.Proof.Mm.Block

/-
This file proves what `block_alloc` and `block_free` do to the blocks of a type, and what holds in every
run of them.
-/

namespace B0s
open ByteMemory DoublyLinked Runs

namespace Vmm

section
variable {σ : Type} {pages : BlockPages σ} {type : StructType} {blocks blocks' : Blocks σ} {live bs : List Nat}
variable {b new prev count : Nat} {mem mem' : Memory}

/-- The header words of the other blocks stay as they are. -/
theorem NewBlock.header (fresh : NewBlock type new prev count mem mem') (page : Page new) (page' : Page b)
    (different : b ≠ new) {offset : Nat} (small : offset + 8 ≤ 72) :
    loadU64 mem' (b + offset) = loadU64 mem (b + offset) := by
  have room := page'.room
  have aligned := page.aligned
  have aligned' := page'.aligned
  have same : loadWord mem' (b + offset) = loadWord mem (b + offset) := by
    apply loadWord_congr
    intro place inside
    have reduced : (b + offset + place) % 2 ^ 64 = b + offset + place := Nat.mod_eq_of_lt (by omega)
    rw [byteAt, byteAt, reduced]
    exact fresh.outside _ (by omega) (by omega)
  rw [loadU64, loadU64, same]

/-- The bits of the other bitmaps stay as they are. -/
theorem NewBlock.bit (fresh : NewBlock type new prev count mem mem') (page : Page new) (page' : Page b)
    (different : b ≠ new) {j : Nat} (inside : j < 64 * (maxObjects type / 64 + 1)) :
    (blockBitmap type b).bit mem' j = (blockBitmap type b).bit mem j := by
  have room := page'.room
  have aligned := page.aligned
  have aligned' := page'.aligned
  have bounds := @place_bounds type b page' j inside
  have low : b + 72 ≤ object type b (maxObjects type) := Nat.le_add_right _ _
  have same := fresh.outside ((blockBitmap type b).place j).1 (by omega) (by omega)
  rw [Bitmap.bit, Bitmap.bit, ByteMemory.bit, ByteMemory.bit, same]

theorem Blocks.Holds.getLastD_lt (holds : blocks.Holds pages type live bs) : bs.getLastD NULL < 2 ^ 64 := by
  rcases bs.eq_nil_or_concat' with rfl | ⟨front, last, rfl⟩
  · exact Nat.two_pow_pos 64
  · have room := (holds.page last (by simp)).room
    rw [List.getLastD_concat]
    omega

/-- The store that links a new block behind the last one. -/
def linkBlock (bs : List Nat) (new : Nat) (mem : Memory) : Memory :=
  storeUnlessNull (bs.getLastD NULL) (bs.getLastD NULL + 64) new mem

/-- The link store changes one word of the last block. -/
theorem loadU64_linkBlock (page : ∀ b ∈ bs, Page b) (page' : Page b) {offset : Nat} (small : offset < 72)
    (aligned : offset % 8 = 0) (different : bs.getLast? ≠ some b ∨ offset ≠ 64) :
    loadU64 (linkBlock bs new mem) (b + offset) = loadU64 mem (b + offset) := by
  unfold linkBlock
  rcases bs.eq_nil_or_concat' with rfl | ⟨front, last, rfl⟩
  · rfl
  · rw [List.getLastD_concat, storeUnlessNull, if_pos (page last (by simp)).nonnull]
    apply loadU64_header_store page' (page last (by simp)) small aligned (by decide) (by decide)
    rcases different with other | other
    · left
      rintro rfl
      simp at other
    · exact Or.inr other

theorem bit_linkBlock (page : ∀ b ∈ bs, Page b) (page' : Page b) {j : Nat}
    (inside : j < 64 * (maxObjects type / 64 + 1)) :
    (blockBitmap type b).bit (linkBlock bs new mem) j = (blockBitmap type b).bit mem j := by
  unfold linkBlock
  rcases bs.eq_nil_or_concat' with rfl | ⟨front, last, rfl⟩
  · rfl
  · rw [List.getLastD_concat, storeUnlessNull, if_pos (page last (by simp)).nonnull]
    exact bit_header_store page' (page last (by simp)) inside (by decide)

/-- A new block behind the last one extends the list. -/
theorem Blocks.Holds.extend (holds : blocks.Holds pages type live bs)
    (created : createBlock pages type (bs.getLastD NULL) blocks = .ok (new, blocks'))
    (zero : ∀ frame bytes env', pages.pmmXalloc blocks.env = .ok (frame, bytes, env') →
      loadU64 bytes (dmP2V frame + 8) = 0) {heads : StructType → Nat}
    (head : heads type = (bs ++ [new]).headD NULL) :
    Blocks.Holds pages type ⟨heads, linkBlock bs new blocks'.mem, blocks'.env⟩ live (bs ++ [new]) ∧
      (∀ j < 64 * (maxObjects type / 64 + 1), (blockBitmap type new).bit (linkBlock bs new blocks'.mem) j = true) := by
  obtain ⟨frame, bytes, obtained, page, named, back, -, fresh⟩ := createBlock_spec holds.getLastD_lt created
  have zeroAt := zero _ _ _ obtained
  rw [named] at zeroAt
  rw [zeroAt] at fresh
  have absent : new ∉ bs := by
    intro member
    have held := holds.held new member
    rw [back] at held
    exact pages.xalloc_fresh _ _ _ _ obtained held
  have different : ∀ b ∈ bs, b ≠ new := by
    rintro b member rfl
    exact absent member
  have grown : ∀ b ∈ bs ++ [new], Page b := by
    intro b member
    rcases List.mem_append.mp member with earlier | later
    · exact holds.page b earlier
    · rw [List.mem_singleton.mp later]
      exact page
  have notLast : ∀ offset, bs.getLast? ≠ some new ∨ offset ≠ 64 := by
    intro offset
    left
    intro last
    exact absent (List.mem_of_getLast? last)
  have none : usedIn new live = 0 := by
    rw [usedIn, List.length_eq_zero_iff, List.filter_eq_nil_iff]
    intro p listed enclosed
    obtain ⟨c, member, i, inside, rfl⟩ := holds.placed p listed
    have same := (@object_page type c new i (holds.page c member) page inside).mp (by simpa using enclosed)
    exact different c member same.symm
  have kept : ∀ b ∈ bs, ∀ offset < 72, offset % 8 = 0 → bs.getLast? ≠ some b ∨ offset ≠ 64 →
      loadU64 (linkBlock bs new blocks'.mem) (b + offset) = loadU64 blocks.mem (b + offset) := by
    intro b member offset small aligned other
    rw [loadU64_linkBlock holds.page (holds.page b member) small aligned other,
      fresh.header page (holds.page b member) (different b member) (by omega)]
  have own : ∀ offset < 72, offset % 8 = 0 →
      loadU64 (linkBlock bs new blocks'.mem) (new + offset) = loadU64 blocks'.mem (new + offset) := by
    intro offset small aligned
    exact loadU64_linkBlock holds.page page small aligned (notLast offset)
  refine ⟨?_, ?_⟩
  · refine ⟨head, ?_, ?_, grown, ?_, ?_, holds.nodup, ?_, ?_⟩
    · have linked := holds.links
      rw [← List.append_nil bs] at linked
      apply linked.insert (by simpa using holds.distinct)
      · rw [own 64 (by decide) (by decide), fresh.next]
        rfl
      · rw [own 56 (by decide) (by decide), fresh.prev]
      · intro last isLast
        obtain ⟨front, rfl⟩ : ∃ front, bs = front ++ [last] := by
          rcases bs.eq_nil_or_concat' with rfl | ⟨front, other, rfl⟩
          · simp at isLast
          · exact ⟨front, by simpa using isLast⟩
        have room := page.room
        rw [linkBlock, List.getLastD_concat, storeUnlessNull, if_pos (holds.page last (by simp)).nonnull]
        exact loadU64_storeU64 (by omega)
      · intro other isHead
        cases isHead
      · intro other member notLast
        exact kept other (by simpa using member) 64 (by decide) (by decide) (Or.inl notLast)
      · intro other member _
        exact kept other (by simpa using member) 56 (by decide) (by decide) (Or.inr (by decide))
    · rw [List.nodup_append]
      refine ⟨holds.distinct, by simp, ?_⟩
      intro b member c later
      rw [List.mem_singleton.mp later]
      exact different b member
    · intro b member
      apply (pages.xalloc_held _ _ _ _ obtained _).mpr
      rcases List.mem_append.mp member with earlier | later
      · exact Or.inl (holds.held b earlier)
      · rw [List.mem_singleton.mp later]
        exact Or.inr back
    · intro b member
      rcases List.mem_append.mp member with earlier | later
      · have here := holds.holds b earlier
        refine ⟨?_, ?_⟩
        · rw [← here.fixed]
          apply fixedWords_congr
          intro offset small _ aligned
          exact kept b earlier offset (by omega) aligned (Or.inr (by omega))
        · rw [← here.nbUsed]
          exact kept b earlier 8 (by decide) (by decide) (Or.inr (by decide))
      · rw [List.mem_singleton.mp later, none]
        refine ⟨?_, ?_⟩
        · rw [← fresh.holds.fixed]
          apply fixedWords_congr
          intro offset small _ aligned
          exact own offset (by omega) aligned
        · rw [← fresh.holds.nbUsed]
          exact own 8 (by decide) (by decide)
    · intro p listed
      obtain ⟨c, member, rest⟩ := holds.placed p listed
      exact ⟨c, List.mem_append_left _ member, rest⟩
    · intro b member i inside listed
      rcases List.mem_append.mp member with earlier | later
      · rw [bit_linkBlock holds.page (holds.page b earlier) (bitmap_index inside),
          fresh.bit page (holds.page b earlier) (different b earlier) (bitmap_index inside)]
        exact holds.marked b earlier i inside listed
      · obtain rfl := List.mem_singleton.mp later
        obtain ⟨c, member, k, inside', same⟩ := holds.placed _ listed
        have enclosed := (@object_page type b b i page page inside).mpr rfl
        rw [same] at enclosed
        have equal := (@object_page type c b k (holds.page c member) page inside').mp enclosed
        exact absurd equal.symm (different c member)
  · intro j inside
    rw [bit_linkBlock holds.page page inside]
    exact fresh.unused j inside

/-- Each block that the loop of `block_alloc` meets in a list has a set bit in its bitmap. -/
def WalkDefined (type : StructType) (mem : Memory) : List Nat → Prop
  | [] => True
  | b :: rest => ¬(blockBitmap type b).Exhausted mem ∧ ((blockBitmap type b).Full mem → WalkDefined type mem rest)

theorem WalkDefined.congr {bs : List Nat} (defined : WalkDefined type mem bs)
    (same : ∀ b ∈ bs, ∀ j < 64 * (maxObjects type / 64 + 1),
      (blockBitmap type b).bit mem' j = (blockBitmap type b).bit mem j) : WalkDefined type mem' bs := by
  induction bs with
  | nil => trivial
  | cons b rest ih =>
      have here := same b List.mem_cons_self
      refine ⟨?_, ?_⟩
      · intro exhausted
        apply defined.1
        intro j inside
        rw [← here j inside]
        exact exhausted j inside
      · intro full
        have earlier : (blockBitmap type b).Full mem := by
          intro i inside
          rw [← here i (bitmap_index inside)]
          exact full i inside
        exact ih (defined.2 earlier) fun c member => same c (List.mem_cons_of_mem _ member)

/-- A bitmap with a set bit offers its first unused index, and only a full one offers none. -/
theorem Blocks.Holds.find (holds : blocks.Holds pages type live bs) (member : b ∈ bs)
    (defined : ¬(blockBitmap type b).Exhausted blocks.mem) (unassigned : Nat) :
    ∃ j mem', bitmapFindAndSet (loadBitmap blocks.mem (blockBm b)) unassigned blocks.mem =
        (min j (maxObjects type), mem') ∧ j < 64 * (maxObjects type / 64 + 1) ∧
      (blockBitmap type b).bit blocks.mem j = true ∧ (∀ k < j, (blockBitmap type b).bit blocks.mem k = false) ∧
      (blockBitmap type b).Writes j false blocks.mem mem' := by
  obtain ⟨-, -, -, bitmap⟩ := (holds.holds b member).values
  rw [bitmap]
  rcases bitmapFindAndSet_spec blocks.mem (blockBitmap_fits type b) unassigned with ⟨none, -⟩ | found
  · exact absurd none defined
  · exact found

/-- The loop of `block_alloc` takes the index that the bitmap of a listed block offers. -/
theorem Blocks.Holds.takes {unassigned : Nat → Nat} {steps j : Nat} (holds : blocks.Holds pages type live bs)
    (member : b ∈ bs) (found : bitmapFindAndSet (loadBitmap blocks.mem (blockBm b)) (unassigned b) blocks.mem =
      (min j (maxObjects type), mem')) (unused : (blockBitmap type b).bit blocks.mem j = true)
    (writes : (blockBitmap type b).Writes j false blocks.mem mem') (small : j < maxObjects type) :
    blockAllocWalk pages unassigned type (steps + 1) b blocks = .ok (object type b j,
        { blocks with mem := storeU64 (blockNbUsed b) (usedIn b live + 1) mem' }) ∧
      Blocks.Holds pages type { blocks with mem := storeU64 (blockNbUsed b) (usedIn b live + 1) mem' }
        (object type b j :: live) bs := by
  have page := holds.page b member
  have room := page.room
  have cleared := holds.clear member (bitmap_index small) writes
  have len : loadU64 mem' (blockBm b) = maxObjects type := congrArg Bitmap.len (cleared.holds b member).values.2.2.2
  have fresh : object type b j ∉ live := by
    intro listed
    rw [holds.marked b member j small listed] at unused
    cases unused
  have bounds := object_bounds type b small
  have fits := block_fits type
  have counted := holds.usedIn_le member
  have taken := cleared.take member small fresh (by omega) writes.self
  obtain ⟨objects, size, -, -⟩ := (taken.holds b member).values
  have objects' : loadU64 (storeU64 (blockNbUsed b) (usedIn b live + 1) mem') (blockObjects b) = b + 72 := objects
  have size' : loadU64 (storeU64 (blockNbUsed b) (usedIn b live + 1) mem') (blockObjectSizeInBytes b) =
    getStructSize type := size
  have index : min j (maxObjects type) = j := min_eq_left small.le
  have count : loadU64 mem' (blockNbUsed b) = usedIn b live := (cleared.holds b member).nbUsed
  have more : u64 (usedIn b live + 1) = usedIn b live + 1 := Nat.mod_eq_of_lt (by omega)
  have offset : u64 (j * getStructSize type) = j * getStructSize type := by
    unfold object at bounds
    exact Nat.mod_eq_of_lt (by omega)
  have address : u64 (b + 72 + j * getStructSize type) = object type b j :=
    Nat.mod_eq_of_lt (by unfold object at bounds; omega)
  refine ⟨?_, taken⟩
  rw [blockAllocWalk, if_neg page.nonnull, found]
  dsimp only
  rw [len, index, if_pos small.ne, count, more, objects', size', offset, address]

/-- The loop of `block_alloc` returns an object that is not live and marks it. -/
theorem blockAllocWalk_spec {unassigned : Nat → Nat} {steps ptr : Nat} {done rest : List Nat}
    (holds : blocks.Holds pages type live (done ++ b :: rest)) (defined : WalkDefined type blocks.mem (b :: rest))
    (zero : (∀ c ∈ b :: rest, (blockBitmap type c).Full blocks.mem) → ∀ frame bytes env',
      pages.pmmXalloc blocks.env = .ok (frame, bytes, env') → loadU64 bytes (dmP2V frame + 8) = 0)
    (returned : blockAllocWalk pages unassigned type steps b blocks = .ok (ptr, blocks')) :
    ∃ bs', blocks'.Holds pages type (ptr :: live) bs' := by
  induction steps generalizing blocks done b rest with
  | zero => cases returned
  | succ steps ih =>
      have member : b ∈ done ++ b :: rest := by simp
      have page := holds.page b member
      have room := page.room
      obtain ⟨j, mem', found, inside, unused, earlier, writes⟩ := holds.find member defined.1 (unassigned b)
      have cleared := holds.clear member inside writes
      have len : loadU64 mem' (blockBm b) = maxObjects type := congrArg Bitmap.len (cleared.holds b member).values.2.2.2
      by_cases small : j < maxObjects type
      · obtain ⟨result, taken⟩ := @Blocks.Holds.takes _ _ _ _ _ _ _ _ unassigned steps _ holds member found unused writes small
        obtain ⟨rfl, rfl⟩ := Prod.mk.inj (Except.ok.inj (result.symm.trans returned))
        exact ⟨_, taken⟩
      · have index : min j (maxObjects type) = maxObjects type := min_eq_right (by omega)
        rw [blockAllocWalk, if_neg page.nonnull, found] at returned
        dsimp only at returned
        rw [len, index, if_neg (by simp)] at returned
        have full : (blockBitmap type b).Full blocks.mem := by
          intro i bound
          exact earlier i (by have : i < maxObjects type := bound; omega)
        have nextAt : loadU64 mem' (blockNext b) = rest.headD NULL := cleared.links.links_at.1
        rw [nextAt] at returned
        cases rest with
        | nil =>
            rw [List.headD_nil, if_pos rfl] at returned
            obtain ⟨⟨new, grown⟩, created, continued⟩ := Outcome.bind_eq_ok.mp returned
            dsimp only at continued
            have last : (done ++ [b]).getLastD NULL = b := List.getLastD_concat
            have zeroAt := zero (by simpa using full)
            obtain ⟨-, -, -, pageNew, -, -, heads, -⟩ := createBlock_spec (by omega) created
            have roomNew := pageNew.room
            have headAt : grown.blockHeads type = (done ++ [b] ++ [new]).headD NULL := by
              rw [heads]
              refine holds.head.trans ?_
              cases done <;> rfl
            obtain ⟨extended, offers⟩ := cleared.extend (last.symm ▸ created) zeroAt headAt
            have linked : linkBlock (done ++ [b]) new grown.mem = storeU64 (blockNext b) new grown.mem := by
              rw [linkBlock, last, storeUnlessNull, if_pos page.nonnull]
              rfl
            rw [linked] at extended offers
            have nextNew : loadU64 (storeU64 (blockNext b) new grown.mem) (blockNext b) = new :=
              loadU64_storeU64 (by omega)
            rw [nextNew] at continued
            have positive := (block_fits type).2.2.2.1
            have notFull : ¬(blockBitmap type new).Full (storeU64 (blockNext b) new grown.mem) := by
              intro full
              have first := full 0 positive
              rw [offers 0 (by omega)] at first
              cases first
            apply ih extended ⟨?_, fun full => absurd full notFull⟩ _ continued
            · intro exhausted
              exact notFull fun i inside => exhausted i (bitmap_index inside)
            · intro allFull
              exact absurd (allFull new (by simp)) notFull
        | cons c rest =>
            have nonnull : c ≠ NULL := (holds.page c (by simp)).nonnull
            rw [List.headD_cons, if_neg nonnull] at returned
            have shape : done ++ b :: c :: rest = (done ++ [b]) ++ c :: rest := by simp
            rw [shape] at cleared holds
            have distinct := holds.distinct
            have others : ∀ d ∈ c :: rest, ∀ k < 64 * (maxObjects type / 64 + 1),
                (blockBitmap type d).bit mem' k = (blockBitmap type d).bit blocks.mem k := by
              intro d member' k inside'
              have different : d ≠ b := by
                rintro rfl
                rw [List.nodup_append] at distinct
                exact distinct.2.2 d (by simp) d member' rfl
              apply writes.other
              exact place_ne (holds.page d (by simp [member'])) page inside' inside (Or.inl different)
            apply ih cleared ((defined.2 full).congr others) _ returned
            intro allFull
            apply zero
            intro d member' i bound
            rcases List.mem_cons.mp member' with rfl | later
            · exact full i bound
            · rw [← others d later i (bitmap_index bound)]
              exact allFull d later i bound

/-- A call of `block_alloc` returns an object that is not live and marks it. -/
theorem Blocks.Holds.alloc {unassigned : Nat → Nat} {ptr : Nat} (holds : blocks.Holds pages type live bs)
    (defined : WalkDefined type blocks.mem bs)
    (zero : (∀ c ∈ bs, (blockBitmap type c).Full blocks.mem) → ∀ frame bytes env',
      pages.pmmXalloc blocks.env = .ok (frame, bytes, env') → loadU64 bytes (dmP2V frame + 8) = 0)
    (returned : blockAlloc pages unassigned type blocks = .ok (ptr, blocks')) :
    ∃ bs', blocks'.Holds pages type (ptr :: live) bs' := by
  have head := holds.head
  rw [blockAlloc] at returned
  cases bs with
  | nil =>
      rw [List.headD_nil] at head
      rw [if_pos head] at returned
      obtain ⟨⟨new, grown⟩, created, walked⟩ := Outcome.bind_eq_ok.mp returned
      have headAt : Function.update grown.blockHeads type new type = ([] ++ [new]).headD NULL :=
        Function.update_self _ _ _
      obtain ⟨extended, offers⟩ := holds.extend created (zero (by simp)) headAt
      have positive := (block_fits type).2.2.2.1
      have notFull : ¬(blockBitmap type new).Full grown.mem := by
        intro full
        have first := full 0 positive
        rw [show linkBlock [] new grown.mem = grown.mem from rfl] at offers
        rw [offers 0 (by omega)] at first
        cases first
      change blockAllocWalk pages unassigned type walkLimit (Function.update grown.blockHeads type new type)
        { grown with blockHeads := Function.update grown.blockHeads type new } = _ at walked
      rw [Function.update_self] at walked
      refine @blockAllocWalk_spec _ _ _ _ _ _ new _ _ _ [] [] extended ⟨?_, fun full => absurd full notFull⟩ ?_ walked
      · intro exhausted
        exact notFull fun i inside => exhausted i (bitmap_index inside)
      · intro allFull
        exact absurd (allFull new (by simp)) notFull
  | cons b rest =>
      rw [List.headD_cons] at head
      rw [head, if_neg (holds.page b (by simp)).nonnull] at returned
      change blockAllocWalk pages unassigned type walkLimit (blocks.blockHeads type) blocks = _ at returned
      rw [head] at returned
      exact @blockAllocWalk_spec _ _ _ _ _ _ b _ _ _ [] rest holds defined zero returned

/-- The objects of a block end without a wrap. -/
theorem Page.objects_end (page : Page b) (type : StructType) :
    u64 (b + 72 + u64 (maxObjects type * getStructSize type)) = object type b (maxObjects type) := by
  have room := page.room
  have bounds := @object_bounds type b 0 (block_fits type).2.2.2.1
  have product : u64 (maxObjects type * getStructSize type) = maxObjects type * getStructSize type := by
    unfold object at bounds
    exact Nat.mod_eq_of_lt (by omega)
  rw [product]
  exact Nat.mod_eq_of_lt (by unfold object at bounds; omega)

/-- The loop of `block_free` skips the blocks in front of the one that holds the object. -/
theorem blockFreeWalk_finds {undefined : Nat → Nat} {done first rest : List Nat} {steps i : Nat}
    (holds : blocks.Holds pages type live (done ++ (first ++ b :: rest))) (inside : i < maxObjects type)
    (returned : blockFreeWalk pages undefined (object type b i) steps ((first ++ b :: rest).headD NULL) blocks =
      .ok blocks') : blockFreeAt pages undefined (object type b i) b blocks = .ok blocks' := by
  induction steps generalizing done first with
  | zero => cases returned
  | succ steps ih =>
      have page := holds.page b (by simp)
      have bounds := object_bounds type b inside
      have room := page.room
      have distinct := holds.distinct
      have range : ∀ c ∈ done ++ (first ++ b :: rest), u64 (c + 72 + u64 (maxObjects type * getStructSize type)) =
          object type c (maxObjects type) := fun c member => (holds.page c member).objects_end type
      cases first with
      | nil =>
          have here := range b (by simp)
          obtain ⟨objects, size, most, -⟩ := (holds.holds b (by simp)).values
          rw [List.nil_append, List.headD_cons, blockFreeWalk, if_neg page.nonnull, objects, size, most, here,
            if_neg (by omega)] at returned
          exact returned
      | cons c first =>
          have there := range c (by simp)
          have page' := holds.page c (by simp)
          have bounds' := object_bounds type c inside
          obtain ⟨objects, size, most, -⟩ := (holds.holds c (by simp)).values
          have different : c ≠ b := by
            rintro rfl
            rw [List.nodup_append] at distinct
            simp at distinct
          have aligned := page.aligned
          have aligned' := page'.aligned
          have nextAt : loadU64 blocks.mem (blockNext c) = (first ++ b :: rest).headD NULL :=
            (holds.links.links_at (P := Nat)).1
          have shape : done ++ (c :: first ++ b :: rest) = (done ++ [c]) ++ (first ++ b :: rest) := by simp
          rw [List.cons_append, List.headD_cons, blockFreeWalk, if_neg page'.nonnull, objects, size, most, there,
            if_pos (by omega), nextAt] at returned
          rw [shape] at holds
          exact ih holds returned

theorem usedIn_erase {p : Nat} (b : Nat) (listed : p ∈ live) :
    usedIn b live = usedIn b (live.erase p) + if b ≤ p ∧ p < b + 4096 then 1 else 0 := by
  rw [← usedIn_cons]
  exact ((List.perm_cons_erase listed).filter _).length_eq

/-- An object is released by setting its bit and lowering the count of its block. -/
theorem Blocks.Holds.release (holds : blocks.Holds pages type live bs) (member : b ∈ bs) {i : Nat}
    (inside : i < maxObjects type) (listed : object type b i ∈ live)
    (writes : (blockBitmap type b).Writes i true blocks.mem mem') :
    Blocks.Holds pages type { blocks with mem := storeU64 (b + 8) (usedIn b live - 1) mem' }
      (live.erase (object type b i)) bs := by
  have page := holds.page b member
  have kept : ∀ c ∈ bs, ∀ offset < 72, offset % 8 = 0 → c ≠ b ∨ offset ≠ 8 →
      loadU64 (storeU64 (b + 8) (usedIn b live - 1) mem') (c + offset) = loadU64 blocks.mem (c + offset) := by
    intro c member' offset small aligned other
    rw [loadU64_header_store (holds.page c member') page small aligned (by decide) (by decide) other,
      loadU64_header_write (holds.page c member') page (bitmap_index inside) writes (by omega)]
  refine ⟨holds.head, ?_, holds.distinct, holds.page, holds.held, ?_, holds.nodup.erase _, ?_, ?_⟩
  · apply holds.links.transport
    intro c member'
    exact ⟨kept c member' 64 (by decide) (by decide) (Or.inr (by decide)),
      kept c member' 56 (by decide) (by decide) (Or.inr (by decide))⟩
  · intro c member'
    have here := holds.holds c member'
    have counts := @object_page type b c i page (holds.page c member') inside
    have count := @usedIn_erase live _ c listed
    constructor
    · rw [← here.fixed]
      apply fixedWords_congr
      intro offset small different aligned
      exact kept c member' offset (by omega) aligned (Or.inr different)
    · by_cases same : c = b
      · subst same
        rw [if_pos (counts.mpr rfl)] at count
        have most := holds.usedIn_le member
        have fits := block_fits type
        have less : usedIn c live - 1 = usedIn c (live.erase (object type c i)) := by omega
        rw [← less]
        exact loadU64_storeU64 (by omega)
      · rw [if_neg fun enclosed => same (counts.mp enclosed), Nat.add_zero] at count
        rw [← count, ← here.nbUsed]
        exact kept c member' 8 (by decide) (by decide) (Or.inl same)
  · intro p remains
    exact holds.placed p (List.mem_of_mem_erase remains)
  · intro c member' k inside' remains
    have earlier := (holds.nodup.mem_erase_iff.mp remains)
    have different : c ≠ b ∨ k ≠ i := by
      by_contra both
      rw [not_or, not_not, not_not] at both
      rw [both.1, both.2] at earlier
      exact earlier.1 rfl
    rw [bit_header_store (holds.page c member') page (bitmap_index inside') (by decide), writes.other
      (place_ne (holds.page c member') page (bitmap_index inside') (bitmap_index inside) different)]
    exact holds.marked c member' k inside' earlier.2

/-- The stores that unlink a block behind the head. -/
def unlinkBlock (last next : Nat) (mem : Memory) : Memory :=
  storeUnlessNull next (next + 56) last (storeU64 (last + 64) next mem)

theorem blockRemove_eq {last next : Nat} (page : Page b) (pageLast : Page last) (different : b ≠ last)
    (prevAt : loadU64 blocks.mem (b + 56) = last) (nextAt : loadU64 blocks.mem (b + 64) = next) :
    blockRemove pages b blocks = (do
      let env ← pages.pmmFree (dmV2P b) blocks.env
      .ok { blocks with mem := unlinkBlock last next blocks.mem, env := env }) := by
  have linked : loadU64 (storeU64 (last + 64) next blocks.mem) (b + 64) = next := by
    rw [loadU64_header_store page pageLast (by decide) (by decide) (by decide) (by decide) (Or.inl different), nextAt]
  have backward : loadU64 (storeU64 (last + 64) next blocks.mem) (b + 56) = last := by
    rw [loadU64_header_store page pageLast (by decide) (by decide) (by decide) (by decide) (Or.inr (by decide)), prevAt]
  simp only [blockRemove, blockPrev, blockNext, prevAt, nextAt, ne_eq, pageLast.nonnull, not_false_eq_true, if_true,
    linked, backward]
  rfl

/-- A block without live objects is unlinked, unless it is the head. -/
theorem Blocks.Holds.remove {done rest : List Nat} (holds : blocks.Holds pages type live (done ++ b :: rest))
    (none : usedIn b live = 0) (later : done ≠ [])
    (returned : blockRemove pages b blocks = .ok blocks') : blocks'.Holds pages type live (done ++ rest) := by
  obtain ⟨front, last, rfl⟩ := done.eq_nil_or_concat'.resolve_left later
  have page := holds.page b (by simp)
  have pageLast := holds.page last (by simp)
  have room := page.room
  have roomLast := pageLast.room
  obtain ⟨nextAt, prevAt⟩ := (holds.links.links_at (P := Nat))
  rw [List.getLastD_concat] at prevAt
  have distinct := List.nodup_append.mp holds.distinct
  have distinctRest := List.nodup_cons.mp distinct.2.1
  have apart : ∀ c ∈ front ++ [last] ++ rest, c ≠ b := by
    rintro c member rfl
    rcases List.mem_append.mp member with before | after
    · exact distinct.2.2 c before c List.mem_cons_self rfl
    · exact distinctRest.1 after
  have pages' : ∀ c ∈ front ++ [last] ++ rest, Page c := by
    intro c member
    apply holds.page c
    simp only [List.mem_append, List.mem_cons] at member ⊢
    tauto
  have nextSmall : rest.headD NULL < 2 ^ 64 := nextAt ▸ loadU64_lt _ _
  have pageNext : rest.headD NULL ≠ NULL → rest.headD NULL ∈ rest := by
    intro nonnull
    exact (List.mem_cons.mp (headD_mem_cons rest NULL)).resolve_left nonnull
  rw [blockRemove_eq page pageLast (apart last (by simp)).symm prevAt nextAt] at returned
  obtain ⟨env, freed, result⟩ := Outcome.bind_eq_ok.mp returned
  obtain rfl := Except.ok.inj result
  have kept : ∀ c ∈ front ++ [last] ++ rest, ∀ offset < 72, offset % 8 = 0 → c ≠ last ∨ offset ≠ 64 →
      c ≠ rest.headD NULL ∨ offset ≠ 56 →
      loadU64 (unlinkBlock last (rest.headD NULL) blocks.mem) (c + offset) = loadU64 blocks.mem (c + offset) := by
    intro c member offset small aligned notLast notHead
    have page' := pages' c member
    unfold unlinkBlock storeUnlessNull
    split_ifs with nonnull
    · rw [loadU64_header_store page' (pages' _ (List.mem_append_right _ (pageNext nonnull))) small aligned (by decide) (by decide) notHead,
        loadU64_header_store page' pageLast small aligned (by decide) (by decide) notLast]
    · rw [loadU64_header_store page' pageLast small aligned (by decide) (by decide) notLast]
  have bits : ∀ c ∈ front ++ [last] ++ rest, ∀ j < 64 * (maxObjects type / 64 + 1),
      (blockBitmap type c).bit (unlinkBlock last (rest.headD NULL) blocks.mem) j =
        (blockBitmap type c).bit blocks.mem j := by
    intro c member j inside
    have page' := pages' c member
    unfold unlinkBlock storeUnlessNull
    split_ifs with nonnull
    · rw [bit_header_store page' (pages' _ (List.mem_append_right _ (pageNext nonnull))) inside (by decide),
        bit_header_store page' pageLast inside (by decide)]
    · rw [bit_header_store page' pageLast inside (by decide)]
  have listed : ∀ c, c ∈ front ++ [last] ++ rest → c ∈ front ++ [last] ++ b :: rest := by
    intro c member
    simp only [List.mem_append, List.mem_cons] at member ⊢
    tauto
  refine ⟨?_, ?_, ?_, pages', ?_, ?_, holds.nodup, ?_, ?_⟩
  · refine holds.head.trans ?_
    cases front <;> rfl
  · apply holds.links.erase holds.distinct
    · intro other isLast
      obtain rfl : last = other := by simpa using isLast
      unfold unlinkBlock storeUnlessNull
      split_ifs with nonnull
      · rw [loadU64_header_store pageLast (pages' _ (List.mem_append_right _ (pageNext nonnull))) (by decide) (by decide)
          (by decide) (by decide) (Or.inr (by decide)), loadU64_storeU64 nextSmall]
      · exact loadU64_storeU64 nextSmall
    · intro other isHead
      have named : rest.headD NULL = other := by
        rw [List.headD_eq_head?_getD, isHead]
        rfl
      have nonnull : other ≠ NULL := (pages' other (List.mem_append_right _ (List.mem_of_mem_head? isHead))).nonnull
      rw [List.getLastD_concat, named, unlinkBlock, storeUnlessNull, if_pos nonnull]
      exact loadU64_storeU64 (by omega)
    · intro other member notLast
      apply kept other member 64 (by decide) (by decide) _ (Or.inr (by decide))
      left
      rintro rfl
      simp at notLast
    · intro other member notHead
      apply kept other member 56 (by decide) (by decide) (Or.inr (by decide))
      left
      intro same
      apply notHead
      have nonnull : rest.headD NULL ≠ NULL := same ▸ (pages' other member).nonnull
      rw [same]
      cases rest with
      | nil => exact absurd rfl nonnull
      | cons first _ => rfl
  · exact List.Nodup.sublist (by simp) holds.distinct
  · intro c member
    have low := (pages' c member).low
    have low' := page.low
    have room' := (pages' c member).room
    have different := apart c member
    refine (pages.free_held _ _ _ freed _).mpr ⟨holds.held c (listed c member), ?_⟩
    unfold dmV2P subU64 higherHalfStart at *
    omega
  · intro c member
    have here := holds.holds c (listed c member)
    refine ⟨?_, ?_⟩
    · rw [← here.fixed]
      apply fixedWords_congr
      intro offset small _ aligned
      exact kept c member offset (by omega) aligned (Or.inr (by omega)) (Or.inr (by omega))
    · rw [← here.nbUsed]
      exact kept c member 8 (by decide) (by decide) (Or.inr (by decide)) (Or.inr (by decide))
  · intro p live'
    obtain ⟨c, member, i, inside, rfl⟩ := holds.placed p live'
    have different : c ≠ b := by
      rintro rfl
      have enclosed := (@object_page type c c i page page inside).mpr rfl
      rw [usedIn, List.length_eq_zero_iff, List.filter_eq_nil_iff] at none
      exact none _ live' (by simpa using enclosed)
    refine ⟨c, ?_, i, inside, rfl⟩
    simp only [List.mem_append, List.mem_cons] at member ⊢
    tauto
  · intro c member i inside live'
    rw [bits c member i (bitmap_index inside)]
    exact holds.marked c (listed c member) i inside live'

/-- In its block a live object is unmarked and counted down, and the last one takes the block along. -/
theorem Blocks.Holds.freeAt {undefined : Nat → Nat} {i : Nat} (holds : blocks.Holds pages type live bs) (member : b ∈ bs)
    (inside : i < maxObjects type) (listed : object type b i ∈ live) (exactShift : 33 ≤ i % 64) :
    ∃ mem', (blockFreeAt pages undefined (object type b i) b blocks =
        if usedIn b live = 1 then blockRemove pages b { blocks with mem := mem' } else .ok { blocks with mem := mem' }) ∧
      usedIn b live = usedIn b (live.erase (object type b i)) + 1 ∧
      Blocks.Holds pages type { blocks with mem := mem' } (live.erase (object type b i)) bs := by
  have page := holds.page b member
  have bounds := object_bounds type b inside
  have fits := block_fits type
  have most := holds.usedIn_le member
  have room := page.room
  obtain ⟨objects, size, -, bitmap⟩ := (holds.holds b member).values
  have index : subU64 (object type b i) (b + 72) / getStructSize type = i := by
    have difference : subU64 (object type b i) (b + 72) = i * getStructSize type := by
      unfold object at bounds
      unfold subU64 object
      omega
    rw [difference]
    exact Nat.mul_div_cancel _ (by omega)
  have writes := @bitmapUnset_writes (blockBitmap type b) blocks.mem undefined i inside exactShift
  have count : loadU64 (bitmapUnset undefined (blockBitmap type b) i blocks.mem) (blockNbUsed b) = usedIn b live := by
    rw [← (holds.holds b member).nbUsed]
    exact loadU64_header_write page page (bitmap_index inside) writes (by decide)
  have less : usedIn b live = usedIn b (live.erase (object type b i)) + 1 := by
    have counted := @usedIn_erase live _ b listed
    rwa [if_pos ((@object_page type b b i page page inside).mpr rfl)] at counted
  have lowered : subU64 (usedIn b live) 1 = usedIn b live - 1 := by
    unfold subU64
    omega
  have after : loadU64 (storeU64 (blockNbUsed b) (usedIn b live - 1)
      (bitmapUnset undefined (blockBitmap type b) i blocks.mem)) (blockNbUsed b) = usedIn b live - 1 :=
    loadU64_storeU64 (by omega)
  have last : usedIn b live - 1 = 0 ↔ usedIn b live = 1 := by omega
  refine ⟨_, ?_, less, holds.release member inside listed writes⟩
  rw [blockFreeAt, bitmap, objects, size, index, count, lowered, after]
  simp only [last]
  rfl

/-- A call of `block_free` on a live object releases it. -/
theorem Blocks.Holds.free {undefined : Nat → Nat} {done rest : List Nat} {i : Nat}
    (holds : blocks.Holds pages type live (done ++ b :: rest)) (inside : i < maxObjects type)
    (listed : object type b i ∈ live) (exactShift : 33 ≤ i % 64) (safe : done = [] → usedIn b live ≠ 1)
    (returned : blockFree pages undefined (object type b i) type blocks = .ok blocks') :
    ∃ bs', blocks'.Holds pages type (live.erase (object type b i)) bs' := by
  rw [blockFree, holds.head] at returned
  have freed := @blockFreeWalk_finds _ _ _ _ _ _ _ _ [] done rest _ _ holds inside returned
  obtain ⟨mem', result, less, released⟩ := @Blocks.Holds.freeAt _ _ _ _ _ _ _ undefined _ holds (by simp) inside listed
    exactShift
  rw [result] at freed
  split_ifs at freed with last
  · have notHead : done ≠ [] := fun head => safe head last
    exact ⟨_, released.remove (by omega) notHead freed⟩
  · obtain rfl := Except.ok.inj freed
    exact ⟨_, released⟩

end

/-- A call of the object allocator, or a write of its client. The calls carry the values that the
source leaves open. -/
inductive BlockCall where
  | blockAlloc (unassigned : Nat → Nat)
  | blockFree (undefined : Nat → Nat) (ptr : Nat)
  | write (addr : Nat) (byte : BitVec 8)

/-- The blocks of a type with their live objects. -/
structure BlockState (σ : Type) where
  blocks : Blocks σ
  live : List Nat

/-- The blocks that the links of the heads lead to. -/
inductive Blocks.Reaches {σ : Type} (blocks : Blocks σ) (type : StructType) : Nat → Prop
  | head : blocks.blockHeads type ≠ NULL → blocks.Reaches type (blocks.blockHeads type)
  | next {b : Nat} : blocks.Reaches type b → loadU64 blocks.mem (blockNext b) ≠ NULL →
      blocks.Reaches type (loadU64 blocks.mem (blockNext b))

/-- The blocks that `block_alloc` searches, each behind full ones. -/
inductive Blocks.Visits {σ : Type} (blocks : Blocks σ) (type : StructType) : Nat → Prop
  | head : blocks.blockHeads type ≠ NULL → blocks.Visits type (blocks.blockHeads type)
  | next {b : Nat} : blocks.Visits type b → (loadBitmap blocks.mem (blockBm b)).Full blocks.mem →
      loadU64 blocks.mem (blockNext b) ≠ NULL → blocks.Visits type (loadU64 blocks.mem (blockNext b))

section
variable {σ : Type} (pages : BlockPages σ) (type : StructType)

def blockStep (call : BlockCall) (state state' : BlockState σ) : Prop :=
  match call with
  | .blockAlloc unassigned => ∃ ptr blocks', blockAlloc pages unassigned type state.blocks = .ok (ptr, blocks') ∧
      state' = ⟨blocks', ptr :: state.live⟩
  | .blockFree undefined ptr => ∃ blocks', blockFree pages undefined ptr type state.blocks = .ok blocks' ∧
      state' = ⟨blocks', state.live.erase ptr⟩
  | .write addr byte =>
      state' = { state with blocks := { state.blocks with mem := Function.update state.blocks.mem addr byte } }

/-- Only live objects are freed or written. -/
def BlockState.Allows (call : BlockCall) (state : BlockState σ) : Prop :=
  match call with
  | .blockAlloc _ => True
  | .blockFree _ ptr => ptr ∈ state.live
  | .write addr _ => ∃ p ∈ state.live, p ≤ addr ∧ addr < p + getStructSize type

/-- An allocation searches no bitmap without a set bit, and a page that it takes counts no objects. A free
shifts by less than an `int` has bits, and does not empty the head. -/
def BlockState.Safe (call : BlockCall) (state : BlockState σ) : Prop :=
  match call with
  | .blockAlloc _ =>
      (∀ b, state.blocks.Visits type b → ¬(loadBitmap state.blocks.mem (blockBm b)).Exhausted state.blocks.mem) ∧
      ((∀ b, state.blocks.Reaches type b → (loadBitmap state.blocks.mem (blockBm b)).Full state.blocks.mem) →
        ∀ frame bytes env', pages.pmmXalloc state.blocks.env = .ok (frame, bytes, env') →
          loadU64 bytes (blockNbUsed (dmP2V frame)) = 0)
  | .blockFree _ ptr => ∀ b, state.blocks.Reaches type b → b ≤ ptr → ptr < b + pageSizeInBytes →
      33 ≤ (ptr - (b + sizeofBlock)) / getStructSize type % 64 ∧
      ¬(b = state.blocks.blockHeads type ∧ loadU64 state.blocks.mem (blockNbUsed b) = 1)
  | .write _ _ => True

/-- Live objects are disjoint and lie in reachable pages that are held, the blocks count them, and no
reachable page has been given back. -/
structure BlockState.Sound (state : BlockState σ) : Prop where
  disjoint : state.live.Pairwise fun p q => p + getStructSize type ≤ q ∨ q + getStructSize type ≤ p
  inside : ∀ p ∈ state.live, ∃ b, state.blocks.Reaches type b ∧ pages.held state.blocks.env (dmV2P b) ∧
    b ≤ p ∧ p + getStructSize type ≤ b + pageSizeInBytes
  counted : ∀ b, state.blocks.Reaches type b → loadU64 state.blocks.mem (blockNbUsed b) =
    (state.live.filter fun p => b ≤ p ∧ p < b + pageSizeInBytes).length
  held : ∀ b, state.blocks.Reaches type b → pages.held state.blocks.env (dmV2P b)

end

section
variable {σ : Type} {pages : BlockPages σ} {type : StructType} {blocks blocks' : Blocks σ} {live bs : List Nat} {b : Nat}

theorem Blocks.Holds.next_eq {done rest : List Nat} (holds : blocks.Holds pages type live (done ++ b :: rest)) :
    loadU64 blocks.mem (blockNext b) = rest.headD NULL :=
  (holds.links.links_at (P := Nat)).1

theorem headD_ne_null {nodes : List Nat} (nonnull : nodes.headD NULL ≠ NULL) : ∃ node rest, nodes = node :: rest := by
  cases nodes with
  | nil => exact absurd rfl nonnull
  | cons node rest => exact ⟨node, rest, rfl⟩

/-- The links lead to the blocks of the list. -/
theorem Blocks.Holds.reaches_iff (holds : blocks.Holds pages type live bs) : blocks.Reaches type b ↔ b ∈ bs := by
  constructor
  · intro reaches
    induction reaches with
    | head nonnull =>
        rw [holds.head] at nonnull ⊢
        obtain ⟨node, rest, rfl⟩ := headD_ne_null nonnull
        exact List.mem_cons_self
    | next reaches nonnull ih =>
        obtain ⟨done, rest, rfl⟩ := List.append_of_mem ih
        rw [holds.next_eq] at nonnull ⊢
        obtain ⟨node, others, rfl⟩ := headD_ne_null nonnull
        simp
  · intro member
    obtain ⟨done, rest, rfl⟩ := List.append_of_mem member
    have nonnull : ∀ c ∈ done ++ b :: rest, c ≠ NULL := fun c member => (holds.page c member).nonnull
    induction done using List.reverseRecOn generalizing b rest with
    | nil =>
        have head := holds.head
        rw [List.nil_append, List.headD_cons] at head
        rw [← head]
        exact Blocks.Reaches.head (head ▸ nonnull b (by simp))
    | append_singleton front last ih =>
        have shape : front ++ [last] ++ b :: rest = front ++ last :: (b :: rest) := by simp
        rw [shape] at holds
        have earlier := ih _ holds (by simp) (shape ▸ nonnull)
        have next := holds.next_eq
        rw [List.headD_cons] at next
        rw [← next]
        exact Blocks.Reaches.next earlier (next ▸ nonnull b (by simp))

/-- The searched blocks have set bits, so the walk over the list is defined. -/
theorem Blocks.Holds.walkDefined {done rest : List Nat} (holds : blocks.Holds pages type live (done ++ rest))
    (offers : ∀ b, blocks.Visits type b → ¬(loadBitmap blocks.mem (blockBm b)).Exhausted blocks.mem)
    (visited : ∀ c ∈ rest.head?, blocks.Visits type c) : WalkDefined type blocks.mem rest := by
  induction rest generalizing done with
  | nil => trivial
  | cons c rest ih =>
      have here := visited c rfl
      obtain ⟨-, -, -, bitmap⟩ := (holds.holds c (by simp)).values
      have offered := offers c here
      rw [bitmap] at offered
      refine ⟨offered, ?_⟩
      intro full
      have shape : done ++ c :: rest = (done ++ [c]) ++ rest := by simp
      have next := holds.next_eq
      have nonnull : ∀ d ∈ rest, d ≠ NULL := fun d member => (holds.page d (by simp [member])).nonnull
      rw [shape] at holds
      apply ih holds
      intro d isHead
      have named : rest.headD NULL = d := by
        rw [List.headD_eq_head?_getD, isHead]
        rfl
      rw [named] at next
      rw [← next]
      exact Blocks.Visits.next here (bitmap ▸ full) (next ▸ nonnull d (List.mem_of_mem_head? isHead))

/-- The invariant gives what holds in every state. -/
theorem Blocks.Holds.sound (holds : blocks.Holds pages type live bs) : BlockState.Sound pages type ⟨blocks, live⟩ := by
  refine ⟨?_, ?_, ?_, ?_⟩
  · apply holds.nodup.imp_of_mem
    intro p q listed listed' different
    obtain ⟨b, member, i, inside, rfl⟩ := holds.placed p listed
    obtain ⟨c, member', j, inside', rfl⟩ := holds.placed q listed'
    by_cases same : b = c
    · subst same
      have other : i ≠ j := fun equal => different (equal ▸ rfl)
      have less : i + 1 ≤ j ∨ j + 1 ≤ i := by omega
      unfold object
      rcases less with less | less
      · have scaled := Nat.mul_le_mul_right (getStructSize type) less
        rw [Nat.add_mul, Nat.one_mul] at scaled
        omega
      · have scaled := Nat.mul_le_mul_right (getStructSize type) less
        rw [Nat.add_mul, Nat.one_mul] at scaled
        omega
    · have first := object_bounds type b inside
      have second := object_bounds type c inside'
      have aligned := (holds.page b member).aligned
      have aligned' := (holds.page c member').aligned
      omega
  · intro p listed
    obtain ⟨b, member, i, inside, rfl⟩ := holds.placed p listed
    have bounds := object_bounds type b inside
    refine ⟨b, holds.reaches_iff.mpr member, holds.held b member, by omega, ?_⟩
    unfold pageSizeInBytes
    omega
  · intro b reaches
    exact (holds.holds b (holds.reaches_iff.mp reaches)).nbUsed
  · intro b reaches
    exact holds.held b (holds.reaches_iff.mp reaches)

/-- A write inside a live object keeps the blocks. -/
theorem Blocks.Holds.write (holds : blocks.Holds pages type live bs) {p addr : Nat} {byte : BitVec 8}
    (listed : p ∈ live) (low : p ≤ addr) (high : addr < p + getStructSize type) :
    Blocks.Holds pages type { blocks with mem := Function.update blocks.mem addr byte } live bs := by
  obtain ⟨b, member, i, inside, rfl⟩ := holds.placed p listed
  have page := holds.page b member
  have bounds := object_bounds type b inside
  have aligned := page.aligned
  apply holds.transport
  · intro c member' offset small _
    have page' := holds.page c member'
    have room := page'.room
    have aligned' := page'.aligned
    have same : loadWord (Function.update blocks.mem addr byte) (c + offset) = loadWord blocks.mem (c + offset) := by
      apply loadWord_congr
      intro place inside'
      have reduced : (c + offset + place) % 2 ^ 64 = c + offset + place := Nat.mod_eq_of_lt (by omega)
      rw [byteAt, byteAt, reduced]
      exact Function.update_of_ne (by omega) _ _
    rw [loadU64, loadU64, same]
  · intro c member' k inside' _ clear
    have page' := holds.page c member'
    have aligned' := page'.aligned
    have place := @place_bounds type c page' k (bitmap_index inside')
    have low' : c + 72 ≤ object type c (maxObjects type) := Nat.le_add_right _ _
    have same : Function.update blocks.mem addr byte ((blockBitmap type c).place k).1 =
        blocks.mem ((blockBitmap type c).place k).1 := by
      apply Function.update_of_ne
      by_cases equal : c = b
      · subst equal
        omega
      · omega
    rw [Bitmap.bit, ByteMemory.bit, same]
    exact clear

/-- A call that meets the condition keeps the blocks. -/
theorem Blocks.Holds.step (holds : blocks.Holds pages type live bs) {call : BlockCall} {state' : BlockState σ}
    (allowed : BlockState.Allows type call ⟨blocks, live⟩) (safe : BlockState.Safe pages type call ⟨blocks, live⟩)
    (steps : blockStep pages type call ⟨blocks, live⟩ state') :
    ∃ bs', state'.blocks.Holds pages type state'.live bs' := by
  cases call with
  | blockAlloc unassigned =>
      obtain ⟨ptr, blocks', returned, rfl⟩ := steps
      obtain ⟨offers, zero⟩ := safe
      have visited : ∀ c ∈ bs.head?, blocks.Visits type c := by
        intro c isHead
        have nonnull := (holds.page c (List.mem_of_mem_head? isHead)).nonnull
        have head : blocks.blockHeads type = c := by
          rw [holds.head, List.headD_eq_head?_getD, isHead]
          rfl
        rw [← head]
        exact Blocks.Visits.head (head ▸ nonnull)
      have defined := @Blocks.Holds.walkDefined _ _ _ _ _ [] bs holds offers visited
      apply holds.alloc defined _ returned
      intro full
      apply zero
      intro b reaches
      have member := holds.reaches_iff.mp reaches
      rw [(holds.holds b member).values.2.2.2]
      exact full b member
  | blockFree undefined ptr =>
      obtain ⟨blocks', returned, rfl⟩ := steps
      obtain ⟨b, member, i, inside, rfl⟩ := holds.placed ptr allowed
      have bounds := object_bounds type b inside
      have fits := block_fits type
      obtain ⟨exactShift, notLast⟩ := safe b (holds.reaches_iff.mpr member) (by omega) (by unfold pageSizeInBytes; omega)
      have index : (object type b i - (b + sizeofBlock)) / getStructSize type = i := by
        have difference : object type b i - (b + sizeofBlock) = i * getStructSize type := Nat.add_sub_cancel_left _ _
        rw [difference]
        exact Nat.mul_div_cancel _ (by omega)
      rw [index] at exactShift
      obtain ⟨done, rest, rfl⟩ := List.append_of_mem member
      apply holds.free inside allowed exactShift _ returned
      rintro rfl last
      apply notLast
      refine ⟨holds.head.symm, ?_⟩
      exact (holds.holds b member).nbUsed.trans last
  | write addr byte =>
      obtain rfl : state' = _ := steps
      obtain ⟨p, listed, low, high⟩ := allowed
      exact ⟨bs, holds.write listed low high⟩

theorem Blocks.Holds.none (empty : blocks.blockHeads type = NULL) : blocks.Holds pages type [] [] :=
  ⟨empty, trivial, List.nodup_nil, by simp, by simp, by simp, List.nodup_nil, by simp, by simp⟩

/-- From empty heads, every run whose calls meet the condition ends in a sound state. -/
theorem blockRun_sound (empty : blocks.blockHeads type = NULL) {calls : List BlockCall} {final : BlockState σ}
    (along : Along (blockStep pages type)
      (fun call state => state.Allows type call ∧ state.Safe pages type call) calls ⟨blocks, []⟩)
    (path : Path (blockStep pages type) calls ⟨blocks, []⟩ final) : final.Sound pages type := by
  have start : ∃ bs, blocks.Holds pages type [] bs := ⟨[], Blocks.Holds.none empty⟩
  have keeps : ∀ call (state state' : BlockState σ), (∃ bs, state.blocks.Holds pages type state.live bs) →
      state.Allows type call ∧ state.Safe pages type call → blockStep pages type call state state' →
      ∃ bs, state'.blocks.Holds pages type state'.live bs := by
    rintro call state state' ⟨bs, holds⟩ ⟨allowed, safe⟩ steps
    exact holds.step allowed safe steps
  obtain ⟨bs, holds⟩ := Path.keeps keeps start along path
  exact holds.sound

/-- The first objects of a single block are live, and its bitmap offers the others. -/
structure BlockState.Filled (pages : BlockPages σ) (type : StructType) (b count : Nat) (state : BlockState σ) : Prop where
  live : state.live = ((List.range count).map (object type b)).reverse
  holds : state.blocks.Holds pages type state.live [b]
  offers : ∀ j, count ≤ j → j < 64 * (maxObjects type / 64 + 1) → (blockBitmap type b).bit state.blocks.mem j = true

section
variable {state : BlockState σ} {count index : Nat}

/-- The loop of `block_alloc` takes the objects of a block in order. -/
theorem BlockState.Filled.walk (filled : BlockState.Filled pages type b count ⟨blocks, live⟩)
    (small : count < maxObjects type) (unassigned : Nat → Nat) :
    ∃ blocks', blockAllocWalk pages unassigned type walkLimit b blocks = .ok (object type b count, blocks') ∧
      BlockState.Filled pages type b (count + 1) ⟨blocks', object type b count :: live⟩ := by
  obtain ⟨lists, holds, offers⟩ := filled
  dsimp only at lists holds offers
  have member : b ∈ [b] := List.mem_singleton_self b
  have page := holds.page b member
  have offered : ¬(blockBitmap type b).Exhausted blocks.mem := by
    intro exhausted
    have none := exhausted count (bitmap_index small)
    rw [offers count le_rfl (bitmap_index small)] at none
    cases none
  obtain ⟨j, mem', found, bound, unused, earlier, writes⟩ := holds.find member offered (unassigned b)
  have first : j = count := by
    rcases lt_trichotomy j count with less | same | more
    · have listed : object type b j ∈ live := by
        rw [lists, List.mem_reverse]
        exact List.mem_map_of_mem (List.mem_range.mpr less)
      rw [holds.marked b member j (less.trans small) listed] at unused
      cases unused
    · exact same
    · have taken := earlier count more
      rw [offers count le_rfl (bitmap_index small)] at taken
      cases taken
  subst first
  have limit : walkLimit = (2 ^ 64 - 1) + 1 := by norm_num [walkLimit]
  obtain ⟨result, taken⟩ := @Blocks.Holds.takes _ _ _ _ _ _ _ _ unassigned (2 ^ 64 - 1) _ holds member found unused
    writes small
  refine ⟨_, ?_, ?_, taken, ?_⟩
  · rw [limit]
    exact result
  · rw [List.range_succ, List.map_append, List.reverse_append, ← lists]
    rfl
  · intro k low high
    dsimp only [blockNbUsed]
    rw [bit_header_store page page high (by decide), writes.other (place_ne page page high bound (Or.inr (by omega)))]
    exact offers k (by omega) high

theorem Blocks.Visits.reaches (visits : blocks.Visits type b) : blocks.Reaches type b := by
  induction visits with
  | head nonnull => exact .head nonnull
  | next visits full nonnull ih => exact .next ih nonnull

/-- An allocation from a block that offers an object meets the condition and takes the object. -/
theorem BlockState.Filled.alloc (filled : state.Filled pages type b count) (small : count < maxObjects type)
    (unassigned : Nat → Nat) :
    ∃ next : BlockState σ, (∀ state', blockStep pages type (.blockAlloc unassigned) state state' ↔ next = state') ∧
      state.Safe pages type (.blockAlloc unassigned) ∧ next.Filled pages type b (count + 1) := by
  have member : b ∈ [b] := List.mem_singleton_self b
  have nonnull := (filled.holds.page b member).nonnull
  have bitmap := (filled.holds.holds b member).values.2.2.2
  have unused := filled.offers count le_rfl (bitmap_index small)
  obtain ⟨blocks', walked, grown⟩ := filled.walk small unassigned
  have head : state.blocks.blockHeads type = b := filled.holds.head
  have returned : blockAlloc pages unassigned type state.blocks = .ok (object type b count, blocks') := by
    rw [blockAlloc, head, if_neg nonnull]
    change blockAllocWalk pages unassigned type walkLimit (state.blocks.blockHeads type) state.blocks = _
    rw [head]
    exact walked
  refine ⟨_, fun state' => ⟨?_, ?_⟩, ⟨?_, ?_⟩, grown⟩
  · rintro ⟨ptr, final, same, rfl⟩
    obtain ⟨rfl, rfl⟩ := Prod.mk.inj (Except.ok.inj (returned.symm.trans same))
    rfl
  · rintro rfl
    exact ⟨_, _, returned, rfl⟩
  · intro c visits exhausted
    obtain rfl := List.mem_singleton.mp (filled.holds.reaches_iff.mp visits.reaches)
    rw [bitmap] at exhausted
    have none := exhausted count (bitmap_index small)
    rw [unused] at none
    cases none
  · intro full
    have marked := full b (filled.holds.reaches_iff.mpr member)
    rw [bitmap] at marked
    have taken := marked count small
    rw [unused] at taken
    cases taken

/-- Allocations in a row take the objects of a block in order. -/
theorem BlockState.Filled.run (filled : state.Filled pages type b count) {more : Nat}
    (room : count + more ≤ maxObjects type) (unassigned : Nat → Nat) (rest : List BlockCall) :
    ∃ last : BlockState σ, last.Filled pages type b (count + more) ∧
      (Along (blockStep pages type) (fun call state => state.Allows type call ∧ state.Safe pages type call) rest last →
        Along (blockStep pages type) (fun call state => state.Allows type call ∧ state.Safe pages type call)
          (List.replicate more (.blockAlloc unassigned) ++ rest) state) ∧
      ∀ final, Path (blockStep pages type) rest last final →
        Path (blockStep pages type) (List.replicate more (.blockAlloc unassigned) ++ rest) state final := by
  induction more generalizing state count with
  | zero => exact ⟨state, filled, id, fun _ => id⟩
  | succ more ih =>
      obtain ⟨next, steps, safe, grown⟩ := filled.alloc (by omega) unassigned
      obtain ⟨last, whole, along, path⟩ := ih grown (by omega)
      refine ⟨last, ?_, fun holds => ?_, fun final reached => ?_⟩
      · rw [Nat.add_comm more, ← Nat.add_assoc]
        exact whole
      · rw [List.replicate_succ, List.cons_append, along_cons steps]
        exact ⟨⟨trivial, safe⟩, along holds⟩
      · exact ⟨next, (steps next).mpr rfl, path final reached⟩

/-- The first allocation from a page that counts no objects takes its first object. -/
theorem blockAlloc_starts (empty : blocks.blockHeads type = NULL) {frame : Nat} {bytes : Memory} {env : σ}
    (obtained : pages.pmmXalloc blocks.env = .ok (frame, bytes, env)) (zero : loadU64 bytes (dmP2V frame + 8) = 0)
    (unassigned : Nat → Nat) :
    ∃ blocks', blockAlloc pages unassigned type blocks = .ok (object type (dmP2V frame) 0, blocks') ∧
      BlockState.Filled pages type (dmP2V frame) 1 ⟨blocks', [object type (dmP2V frame) 0]⟩ := by
  obtain ⟨grown, created⟩ : ∃ grown, createBlock pages type NULL blocks = .ok (dmP2V frame, grown) := by
    rw [createBlock_unfold, obtained]
    exact ⟨_, rfl⟩
  have zeroAt : ∀ frame' bytes' env', pages.pmmXalloc blocks.env = .ok (frame', bytes', env') →
      loadU64 bytes' (dmP2V frame' + 8) = 0 := by
    intro frame' bytes' env' obtained'
    rw [obtained] at obtained'
    cases obtained'
    exact zero
  generalize dmP2V frame = new at created ⊢
  have headAt : Function.update grown.blockHeads type new type = ([] ++ [new]).headD NULL := by
    rw [Function.update_self, List.nil_append, List.headD_cons]
  obtain ⟨extended, offers⟩ := (Blocks.Holds.none empty).extend created zeroAt headAt
  rw [show linkBlock [] new grown.mem = grown.mem from rfl] at extended offers
  have positive := (block_fits type).2.2.2.1
  have started : BlockState.Filled pages type new 0
      ⟨{ grown with blockHeads := Function.update grown.blockHeads type new }, []⟩ :=
    ⟨rfl, extended, fun j _ inside => offers j inside⟩
  obtain ⟨blocks', walked, filled⟩ := started.walk positive unassigned
  refine ⟨blocks', ?_, filled⟩
  rw [blockAlloc, if_pos empty, created]
  change blockAllocWalk pages unassigned type walkLimit (Function.update grown.blockHeads type new type)
    { grown with blockHeads := Function.update grown.blockHeads type new } = _
  rw [Function.update_self, walked]

/-- The block counts its objects. -/
theorem BlockState.Filled.usedIn (filled : state.Filled pages type b count) :
    usedIn b state.live = count := by
  have page := filled.holds.page b (List.mem_singleton_self b)
  have all : state.live.filter (fun p => b ≤ p ∧ p < b + 4096) = state.live := by
    rw [List.filter_eq_self]
    intro p listed
    obtain ⟨c, member, i, inside, rfl⟩ := filled.holds.placed p listed
    obtain rfl := List.mem_singleton.mp member
    exact decide_eq_true ((@object_page type c c i page page inside).mpr rfl)
  rw [Vmm.usedIn, all, filled.live, List.length_reverse, List.length_map, List.length_range]

/-- A free of one of several objects meets the condition and returns. -/
theorem BlockState.Filled.free (filled : state.Filled pages type b count) (small : count ≤ maxObjects type)
    (several : 1 < count) (taken : index < count) (exactShift : 33 ≤ index % 64) (undefined : Nat → Nat) :
    ∃ final : BlockState σ, blockStep pages type (.blockFree undefined (object type b index)) state final ∧
      final.live = state.live.erase (object type b index) ∧
      state.Allows type (.blockFree undefined (object type b index)) ∧
      state.Safe pages type (.blockFree undefined (object type b index)) := by
  have member : b ∈ [b] := List.mem_singleton_self b
  have page := filled.holds.page b member
  have inside : index < maxObjects type := by omega
  have bounds := object_bounds type b inside
  have fits := block_fits type
  have used := filled.usedIn
  have listed : object type b index ∈ state.live := by
    rw [filled.live, List.mem_reverse]
    exact List.mem_map_of_mem (List.mem_range.mpr taken)
  obtain ⟨objects, size, most, -⟩ := (filled.holds.holds b member).values
  obtain ⟨mem', result, -, -⟩ := @Blocks.Holds.freeAt _ _ _ _ _ _ _ undefined _ filled.holds member inside listed
    exactShift
  rw [used, if_neg (by omega)] at result
  have limit : walkLimit = (2 ^ 64 - 1) + 1 := by norm_num [walkLimit]
  have head : state.blocks.blockHeads type = b := filled.holds.head
  have freed : blockFree pages undefined (object type b index) type state.blocks =
      .ok { state.blocks with mem := mem' } := by
    rw [blockFree, head, limit, blockFreeWalk, if_neg page.nonnull, objects, size, most, page.objects_end type,
      if_neg (by omega), result]
  refine ⟨_, ⟨_, freed, rfl⟩, rfl, listed, ?_⟩
  intro c reaches low high
  obtain rfl := List.mem_singleton.mp (filled.holds.reaches_iff.mp reaches)
  have difference : object type c index - (c + sizeofBlock) = index * getStructSize type := Nat.add_sub_cancel_left _ _
  rw [difference, Nat.mul_div_cancel _ (by omega)]
  refine ⟨exactShift, fun last => ?_⟩
  have counted : loadU64 state.blocks.mem (blockNbUsed c) = Vmm.usedIn c state.live :=
    (filled.holds.holds c member).nbUsed
  omega

end

/-- The first allocation of a type takes the first object of a new page and adds one to its bytes. -/
theorem blockAlloc_first (empty : blocks.blockHeads type = NULL) {frame : Nat} {bytes : Memory} {env : σ}
    (obtained : pages.pmmXalloc blocks.env = .ok (frame, bytes, env)) (unassigned : Nat → Nat) :
    ∃ blocks', blockAlloc pages unassigned type blocks = .ok (object type (dmP2V frame) 0, blocks') ∧
      blocks'.blockHeads type = dmP2V frame ∧
      loadU64 blocks'.mem (blockNbUsed (dmP2V frame)) = u64 (loadU64 bytes (dmP2V frame + 8) + 1) := by
  obtain ⟨grown, created⟩ : ∃ grown, createBlock pages type NULL blocks = .ok (dmP2V frame, grown) := by
    rw [createBlock_unfold, obtained]
    exact ⟨_, rfl⟩
  obtain ⟨frame', bytes', obtained', page, named, -, -, fresh⟩ := createBlock_spec (Nat.two_pow_pos 64) created
  obtain ⟨rfl, rfl, -⟩ : frame = frame' ∧ bytes = bytes' ∧ env = grown.env := by
    simpa [obtained] using obtained'
  generalize dmP2V frame = new at *
  obtain ⟨-, -, -, bitmap⟩ := fresh.holds.values
  have fits := block_fits type
  have first := fresh.unused 0 (by omega)
  obtain ⟨mem', found, writes⟩ : ∃ mem', bitmapFindAndSet (loadBitmap grown.mem (blockBm new)) (unassigned new) grown.mem =
      (0, mem') ∧ (blockBitmap type new).Writes 0 false grown.mem mem' := by
    rw [bitmap]
    rcases bitmapFindAndSet_spec grown.mem (blockBitmap_fits type new) (unassigned new) with
      ⟨none, -⟩ | ⟨j, mem', found, -, -, earlier, writes⟩
    · have clear := none 0 (show 0 < 64 * (maxObjects type / 64 + 1) by omega)
      rw [first] at clear
      cases clear
    · rcases Nat.eq_zero_or_pos j with rfl | positive
      · exact ⟨mem', by rw [found, Nat.zero_min], writes⟩
      · have clear := earlier 0 positive
        rw [first] at clear
        cases clear
  have header : ∀ offset, offset + 8 ≤ 72 → loadU64 mem' (new + offset) = loadU64 grown.mem (new + offset) := by
    intro offset small
    exact loadU64_header_write page page (by omega : 0 < 64 * (maxObjects type / 64 + 1)) writes small
  have len : loadU64 mem' (blockBm new) = maxObjects type := by
    rw [blockBm, header 32 (by decide)]
    exact congrArg Bitmap.len bitmap
  have room := page.room
  have data : ∀ value, loadU64 (storeU64 (blockNbUsed new) value mem') (blockObjects new) = new + 72 := by
    intro value
    have stored := @loadU64_header_store new new 0 8 value mem' page page (by decide) (by decide) (by decide) (by decide)
      (Or.inr (by decide))
    rw [header 0 (by decide)] at stored
    exact stored.trans fresh.holds.values.1
  have address : u64 (new + 72 + u64 (0 * loadU64 (storeU64 (blockNbUsed new)
      (u64 (loadU64 mem' (blockNbUsed new) + 1)) mem') (blockObjectSizeInBytes new))) = object type new 0 := by
    rw [Nat.zero_mul]
    unfold object u64
    omega
  have limit : walkLimit = (2 ^ 64 - 1) + 1 := by norm_num [walkLimit]
  have positive : (0 : Nat) ≠ maxObjects type := by omega
  refine ⟨⟨Function.update grown.blockHeads type new, storeU64 (blockNbUsed new)
    (u64 (loadU64 mem' (blockNbUsed new) + 1)) mem', grown.env⟩, ?_, Function.update_self _ _ _, ?_⟩
  · rw [blockAlloc, if_pos empty, created]
    change blockAllocWalk pages unassigned type walkLimit (Function.update grown.blockHeads type new type)
      { grown with blockHeads := Function.update grown.blockHeads type new } = _
    rw [Function.update_self, limit, blockAllocWalk, if_neg page.nonnull, found]
    dsimp only
    rw [len, if_pos positive, data, address]
  · have count : loadU64 mem' (blockNbUsed new) = loadU64 bytes (new + 8) :=
      (header 8 (by decide)).trans fresh.holds.nbUsed
    rw [count]
    exact loadU64_storeU64 (Nat.mod_lt _ (by decide))

end

/-- This page source hands out the frame behind the highest one in use, filled with one byte. -/
def topPages (byte : BitVec 8) : BlockPages (List Nat) where
  held env frame := frame ∈ env
  pmmXalloc env :=
    let frame := (env.foldr max 0 / pageSizeInBytes + 1) * pageSizeInBytes
    if frame < 2 ^ 47 then .ok (frame, fun _ => byte, frame :: env) else .error (.panic .pmmXallocNoMemory)
  pmmFree page env := .ok (env.filter (· ≠ page))
  xalloc_aligned := by
    intro env frame bytes env' obtained
    dsimp only at obtained
    split_ifs at obtained with small
    obtain ⟨rfl, -⟩ := Prod.mk.inj (Except.ok.inj obtained)
    exact ⟨Nat.mul_mod_left _ _, small⟩
  xalloc_fresh := by
    intro env frame bytes env' obtained listed
    dsimp only at obtained
    split_ifs at obtained with small
    obtain ⟨rfl, -⟩ := Prod.mk.inj (Except.ok.inj obtained)
    have bound := le_foldr_max listed
    unfold pageSizeInBytes at bound
    omega
  xalloc_held := by
    intro env frame bytes env' obtained other
    dsimp only at obtained
    split_ifs at obtained with small
    obtain ⟨rfl, rest⟩ := Prod.mk.inj (Except.ok.inj obtained)
    obtain ⟨-, rfl⟩ := Prod.mk.inj rest
    rw [List.mem_cons, or_comm]
  free_held := by
    intro env page env' freed other
    obtain rfl := Except.ok.inj freed
    simp

/-- The allocator before its first call. -/
def noBlocks : Blocks (List Nat) := ⟨fun _ => NULL, fun _ => 0, []⟩

theorem topPages_first (byte : BitVec 8) :
    (topPages byte).pmmXalloc noBlocks.env = .ok (4096, fun _ => byte, [4096]) := by
  simp [topPages, noBlocks, pageSizeInBytes]

/-- Thirty-four objects are allocated from clear pages, and the last one is released. -/
theorem blockRun_sound_released :
    let calls := List.replicate 34 (.blockAlloc fun _ => 0) ++
      [BlockCall.blockFree (fun _ => 0) (object .vmmRegion (dmP2V 4096) 33)]
    ∃ final, Path (blockStep (topPages 0) .vmmRegion) calls ⟨noBlocks, []⟩ final ∧ final.live.length = 33 ∧
      final.Sound (topPages 0) .vmmRegion := by
  intro calls
  have zero : loadU64 (fun _ => 0) (dmP2V 4096 + 8) = 0 := by decide +kernel
  obtain ⟨blocks', returned, started⟩ := @blockAlloc_starts _ (topPages 0) .vmmRegion noBlocks rfl _ _ _
    (topPages_first 0) zero fun _ => 0
  obtain ⟨last, filled, along, path⟩ := started.run (show 1 + 33 ≤ maxObjects .vmmRegion by decide) (fun _ => 0)
    [BlockCall.blockFree (fun _ => 0) (object .vmmRegion (dmP2V 4096) 33)]
  obtain ⟨final, freed, live, allowed, safe⟩ := filled.free (by decide) (by decide) (show 33 < 1 + 33 by decide)
    (by decide) fun _ => 0
  have first : ∀ state', blockStep (topPages 0) .vmmRegion (.blockAlloc fun _ => 0) ⟨noBlocks, []⟩ state' ↔
      ⟨blocks', [object .vmmRegion (dmP2V 4096) 0]⟩ = state' := by
    intro state'
    constructor
    · rintro ⟨ptr, grown, same, rfl⟩
      obtain ⟨rfl, rfl⟩ := Prod.mk.inj (Except.ok.inj (returned.symm.trans same))
      rfl
    · rintro rfl
      exact ⟨_, _, returned, rfl⟩
  have unvisited : ∀ b, ¬noBlocks.Visits .vmmRegion b := by
    intro b visits
    have listed := (@Blocks.Holds.none _ (topPages 0) .vmmRegion noBlocks rfl).reaches_iff.mp visits.reaches
    cases listed
  have valid : Along (blockStep (topPages 0) .vmmRegion)
      (fun call state => state.Allows .vmmRegion call ∧ state.Safe (topPages 0) .vmmRegion call) calls
      ⟨noBlocks, []⟩ := by
    refine (along_cons first).mpr ⟨⟨trivial, fun b visits => absurd visits (unvisited b), ?_⟩,
      along ⟨⟨allowed, safe⟩, fun _ _ => trivial⟩⟩
    intro _ frame bytes env' obtained
    obtain ⟨rfl, rest⟩ := Prod.mk.inj (Except.ok.inj ((topPages_first 0).symm.trans obtained))
    obtain ⟨rfl, -⟩ := Prod.mk.inj rest
    exact zero
  have reached : Path (blockStep (topPages 0) .vmmRegion) calls ⟨noBlocks, []⟩ final :=
    ⟨_, (first _).mpr rfl, path final ⟨final, freed, rfl⟩⟩
  refine ⟨final, reached, ?_, blockRun_sound rfl valid reached⟩
  rw [live, filled.live]
  decide +kernel

/-- The first allocation from a page of ones leaves a count that wraps to zero, with one live object. -/
theorem blockRun_miscounts : ∃ final,
    Along (blockStep (topPages 0xff) .vmmRegion) (fun call state => state.Allows .vmmRegion call) [.blockAlloc fun _ => 0]
      ⟨noBlocks, []⟩ ∧
    Path (blockStep (topPages 0xff) .vmmRegion) [.blockAlloc fun _ => 0] ⟨noBlocks, []⟩ final ∧
      ¬final.Sound (topPages 0xff) .vmmRegion := by
  have obtained := topPages_first 0xff
  obtain ⟨blocks', returned, head, count⟩ :=
    @blockAlloc_first _ (topPages 0xff) .vmmRegion noBlocks rfl _ _ _ obtained fun _ => 0
  refine ⟨⟨blocks', _⟩, ⟨trivial, fun _ _ => trivial⟩, ⟨_, ⟨_, _, returned, rfl⟩, rfl⟩, ?_⟩
  intro sound
  have nonnull : dmP2V 4096 ≠ NULL := by decide
  have reaches : blocks'.Reaches .vmmRegion (dmP2V 4096) := head ▸ Blocks.Reaches.head (head.symm ▸ nonnull)
  have counted := sound.counted _ reaches
  dsimp only at counted
  rw [count] at counted
  revert counted
  decide +kernel

end Vmm

end B0s
